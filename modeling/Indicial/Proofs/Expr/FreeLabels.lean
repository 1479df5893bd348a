import Indicial.Proofs.Expr.Closed
import Indicial.Proofs.Expr.Expand
import Indicial.Proofs.Expr.Simplify

/-!
# Marks and free labels

A mark is free in the labels that occur exactly once among the free labels of its operand and its
direction. Expanding takes the derivative along one label after the other, and each derivative turns a
free label into a summed one and any other label into a free one. So an expanded mark is free in the
labels that occur an odd number of times (`mem_outer_differentiatePlain`), and the two readings part
where a label occurs three times or more.

Simplification rebuilds a mark over its simplified operand. If that is a mark itself, the two become
one, and a label which the lower mark sums over is no longer free although the upper one gave it.

Away from these two cases expanding and simplifying keep the free labels (`marks_keep_labels`); in
both cases they do not (`marks_lose_labels`).
-/

namespace Indicial.Expr

/-- At every mark, a label that occurs an odd number of times occurs once. -/
def OddOnce (e : Expr) : Prop :=
  ∀ x along, derivative x along ∈ e.postorder →
    ∀ c, (x.outer ++ along).count c % 2 = 1 → (x.outer ++ along).count c = 1

/-- Where simplification joins a mark to the one below it, no label that the lower mark sums over is
given once by the upper one. -/
def JoinsApart (e : Expr) : Prop :=
  ∀ x along, derivative x along ∈ e.postorder → ∀ y first, simplify x = .ok (derivative y first) →
    ∀ c, 1 < (y.outer ++ first).count c → along.count c ≠ 1

/-! ### Expanding -/

section Expand

variable {constant : Constancy} {e e' m n l r : Expr} {along : Index}

/-- Derivatives along several labels leave the labels free that occur an odd number of times. -/
lemma mem_outer_differentiatePlain (he : e.WellFormed) (hmark : e.hasDerivative = false)
    (h : differentiatePlain constant e along = .ok m) (c : Label) :
    c ∈ m.outer ↔ (e.outer ++ along).count c % 2 = 1 := by
  unfold differentiatePlain at h
  induction along generalizing e with
  | nil =>
    cases h
    have hle := List.nodup_iff_count_le_one.1 he.nodup_outer c
    rw [List.append_nil, ← List.count_pos_iff]
    omega
  | cons k rest ih =>
    rw [List.foldlM_cons] at h
    obtain ⟨d, hd, h⟩ := bind_eq_ok_iff.1 h
    have hderived := differentiate_derived he hmark hd
    -- The derivative along `k` frees `k` or sums over it: either way the parity is kept.
    have hfree : d.outer.count c = (e.outer.count c + [k].count c) % 2 := by
      have hle := List.nodup_iff_count_le_one.1 he.nodup_outer c
      have hle' := List.nodup_iff_count_le_one.1 hderived.wellFormed.nodup_outer c
      have hmem : c ∈ d.outer ↔ e.outer.count c + [k].count c = 1 := by
        rw [hderived.outer_perm.mem_iff, Index.mem_exclusive, List.count_append]
      have hone : [k].count c ≤ 1 := List.count_le_length
      rw [← List.count_pos_iff] at hmem
      omega
    have hrest := ih hderived.wellFormed hderived.hasDerivative h
    have hcons : (k :: rest).count c = [k].count c + rest.count c := by
      rw [← List.count_append, List.singleton_append]
    rw [hrest, List.count_append, List.count_append]
    omega

/-- The condition passes to operands. -/
lemma OddOnce.operands (h : n.operands? = some (l, r)) (hn : n.OddOnce) :
    l.OddOnce ∧ r.OddOnce :=
  ⟨fun x along hx => hn x along ((mem_postorder_of_operands h).2 (.inl hx)),
    fun x along hx => hn x along ((mem_postorder_of_operands h).2 (.inr (.inl hx)))⟩

/-- Expanding keeps the free labels where no label occurs three times, or another odd number of times
above one, at a mark. -/
theorem expand_outer_perm (he : e.WellFormed) (hodd : e.OddOnce)
    (h : expand constant e = .ok e') : e'.outer.Perm e.outer := by
  induction e using operandsInduction generalizing e' with
  | leaf n hleaf =>
    rw [expand_of_leaf hleaf] at h
    cases h
    exact .refl _
  | node n l r hops ihl ihr =>
    obtain ⟨hl, hr⟩ := wellFormed_operands hops he
    obtain ⟨hlodd, hrodd⟩ := hodd.operands hops
    by_cases hkind : n.kind = .derivative
    · obtain ⟨along, rfl⟩ : ∃ along, n = derivative l along := by
        cases n <;> cases hops <;> first | exact ⟨_, rfl⟩ | cases hkind
      rw [expand] at h
      obtain ⟨d, hd, h⟩ := bind_eq_ok_iff.1 h
      have hperm := ihl hl hlodd hd
      obtain ⟨hdwf, hdmark⟩ := expand_wellFormed hl hd
      obtain ⟨hwf, -⟩ := differentiatePlain_wellFormed hdwf hdmark h
      -- Both have no label twice, so it is enough that odd and once mean the same here.
      refine Index.perm_of_nodup hwf.nodup_outer he.nodup_outer fun c => ?_
      have honce := hodd l along (mem_postorder_self _) c
      rw [mem_outer_differentiatePlain hdwf hdmark h, outer, Index.mem_exclusive,
        (hperm.append_right along).count_eq]
      omega
    · rw [expand_of_operands hops hkind] at h
      obtain ⟨l', hl', h⟩ := bind_eq_ok_iff.1 h
      obtain ⟨r', hr', h⟩ := bind_eq_ok_iff.1 h
      have hlperm := ihl hl hlodd hl'
      have hrperm := ihr hr hrodd hr'
      rcases rebuild_rebuilt hops hkind he hlperm hrperm with ⟨m, hm, hreb⟩ | ⟨-, -, herr⟩
      · rw [hm] at h
        cases h
        exact (hreb.wellFormed hops he (expand_wellFormed hl hl').1 (expand_wellFormed hr hr').1
          hlperm hrperm).2
      · rw [herr] at h
        cases h

end Expand

/-! ### Simplifying -/

section Simplify

variable {e e' m n l r x : Expr} {a along : Index}

/-- Two marks become one. -/
lemma exclusive_exclusive_append_of_apart (h : ∀ c, 1 < a.count c → along.count c ≠ 1) :
    (Index.exclusive (a ++ along)).Perm (Index.exclusive (Index.exclusive a ++ along)) := by
  refine Index.perm_of_nodup (Index.nodup_exclusive _) (Index.nodup_exclusive _) fun c => ?_
  have hle := List.nodup_iff_count_le_one.1 (Index.nodup_exclusive a) c
  have hmem : 0 < (Index.exclusive a).count c ↔ a.count c = 1 := by
    rw [List.count_pos_iff, Index.mem_exclusive]
  have hapart := h c
  rw [Index.mem_exclusive, Index.mem_exclusive, List.count_append, List.count_append]
  omega

/-- A mark over a simplified operand. -/
lemma mkDerivative_outer_perm (hx : (derivative l along).WellFormed) (hl : x.WellFormed)
    (hperm : x.outer.Perm l.outer)
    (hapart : ∀ y first, x = derivative y first →
      ∀ c, 1 < (y.outer ++ first).count c → along.count c ≠ 1)
    (h : mkDerivative x along = .ok m) : m.WellFormed ∧ m.outer.Perm (derivative l along).outer := by
  obtain ⟨hne, ⟨y, first, rfl, rfl, hle⟩ | ⟨hkind, rfl, hle⟩⟩ := mkDerivative_of_ok h
  · refine ⟨⟨hl.1, hl.2.1, by simp [hne], hle⟩, ?_⟩
    simp only [outer]
    rw [← List.append_assoc]
    exact (exclusive_exclusive_append_of_apart (hapart y first rfl)).trans
      (Index.exclusive_perm (hperm.append_right along))
  · exact ⟨⟨hl, hkind, hx.2.2.1, hle⟩, Index.exclusive_perm (hperm.append_right along)⟩

/-- Reducing the root keeps the free labels. -/
lemma normalize_outer_perm (hn : n.WellFormed) (h : normalize n = .ok m) :
    m.WellFormed ∧ m.outer.Perm n.outer := by
  have step : ∀ k m, k.WellFormed ∧ k.outer.Perm n.outer → reduceRoot k = .ok (some m) →
      m.WellFormed ∧ m.outer.Perm n.outer := by
    rintro k m ⟨hk, hperm⟩ hstep
    obtain ⟨hm, hperm'⟩ := (reduceRoot_rewrites hstep).wellFormed hk
    exact ⟨hm, hperm'.trans hperm⟩
  rcases normalize_invariant step ⟨hn, .refl _⟩ with ⟨m', hP, hok, -⟩ | ⟨_, f, -, herr, -⟩
  · rw [hok] at h
    cases h
    exact hP
  · rw [herr] at h
    cases h

/-- The condition passes to operands. -/
lemma JoinsApart.operands (h : n.operands? = some (l, r)) (hn : n.JoinsApart) :
    l.JoinsApart ∧ r.JoinsApart :=
  ⟨fun x along hx => hn x along ((mem_postorder_of_operands h).2 (.inl hx)),
    fun x along hx => hn x along ((mem_postorder_of_operands h).2 (.inr (.inl hx)))⟩

/-- Simplifying keeps the free labels where no mark is joined to one that sums over its label. -/
theorem simplify_outer_perm (he : e.WellFormed) (hjoins : e.JoinsApart)
    (h : simplify e = .ok e') : e'.WellFormed ∧ e'.outer.Perm e.outer := by
  induction e using operandsInduction generalizing e' with
  | leaf n hleaf =>
    rw [simplify_of_leaf hleaf] at h
    cases h
    exact ⟨he, .refl _⟩
  | node n l r hops ihl ihr =>
    obtain ⟨hl, hr⟩ := wellFormed_operands hops he
    obtain ⟨hljoins, hrjoins⟩ := hjoins.operands hops
    rw [simplify_of_operands hops] at h
    obtain ⟨l', hl', h⟩ := bind_eq_ok_iff.1 h
    obtain ⟨r', hr', h⟩ := bind_eq_ok_iff.1 h
    obtain ⟨m, hm, h⟩ := bind_eq_ok_iff.1 h
    obtain ⟨hlwf, hlperm⟩ := ihl hl hljoins hl'
    obtain ⟨hrwf, hrperm⟩ := ihr hr hrjoins hr'
    -- `rebuild_rebuilt` says nothing about marks: they may join the mark that their operand became.
    have hnode : m.WellFormed ∧ m.outer.Perm n.outer := by
      by_cases hkind : n.kind = .derivative
      · obtain ⟨along, rfl⟩ : ∃ along, n = derivative l along := by
          cases n <;> cases hops <;> first | exact ⟨_, rfl⟩ | cases hkind
        refine mkDerivative_outer_perm he hlwf hlperm (fun y first hy => ?_) hm
        exact hjoins l along (mem_postorder_self _) y first (hy ▸ hl')
      · rcases rebuild_rebuilt hops hkind he hlperm hrperm with ⟨m', hm', hreb⟩ | ⟨-, -, herr⟩
        · rw [hm'] at hm
          cases hm
          exact hreb.wellFormed hops he hlwf hrwf hlperm hrperm
        · rw [herr] at hm
          cases hm
    obtain ⟨hwf, hperm⟩ := normalize_outer_perm hnode.1 h
    exact ⟨hwf, hperm.trans hnode.2⟩

end Simplify

/-- Expanding keeps the free labels of an expression in which a label that occurs an odd number of
times at a mark occurs there once. Simplifying keeps them where no mark is joined to one that sums over
a label of its direction. -/
theorem marks_keep_labels {e : Expr} (he : Built e) :
    (e.OddOnce → ∀ constant e', expand constant e = .ok e' → e'.outer.Perm e.outer) ∧
      (e.JoinsApart → ∀ e', simplify e = .ok e' → e'.outer.Perm e.outer) :=
  ⟨fun hodd _ _ h => expand_outer_perm he.wellFormed hodd h,
    fun hjoins _ h => (simplify_outer_perm he.wellFormed hjoins h).2⟩

/-- The derivative of a scalar field `u` along labels. -/
def marked (along : Index) : Expr := derivative (tensor ⟨Bytes.ofString "u", 0, 0⟩ []) along

/-- The derivative along `b` of the derivative of `u` along `a`, with a zero added in between. -/
def markedTwice (a b : Index) : Expr :=
  derivative (sum (marked a) (literal (.ofInt 0) (Index.exclusive a))) b

/-- Two marks are joined along `i`, `i` and `j`, and `j` stays free. -/
theorem marks_keep_labels_joined :
    ∃ e e', expand (fun _ => false) (markedTwice [105] [105, 106]) = .ok e ∧
      simplify (markedTwice [105] [105, 106]) = .ok e' ∧ e.outer.Perm [106] ∧ e'.outer.Perm [106] := by
  have hbuilt : Built (markedTwice [105] [105, 106]) := by
    apply WellFormed.built
    simp [markedTwice, marked, WellFormed, outer, kind, Index.capacity, Index.exclusive]
  have hodd : (markedTwice [105] [105, 106]).OddOnce := by
    intro x along hx c
    simp only [markedTwice, marked, postorder, List.mem_append, List.mem_singleton, reduceCtorEq,
      false_or, or_false, derivative.injEq] at hx
    rcases hx with ⟨rfl, rfl⟩ | ⟨rfl, rfl⟩ <;>
      simp only [outer, Index.exclusive, List.count_append, List.count_cons] <;> grind
  have hjoins : (markedTwice [105] [105, 106]).JoinsApart := by
    intro x along hx y first hxy c
    simp only [markedTwice, marked, postorder, List.mem_append, List.mem_singleton, reduceCtorEq,
      false_or, or_false, derivative.injEq] at hx
    rcases hx with ⟨rfl, rfl⟩ | ⟨rfl, rfl⟩
    · cases hxy
    · have htest : ((simplify (sum (marked [105]) (literal (.ofInt 0) (Index.exclusive [105])))
          ).toOption.all fun d => (Index.repeated (d.left?.elim [] outer ++ d.index)).isEmpty) = true := by
        decide +kernel
      have hnone := List.isEmpty_iff.1 (toOption_all_iff.1 htest _ hxy)
      exact fun hc => absurd (hnone ▸ Index.mem_repeated.2 hc) List.not_mem_nil
  have hrun : ((expand (fun _ => false) (markedTwice [105] [105, 106])).toOption.isSome &&
      (simplify (markedTwice [105] [105, 106])).toOption.isSome) = true := by decide +kernel
  have houter : (markedTwice [105] [105, 106]).outer = [106] := by decide +kernel
  obtain ⟨hexpand, hsimplify⟩ := marks_keep_labels hbuilt
  cases he : expand (fun _ => false) (markedTwice [105] [105, 106]) with
  | error f =>
    rw [he] at hrun
    cases hrun
  | ok e =>
    cases hs : simplify (markedTwice [105] [105, 106]) with
    | error f =>
      rw [he, hs] at hrun
      cases hrun
    | ok e' => exact ⟨e, e', rfl, rfl, houter ▸ hexpand hodd _ e he, houter ▸ hsimplify hjoins e' hs⟩

/-- The labels of `∂_i ∂_i ∂_i u` change when it is expanded, and those of `∂_i (∂_i ∂_i u + 0)` when it
is simplified. -/
theorem marks_lose_labels :
    (Built (marked [105, 105, 105]) ∧ ∃ e', expand (fun _ => false) (marked [105, 105, 105]) = .ok e' ∧
      ¬e'.outer.Perm (marked [105, 105, 105]).outer) ∧
    (Built (markedTwice [105, 105] [105]) ∧ ∃ e', simplify (markedTwice [105, 105] [105]) = .ok e' ∧
      ¬e'.outer.Perm (markedTwice [105, 105] [105]).outer) := by
  refine ⟨⟨?_, ?_⟩, ⟨?_, ?_⟩⟩
  · apply WellFormed.built
    simp [marked, WellFormed, outer, kind, Index.capacity, Index.exclusive]
  · have h : ((expand (fun _ => false) (marked [105, 105, 105])).toOption.any fun e' =>
        !Index.isPermutation e'.outer (marked [105, 105, 105]).outer) = true := by decide +kernel
    obtain ⟨e', he', hperm⟩ := toOption_any_iff.1 h
    exact ⟨e', he', by simpa [← Index.isPermutation_iff] using hperm⟩
  · apply WellFormed.built
    simp [markedTwice, marked, WellFormed, outer, kind, Index.capacity, Index.exclusive]
  · have h : ((simplify (markedTwice [105, 105] [105])).toOption.any fun e' =>
        !Index.isPermutation e'.outer (markedTwice [105, 105] [105]).outer) = true := by decide +kernel
    obtain ⟨e', he', hperm⟩ := toOption_any_iff.1 h
    exact ⟨e', he', by simpa [← Index.isPermutation_iff] using hperm⟩

end Indicial.Expr
