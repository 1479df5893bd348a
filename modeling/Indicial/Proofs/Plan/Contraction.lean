import Indicial.Proofs.Plan.IndexMap
import Indicial.Proofs.Plan.Step

/-!
# Contractions meet every assignment once

An index map can be made exactly when every label of the target is there (`IndexMap.make_error_iff`),
and then it gives, for each assignment of the inner labels in row-major order, the position over the
target of the numbers that its labels get (`IndexMap.Tabulates`). Only the identity has no table, and a
table has an entry for every assignment.

A loop knows the number of assignments only from its longest table and its window. For the labels of
products, ratios and relabellings that number is right, so a slot of the window ends with the sum of the
terms of all assignments that belong to it, each added once (`accumulated`).
-/

namespace Indicial

open Odometer

variable {α : Type}

/-- The terms of the assignments of `inner` that give `outer` the position `q`, added from the left. -/
def accumulated (A : Arith α) (D : Nat) (inner outer : Index) (term : Valuation → α) (q : Nat) : α :=
  (visits inner.length D).foldl (fun x ds =>
    if place D (outer.map (Valuation.ofDigits inner ds)) = q
    then A.add x (term (Valuation.ofDigits inner ds)) else x) A.zero

/-- The numbers below the number of assignments stand for the assignments. -/
lemma gather_reindex {A : Arith α} {D : Nat} (hD : 0 < D) (inner outer : Index)
    (term : Valuation → α) (q : Nat) :
    gather A (D ^ inner.length) (reindex D inner outer)
      (fun k => term (Valuation.ofDigits inner (digits D inner.length k))) q
      = accumulated A D inner outer term q := by
  rw [accumulated, visits_eq_map hD, List.foldl_map]
  rfl

namespace IndexMap

/-- The map gives the positions over `target` of the assignments of `inner`. -/
structure Tabulates (m : IndexMap) (D : Nat) (inner target : Index) : Prop where
  get : ∀ k ds, (visits inner.length D)[k]? = some ds →
    m.get k = .ok (place D (target.map (Valuation.ofDigits inner ds)) : Nat)
  identity : m = none → ∀ k ds, (visits inner.length D)[k]? = some ds →
    place D (target.map (Valuation.ofDigits inner ds)) = k
  size : ∀ table, m = some table → table.size = D ^ inner.length

section Make

variable {D : Nat} {inner target : Index} {m : IndexMap} {f : Fault}

/-- Weights are missing exactly at the first label that `inner` does not hold. -/
lemma addWeights_error_iff {dim : Int64} {rest : Index} {p : Nat} {ws : List Int64} :
    addWeights inner target dim p rest ws = .error f ↔
      ∃ pre c post, rest = pre ++ c :: post ∧ (∀ x ∈ pre, x ∈ inner) ∧ c ∉ inner ∧
        f = .missingLabel c target inner := by
  induction rest generalizing p ws with
  | nil => simp [addWeights]
  | cons d rest ih =>
    rw [addWeights]
    cases hd : Index.position? inner d with
    | none =>
      have hmissing := Index.position?_eq_none_iff.1 hd
      constructor
      · intro h
        cases h
        exact ⟨[], d, rest, rfl, List.forall_mem_nil _, hmissing, rfl⟩
      · rintro ⟨pre, c, post, heq, hpre, -, rfl⟩
        cases pre with
        | nil =>
          cases heq
          rfl
        | cons x pre =>
          cases heq
          exact absurd (hpre d (by simp)) hmissing
    | some q =>
      have hheld : d ∈ inner := by
        by_contra hd'
        rw [Index.position?_eq_none_iff.2 hd'] at hd
        cases hd
      dsimp only
      rw [ih]
      constructor
      · rintro ⟨pre, c, post, rfl, hpre, hc, rfl⟩
        exact ⟨d :: pre, c, post, rfl, List.forall_mem_cons.2 ⟨hheld, hpre⟩, hc, rfl⟩
      · rintro ⟨pre, c, post, heq, hpre, hc, rfl⟩
        cases pre with
        | nil =>
          cases heq
          exact absurd hheld hc
        | cons x pre =>
          cases heq
          exact ⟨pre, c, post, rfl, fun x hx => hpre x (by simp [hx]), hc, rfl⟩

/-- An index map is missing exactly when a label of the target is. -/
theorem make_error_iff (hD : 0 < D) (hD' : D < 2 ^ 63) :
    make inner target (Int64.ofNat D) = .error f ↔
      ∃ pre c post, target = pre ++ c :: post ∧ (∀ x ∈ pre, x ∈ inner) ∧ c ∉ inner ∧
        f = .missingLabel c target inner := by
  have hrun : Odometer.run inner.length (Int64.ofNat D).toInt = .ok (visits inner.length D) := by
    rw [Odometer.run, Int64.toInt_ofNat_of_lt hD', if_pos (by omega), Int.toNat_natCast]
  have hweights : weights inner target (Int64.ofNat D) = .error f ↔ _ := addWeights_error_iff
  rw [← hweights, make, hrun]
  cases weights inner target (Int64.ofNat D) with
  | error g =>
    constructor <;>
    · intro h
      cases h
      rfl
  | ok ws =>
    constructor <;>
    · intro h
      cases h

/-- What was made gives the positions of all assignments. -/
theorem tabulates_of_make (hD : 0 < D) (hD' : D < 2 ^ 63) (hlen : target.length ≤ Index.capacity)
    (hsmall : D ^ target.length < 2 ^ 31) (h : make inner target (Int64.ofNat D) = .ok m) :
    m.Tabulates D inner target := by
  have hfollows := follows_of_make h hD hD' (hlen.trans_lt (by decide)) hsmall
  have hget : ∀ k ds, (visits inner.length D)[k]? = some ds →
      m.get k = .ok (place D (target.map (Valuation.ofDigits inner ds)) : Nat) := by
    intro k ds hds
    have hk : k < D ^ inner.length := by
      rw [← length_visits hD]
      exact (List.getElem?_eq_some_iff.1 hds).1
    rw [getElem?_visits hD hk] at hds
    cases hds
    exact hfollows.get k hk
  refine ⟨hget, ?_, ?_⟩
  · rintro rfl k ds hds
    have hk := hget k ds hds
    simp only [IndexMap.get, Except.ok.injEq] at hk
    omega
  · rintro table rfl
    rcases hfollows.length with h | ⟨h, hlength⟩
    · exact h
    · -- A table without entries would leave out the first assignment.
      have hfirst := hfollows.get 0 (Nat.pow_pos hD)
      have hempty : table.size = 0 := h
      simp [IndexMap.get, hempty] at hfirst

end Make

end IndexMap

/-! ### Loops -/

namespace Plan

/-- The maps of a product or ratio with operands over `l` and `r` exist, and are planned for it. Its loop
has as many rounds as there are assignments of all labels, and leaves in a window above those of the
operands the sum over all assignments, each added once. -/
def ContractsOnce (α : Type) (D : Nat) (l r : Index) : Prop :=
  let inner := Index.unique (l ++ r)
  let outer := Index.symmetricDifference l r
  let size := Layout.power (Int64.ofNat D) (Int64.ofNat outer.length)
  ∃ own left right,
    IndexMap.make inner outer (Int64.ofNat D) = .ok own ∧
    IndexMap.make inner l (Int64.ofNat D) = .ok left ∧
    IndexMap.make inner r (Int64.ofNat D) = .ok right ∧
    (∀ (A : Arith α) (t : Tree α) i kind, kind = .product ∨ kind = .ratio → t.dim = Int64.ofNat D →
      t.outer.row i = outer → t.outer.row (t.children i).1.toNat = l →
      t.outer.row (t.children i).2.toNat = r →
      ∃ a b, step A t i kind = .ok (if kind = .product then .multiply a b own left right
        else .divide a b own left right)) ∧
    assignments [own, left, right] size = D ^ inner.length ∧
    ∀ (A : Arith α) (op : α → α → α) (f : Frame α) W S v o a b, f.Shows W S v → S < 2 ^ 63 →
      o + D ^ outer.length ≤ S → a + D ^ l.length ≤ o → b + D ^ r.length ≤ o →
      ∃ f', runContraction A op (Int64.ofNat o) size (Int64.ofNat a) (Int64.ofNat b) own left right f
          = .ok f' ∧
        f'.Shows W S (overwrite v o (D ^ outer.length) fun q lane =>
          accumulated A D inner outer
            (fun σ => op (v (a + place D (l.map σ)) lane) (v (b + place D (r.map σ)) lane)) q)

/-- The same of a relabelling to `target`, in which repeated labels are summed. -/
def RelabelsOnce (α : Type) (D : Nat) (target : Index) : Prop :=
  let inner := Index.unique target
  let outer := Index.exclusive target
  let size := Layout.power (Int64.ofNat D) (Int64.ofNat outer.length)
  ∃ own left,
    IndexMap.make inner outer (Int64.ofNat D) = .ok own ∧
    IndexMap.make inner target (Int64.ofNat D) = .ok left ∧
    (∀ (A : Arith α) (t : Tree α) i, t.dim = Int64.ofNat D → t.outer.row i = outer →
      t.binding.row i = target → (t.outer.row (t.children i).1.toNat).length = target.length →
      ∃ a, step A t i .bind = .ok (.relabel a own left)) ∧
    assignments [own, left] size = D ^ inner.length ∧
    ∀ (A : Arith α) (f : Frame α) W S v o a, f.Shows W S v → S < 2 ^ 63 →
      o + D ^ outer.length ≤ S → a + D ^ target.length ≤ o →
      ∃ f', runRelabel A (Int64.ofNat o) size (Int64.ofNat a) own left f = .ok f' ∧
        f'.Shows W S (overwrite v o (D ^ outer.length) fun q lane =>
          accumulated A D inner outer (fun σ => v (a + place D (target.map σ)) lane) q)

section Loops

variable {D : Nat} {inner outer l r t target : Index}

/-- A map to inner labels, none of them twice. -/
lemma exists_follows_of_subset (hD : 0 < D) (hD' : D < 2 ^ 63) (hcap : inner.length ≤ Index.capacity)
    (hsmall : D ^ inner.length < 2 ^ 31) (ht : t.Nodup) (hsub : ∀ c ∈ t, c ∈ inner) :
    ∃ m, IndexMap.make inner t (Int64.ofNat D) = .ok m ∧ m.Follows D inner t := by
  have hle := (ht.subperm hsub).length_le
  have hpow : D ^ t.length ≤ D ^ inner.length := Nat.pow_le_pow_right hD hle
  exact IndexMap.make_follows hD hD' ((hle.trans hcap).trans_lt (by decide)) (hpow.trans_lt hsmall)
    hsub

/-- The size of a window over labels that fit an index. -/
lemma power_length (D : Nat) (hcap : outer.length ≤ Index.capacity) :
    Layout.power (Int64.ofNat D) (Int64.ofNat outer.length) = Int64.ofNat (D ^ outer.length) :=
  Layout.power_ofNat D (hcap.trans_lt (by decide))

variable {A : Arith α} {tree : Tree α} {i : Nat} {kind : Kind}

/-- What is planned for a product or ratio, whose maps are given. -/
lemma step_contraction {own left right : IndexMap} (hkind : kind = .product ∨ kind = .ratio)
    (hcap : (l ++ r).length ≤ Index.capacity) (hdim : tree.dim = Int64.ofNat D)
    (houter : tree.outer.row i = outer) (hl : tree.outer.row (tree.children i).1.toNat = l)
    (hr : tree.outer.row (tree.children i).2.toNat = r)
    (hown : IndexMap.make (Index.unique (l ++ r)) outer (Int64.ofNat D) = .ok own)
    (hleft : IndexMap.make (Index.unique (l ++ r)) l (Int64.ofNat D) = .ok left)
    (hright : IndexMap.make (Index.unique (l ++ r)) r (Int64.ofNat D) = .ok right) :
    ∃ a b, step A tree i kind = .ok (if kind = .product then .multiply a b own left right
      else .divide a b own left right) := by
  have hconcat := Index.concat_eq_ok hcap
  refine ⟨(tree.offset (tree.children i).1.toNat).toInt64,
    (tree.offset (tree.children i).2.toNat).toInt64, ?_⟩
  unfold step
  rcases hkind with rfl | rfl
  · simp only [houter, hl, hr, hdim, hconcat, hown, hleft, hright, liftM_ok, ok_bind, pure_eq_ok]
  · simp only [houter, hl, hr, hdim, hconcat, hown, hleft, hright, liftM_ok, ok_bind, pure_eq_ok]

/-- A relabelling is planned with the maps of its labels and of its target. -/
lemma step_relabel {own left : IndexMap} (hdim : tree.dim = Int64.ofNat D)
    (houter : tree.outer.row i = outer) (htarget : tree.binding.row i = target)
    (hlength : (tree.outer.row (tree.children i).1.toNat).length = target.length)
    (hown : IndexMap.make (Index.unique target) outer (Int64.ofNat D) = .ok own)
    (hleft : IndexMap.make (Index.unique target) target (Int64.ofNat D) = .ok left) :
    ∃ a, step A tree i .bind = .ok (.relabel a own left) := by
  refine ⟨(tree.offset (tree.children i).1.toNat).toInt64, ?_⟩
  unfold step
  simp only [houter, htarget, hlength, hdim, hown, hleft, ne_eq, not_true_eq_false, if_false,
    liftM_ok, ok_bind, pure_eq_ok]

/-- Products and ratios contract every assignment once. -/
theorem contractsOnce (hD : 0 < D) (hD' : D < 2 ^ 63) (hl : l.Nodup) (hr : r.Nodup)
    (hcap : (l ++ r).length ≤ Index.capacity)
    (hsmall : D ^ (Index.unique (l ++ r)).length < 2 ^ 31) : ContractsOnce α D l r := by
  unfold ContractsOnce
  have hinnercap := (Index.length_unique_le (l ++ r)).trans hcap
  have houternodup := Index.nodup_symmetricDifference hl hr
  have hlinner : ∀ c ∈ l, c ∈ Index.unique (l ++ r) := fun c hc =>
    Index.mem_unique.2 (List.mem_append_left r hc)
  have hrinner : ∀ c ∈ r, c ∈ Index.unique (l ++ r) := fun c hc =>
    Index.mem_unique.2 (List.mem_append_right l hc)
  have houterinner : ∀ c ∈ Index.symmetricDifference l r, c ∈ Index.unique (l ++ r) := by
    intro c hc
    rcases Index.mem_symmetricDifference.1 hc with ⟨hc, -⟩ | ⟨hc, -⟩
    exacts [hlinner c hc, hrinner c hc]
  -- The three index maps start from the same labels, and only that these contain the others counts.
  generalize hinner : Index.unique (l ++ r) = inner at *
  generalize Index.symmetricDifference l r = outer at *
  obtain ⟨own, hown, hownf⟩ :=
    exists_follows_of_subset hD hD' hinnercap hsmall houternodup houterinner
  obtain ⟨left, hleft, hleftf⟩ := exists_follows_of_subset hD hD' hinnercap hsmall hl hlinner
  obtain ⟨right, hright, hrightf⟩ := exists_follows_of_subset hD hD' hinnercap hsmall hr hrinner
  have hle := (houternodup.subperm houterinner).length_le
  have hpow : D ^ outer.length ≤ D ^ inner.length := Nat.pow_le_pow_right hD hle
  have hsize := power_length D (hle.trans hinnercap)
  have hrounds : assignments [own, left, right] (Int64.ofNat (D ^ outer.length))
      = D ^ inner.length := by
    apply hownf.assignments (by omega) hpow
    intro m hm
    rcases List.mem_cons.1 hm with rfl | hm
    · exact ⟨_, hleftf⟩
    · obtain rfl : m = right := by simpa using hm
      exact ⟨_, hrightf⟩
  refine ⟨own, left, right, hown, hleft, hright, ?_, hsize ▸ hrounds, ?_⟩
  · intro A t i kind hkind hdim ho hol hor
    subst hinner
    exact step_contraction hkind hcap hdim ho hol hor hown hleft hright
  intro A op f W S v o a b hf hS ho ha hb
  obtain ⟨f', hrun, hf'⟩ := runContraction_shows (A := A) hf op hS ho (a := a) (b := b)
    (by omega) (by omega) hrounds
    (fun k hk => ⟨hownf.get k hk, reindex_lt hD hk⟩)
    (fun k hk => ⟨hleftf.get k hk, (Nat.add_lt_add_left (reindex_lt hD hk) a).trans_le ha⟩)
    (fun k hk => ⟨hrightf.get k hk, (Nat.add_lt_add_left (reindex_lt hD hk) b).trans_le hb⟩)
  refine ⟨f', hsize ▸ hrun, ?_⟩
  have hvalue : ∀ q lane, gather A (D ^ inner.length) (reindex D inner outer)
      (fun k => op (v (a + reindex D inner l k) lane) (v (b + reindex D inner r k) lane)) q
        = accumulated A D inner outer
          (fun σ => op (v (a + place D (l.map σ)) lane) (v (b + place D (r.map σ)) lane)) q :=
    fun q lane => gather_reindex hD inner outer
      (fun σ => op (v (a + place D (l.map σ)) lane) (v (b + place D (r.map σ)) lane)) q
  simpa only [hvalue] using hf'

/-- Relabellings sum every assignment once. -/
theorem relabelsOnce (hD : 0 < D) (hD' : D < 2 ^ 63) (hcap : target.length ≤ Index.capacity)
    (hsmall : D ^ target.length < 2 ^ 31) : RelabelsOnce α D target := by
  unfold RelabelsOnce
  generalize houter : Index.exclusive target = outer at *
  have hle : outer.length ≤ target.length := houter ▸ Index.length_exclusive_le target
  have hpow : D ^ outer.length ≤ D ^ target.length := Nat.pow_le_pow_right hD hle
  have hout : ∀ c ∈ outer, c ∈ Index.unique target :=
    fun c hc => Index.mem_unique.2 (Index.mem_of_mem_exclusive (houter ▸ hc))
  have htarget : ∀ c ∈ target, c ∈ Index.unique target := fun c hc => Index.mem_unique.2 hc
  obtain ⟨own, hown, hownf⟩ := IndexMap.make_follows hD hD' ((hle.trans hcap).trans_lt (by decide))
    (hpow.trans_lt hsmall) hout
  obtain ⟨left, hleft, hleftf⟩ := IndexMap.make_follows hD hD' (hcap.trans_lt (by decide)) hsmall
    htarget
  have hsize := power_length D (hle.trans hcap)
  have hrounds : assignments [own, left] (Int64.ofNat (D ^ outer.length))
      = D ^ (Index.unique target).length := by
    apply hownf.assignments (by omega)
    · apply Nat.pow_le_pow_right hD
      rw [(Index.unique_perm target).length_eq, List.length_append, houter]
      omega
    · intro m hm
      obtain rfl : m = left := by simpa using hm
      exact ⟨_, hleftf⟩
  refine ⟨own, left, hown, hleft, ?_, hsize ▸ hrounds, ?_⟩
  · exact fun A t i hdim ho htarget hlength => step_relabel hdim ho htarget hlength hown hleft
  intro A f W S v o a hf hS ho ha
  obtain ⟨f', hrun, hf'⟩ := runRelabel_shows (A := A) hf hS ho (a := a) (by omega) hrounds
    (fun k hk => ⟨hownf.get k hk, reindex_lt hD hk⟩)
    (fun k hk => ⟨hleftf.get k hk, (Nat.add_lt_add_left (reindex_lt hD hk) a).trans_le ha⟩)
  refine ⟨f', hsize ▸ hrun, ?_⟩
  have hvalue : ∀ q lane, gather A (D ^ (Index.unique target).length)
      (reindex D (Index.unique target) outer)
      (fun k => v (a + reindex D (Index.unique target) target k) lane) q
        = accumulated A D (Index.unique target) outer
          (fun σ => v (a + place D (target.map σ)) lane) q :=
    fun q lane => gather_reindex hD _ outer (fun σ => v (a + place D (target.map σ)) lane) q
  simpa only [hvalue] using hf'

end Loops

/-- Index maps are right, and they take every contraction over each assignment once. A map is missing
exactly when a label of the target is, and the fault names the first of these. -/
theorem index_maps_drive_contractions {D : Nat} (hD : 0 < D) (hD' : D < 2 ^ 63) :
    (∀ inner target : Index, target.length ≤ Index.capacity → D ^ target.length < 2 ^ 31 →
      (∀ f, IndexMap.make inner target (Int64.ofNat D) = .error f ↔
        ∃ pre c post, target = pre ++ c :: post ∧ (∀ x ∈ pre, x ∈ inner) ∧ c ∉ inner ∧
          f = .missingLabel c target inner) ∧
      ∀ m, IndexMap.make inner target (Int64.ofNat D) = .ok m → m.Tabulates D inner target) ∧
    (∀ count, (visits count D).Nodup ∧
      ∀ ds, ds ∈ visits count D ↔ ds.length = count ∧ ∀ d ∈ ds, d < D) ∧
    (∀ l r : Index, l.Nodup → r.Nodup → (l ++ r).length ≤ Index.capacity →
      D ^ (Index.unique (l ++ r)).length < 2 ^ 31 → ContractsOnce α D l r) ∧
    ∀ target : Index, target.length ≤ Index.capacity → D ^ target.length < 2 ^ 31 →
      RelabelsOnce α D target :=
  ⟨fun _ _ hlen hsmall => ⟨fun _ => IndexMap.make_error_iff hD hD',
      fun _ h => IndexMap.tabulates_of_make hD hD' hlen hsmall h⟩,
    fun count => ⟨nodup_visits hD count, fun _ => mem_visits hD⟩,
    fun _ _ hl hr hcap hsmall => contractsOnce hD hD' hl hr hcap hsmall,
    fun _ hcap hsmall => relabelsOnce hD hD' hcap hsmall⟩

/-- A matrix times a vector in three dimensions, the trace of a matrix, and a label that is missing. -/
theorem index_maps_drive_contractions_three :
    ContractsOnce Int 3 [105, 106] [106] ∧ RelabelsOnce Int 3 [105, 105] ∧
      IndexMap.make [105] [105, 106] (Int64.ofNat 3)
        = .error (.missingLabel 106 [105, 106] [105]) := by
  obtain ⟨hmaps, -, hcontract, hrelabel⟩ :=
    index_maps_drive_contractions (α := Int) (D := 3) (by decide) (by decide)
  refine ⟨hcontract _ _ (by decide) (by decide) (by decide) (by decide),
    hrelabel _ (by decide) (by decide), ?_⟩
  exact ((hmaps [105] [105, 106] (by decide) (by decide)).1 _).2
    ⟨[105], 106, [], rfl, fun _ h => h, by decide, rfl⟩

end Plan

end Indicial
