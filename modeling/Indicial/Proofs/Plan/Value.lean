import Indicial.Proofs.Expr.Component
import Indicial.Proofs.Plan.Window

/-!
# Windows hold values

In the arithmetic of a field, where sums may be taken in any order, the window of an expression holds
its values: the number at the row-major position of an assignment of the free labels is the value of
the expression under that assignment (`window_eq_value`). A contraction runs over the assignments of
all its labels and adds each term to the slot of its free labels, which is the sum over the contracted
ones (`gather_eq_sumLabels`).
-/

namespace Indicial

open Odometer Indicial.Valuation

/-! ### Contractions as sums -/

namespace Valuation

section Pick

variable {M : Type*} [AddCommMonoid M] {D : Nat} {cs : Index} {ρ : Valuation} {ds : List Nat}

/-- Of a sum over the numbers of some labels, only the term with given numbers is left. -/
lemma sumLabels_pick (hnodup : cs.Nodup) (hlen : ds.length = cs.length) (hlt : ∀ d ∈ ds, d < D)
    (g : Valuation → M) :
    (sumLabels D cs ρ fun σ => if cs.map σ = ds then g σ else 0) = g (ρ.assign cs ds) := by
  -- One label after the other: of the numbers of the first label only the given one counts.
  induction cs generalizing ρ ds with
  | nil =>
    obtain rfl := List.length_eq_zero_iff.1 hlen
    rfl
  | cons c cs ih =>
    obtain ⟨hc, hcs⟩ := List.nodup_cons.1 hnodup
    cases ds with
    | nil => cases hlen
    | cons x ds =>
      have hterm : ∀ y, (sumLabels D cs (Function.update ρ c y)
            fun σ => if (c :: cs).map σ = x :: ds then g σ else 0)
          = if y = x then g (assign (Function.update ρ c y) cs ds) else 0 := by
        intro y
        split
        · rename_i hy
          rw [← ih hcs (by simpa using hlen) fun d hd => hlt d (by simp [hd])]
          apply sumLabels_congr_term
          intro σ _ hout
          have hσ : σ c = x := by rw [hout c hc, Function.update_self, hy]
          simp [hσ]
        · rename_i hy
          refine Eq.trans (b := sumLabels D cs (Function.update ρ c y) fun _ => 0) ?_ sumLabels_zero
          apply sumLabels_congr_term
          intro σ _ hout
          have hσ : σ c = y := by rw [hout c hc, Function.update_self]
          refine if_neg fun heq => ?_
          rw [List.map_cons, hσ] at heq
          exact hy (List.cons.inj heq).1
      rw [sumLabels_cons]
      simp only [hterm]
      rw [Finset.sum_ite_eq' (Finset.range D) x fun y => g (assign (Function.update ρ c y) cs ds),
        if_pos (Finset.mem_range.2 (hlt x (by simp))), assign]

/-- Labels that get the numbers they have. -/
lemma assign_map_self (hnodup : cs.Nodup) : ρ.assign cs (cs.map ρ) = ρ := by
  induction cs with
  | nil => rfl
  | cons c cs ih =>
    rw [List.map_cons, assign, Function.update_eq_self, ih (List.nodup_cons.1 hnodup).2]

end Pick

end Valuation

/-- The arithmetic of a field, with the powers and functions of an interpretation. -/
def Interpretation.arith {K : Type} [ExactNumbers K] (I : Interpretation K) : Arith K where
  ofInt n := n
  add := (· + ·)
  sub := (· - ·)
  mul := (· * ·)
  div := (· / ·)
  neg x := -x
  pow := I.power
  apply := I.apply

section Gather

variable {K : Type} [ExactNumbers K] {I : Interpretation K} {D : Nat}

/-- A gathered sum in a field is a sum over the terms at the place. -/
lemma gather_eq_sum (n : Nat) (own : Nat → Nat) (term : Nat → K) (q : Nat) :
    gather I.arith n own term q
      = ((List.range n).map fun k => if own k = q then term k else 0).sum := by
  induction n with
  | zero => exact Int.cast_zero
  | succ n ih =>
    rw [gather_succ, ih, List.range_succ, List.map_append, List.sum_append]
    by_cases h : own n = q
    · simp [h, Interpretation.arith]
    · simp [h]

/-- A contraction over all labels of a node is the sum over those that are not free in it. -/
theorem gather_eq_sumLabels (hD : 0 < D) {inner outer summed : Index} (hinner : inner.Nodup)
    (hperm : inner.Perm (outer ++ summed)) {σ : Valuation} (hσ : ∀ c ∈ outer, σ c < D)
    {f : Valuation → K} (hf : ∀ τ τ', (∀ c ∈ inner, τ c = τ' c) → f τ = f τ') :
    gather I.arith (D ^ inner.length) (reindex D inner outer)
        (fun k => f (ofDigits inner (digits D inner.length k))) (place D (outer.map σ))
      = sumLabels D summed σ f := by
  have hnodup : (outer ++ summed).Nodup := hperm.nodup_iff.1 hinner
  have houter : outer.Nodup := (List.nodup_append.1 hnodup).1
  have hdisjoint : ∀ c ∈ outer, c ∉ summed := fun c hc hs =>
    (List.nodup_append.1 hnodup).2.2 c hc c hs rfl
  have hsub : ∀ c ∈ outer, c ∈ inner := fun c hc => hperm.mem_iff.2 (List.mem_append_left _ hc)
  have hplace : ∀ τ : Valuation, (∀ c ∈ outer, τ c < D) →
      (place D (outer.map τ) = place D (outer.map σ) ↔ outer.map τ = outer.map σ) := by
    intro τ hτ
    refine ⟨fun heq => ?_, fun heq => by rw [heq]⟩
    rw [← digits_place_map hτ, heq, digits_place_map hσ]
  -- Every assignment of the inner labels is a row of the sum over them.
  have hall : gather I.arith (D ^ inner.length) (reindex D inner outer)
        (fun k => f (ofDigits inner (digits D inner.length k))) (place D (outer.map σ))
      = sumLabels D inner σ fun τ =>
        if place D (outer.map τ) = place D (outer.map σ) then f τ else 0 := by
    rw [gather_eq_sum, sumLabels_eq_visits hD, visits_eq_map hD, List.map_map]
    congr 1
    apply List.map_congr_left
    intro k hk
    have hassign : ∀ c ∈ inner, ofDigits inner (digits D inner.length k) c
        = assign σ inner (digits D inner.length k) c := fun c hc =>
      (assign_eq_ofDigits hinner (length_digits ..) hc).symm
    have hmap : outer.map (ofDigits inner (digits D inner.length k))
        = outer.map (assign σ inner (digits D inner.length k)) :=
      List.map_congr_left fun c hc => hassign c (hsub c hc)
    rw [Function.comp, reindex, hmap, hf _ _ hassign]
  have hfree : ∀ τ : Valuation, (∀ c ∈ outer, τ c < D) →
      (sumLabels D summed τ fun τ' =>
          if place D (outer.map τ') = place D (outer.map σ) then f τ' else 0)
        = if outer.map τ = outer.map σ then sumLabels D summed τ f else 0 := by
    intro τ hτ
    have hrow : ∀ τ' : Valuation, (∀ c, c ∉ summed → τ' c = τ c) →
        outer.map τ' = outer.map τ := fun τ' hout =>
      List.map_congr_left fun c hc => hout c (hdisjoint c hc)
    split
    · rename_i heq
      apply sumLabels_congr_term
      intro τ' _ hout
      rw [if_pos (by rw [hrow τ' hout, heq])]
    · rename_i hne
      refine Eq.trans (b := sumLabels D summed τ fun _ => 0) ?_ sumLabels_zero
      apply sumLabels_congr_term
      intro τ' _ hout
      rw [if_neg (by rwa [hrow τ' hout, hplace τ hτ])]
  calc gather I.arith (D ^ inner.length) (reindex D inner outer)
        (fun k => f (ofDigits inner (digits D inner.length k))) (place D (outer.map σ))
    _ = sumLabels D (outer ++ summed) σ fun τ =>
          if place D (outer.map τ) = place D (outer.map σ) then f τ else 0 := by
        rw [hall, sumLabels_perm hperm]
    _ = sumLabels D outer σ fun τ =>
          if outer.map τ = outer.map σ then sumLabels D summed τ f else 0 := by
        rw [sumLabels_append]
        exact sumLabels_congr_term fun τ hτ _ => hfree τ hτ
    _ = sumLabels D summed σ f := by
        have hlt : ∀ d ∈ outer.map σ, d < D := List.forall_mem_map.2 hσ
        rw [sumLabels_pick houter (List.length_map _) hlt fun τ => sumLabels D summed τ f,
          assign_map_self houter]

end Gather

/-! ### The window of an expression -/

namespace Expr

section Window

variable {K : Type} [ExactNumbers K] {I : Interpretation K} {D : Nat} {w : Lowering K} {l r n : Expr}

/-- A leaf: its window sums over the labels that repeat. -/
lemma gather_leaf (hD : 0 < D) {labels : Index} {σ : Valuation}
    (hσ : ∀ c ∈ Index.exclusive labels, σ c < D) (g : List Nat → K) :
    gather I.arith (D ^ (Index.unique labels).length)
        (reindex D (Index.unique labels) (Index.exclusive labels))
        (fun k => g (labels.map (ofDigits (Index.unique labels)
          (digits D (Index.unique labels).length k)))) (place D ((Index.exclusive labels).map σ))
      = sumLabels D (Index.repeated labels) σ fun τ => g (labels.map τ) := by
  refine gather_eq_sumLabels hD (Index.nodup_unique labels) (Index.unique_perm labels) hσ
    (f := fun τ => g (labels.map τ)) ?_
  intro τ τ' h
  have hmap : labels.map τ = labels.map τ' :=
    List.map_congr_left fun c hc => h c (Index.mem_unique.2 hc)
  rw [hmap]

/-- A product or ratio: its window sums over the labels that its operands share. -/
lemma gather_contraction (hD : 0 < D) (hl : l.WellFormed) (hr : r.WellFormed) {σ : Valuation}
    (hσ : ∀ c ∈ Index.symmetricDifference l.outer r.outer, σ c < D) (op : K → K → K)
    {x y : Nat → K}
    (hx : ∀ τ : Valuation, (∀ c ∈ l.outer, τ c < D) →
      x (place D (l.outer.map τ)) = l.value I D τ)
    (hy : ∀ τ : Valuation, (∀ c ∈ r.outer, τ c < D) →
      y (place D (r.outer.map τ)) = r.value I D τ) :
    gather I.arith (D ^ (Index.unique (l.outer ++ r.outer)).length)
        (reindex D (Index.unique (l.outer ++ r.outer)) (Index.symmetricDifference l.outer r.outer))
        (fun k => op (x (reindex D (Index.unique (l.outer ++ r.outer)) l.outer k))
          (y (reindex D (Index.unique (l.outer ++ r.outer)) r.outer k)))
        (place D ((Index.symmetricDifference l.outer r.outer).map σ))
      = sumLabels D (Index.intersect l.outer r.outer) σ fun τ =>
        op (l.value I D τ) (r.value I D τ) := by
  have hperm := Index.unique_append_perm hl.nodup_outer hr.nodup_outer
  rw [← gather_eq_sumLabels (I := I) hD (Index.nodup_unique _) hperm hσ
    (f := fun τ => op (l.value I D τ) (r.value I D τ))]
  · apply gather_congr (fun _ _ => rfl)
    intro k hk
    rw [reindex, reindex, hx _ fun c _ => ofDigits_lt hD (digits_lt hk) c,
      hy _ fun c _ => ofDigits_lt hD (digits_lt hk) c]
  · intro τ τ' h
    rw [value_congr hl fun c hc => h c (Index.mem_unique.2 (List.mem_append_left _ hc)),
      value_congr hr fun c hc => h c (Index.mem_unique.2 (List.mem_append_right _ hc))]

/-- A relabelling: its window sums over the labels that it repeats. -/
lemma gather_bind (hD : 0 < D) (hn : n.WellFormed) (f : Label → Label) {σ : Valuation}
    (hσ : ∀ c ∈ Index.exclusive (n.outer.map f), σ c < D) {x : Nat → K}
    (hx : ∀ τ : Valuation, (∀ c ∈ n.outer, τ c < D) →
      x (place D (n.outer.map τ)) = n.value I D τ) :
    gather I.arith (D ^ (Index.unique (n.outer.map f)).length)
        (reindex D (Index.unique (n.outer.map f)) (Index.exclusive (n.outer.map f)))
        (fun k => x (reindex D (Index.unique (n.outer.map f)) (n.outer.map f) k))
        (place D ((Index.exclusive (n.outer.map f)).map σ))
      = (bind n (n.outer.map f)).value I D σ := by
  rw [value_bind_map hn, ← gather_eq_sumLabels (I := I) hD (Index.nodup_unique _)
    (Index.unique_perm _) hσ (f := fun τ => n.value I D (τ ∘ f))]
  · apply gather_congr (fun _ _ => rfl)
    intro k hk
    rw [reindex, List.map_map]
    exact hx _ fun c _ => ofDigits_lt hD (digits_lt hk) (f c)
  · intro τ τ' h
    apply value_congr hn
    intro c hc
    exact h (f c) (Index.mem_unique.2 (List.mem_map_of_mem hc))

/-- The window of an expression holds its value at the position of every assignment. -/
theorem window_eq_value (hD : 0 < D) (hvalue : w.value = I.literal)
    (hreads : I.ReadsScalars w.constant) (hn : n.WellFormed) (hmark : n.hasDerivative = false)
    {σ : Valuation} (hσ : ∀ c ∈ n.outer, σ c < D) :
    n.window I.arith D w I.ref (place D (n.outer.map σ)) = n.value I D σ := by
  have hzero : ∀ {e : Expr} (τ : Valuation), e.outer = [] → place D (e.outer.map τ) = 0 := by
    intro e τ he
    rw [he]
    rfl
  -- The assignment is general: a contraction reads the windows of its factors at every assignment
  -- of their labels.
  induction n generalizing σ with
  | literal x labels => rw [window, hvalue, value]
  | scalar ref =>
    rw [window, gather_eq_sum]
    simp [place, outer, value]
  | tensor symbol labels =>
    simp only [window, ← hreads symbol, value]
    exact gather_leaf hD hσ (I.leaf symbol)
  | delta labels =>
    have hsymbol : ∀ τ : Valuation, (I.arith.ofInt (Plan.symbolValue .delta (labels.map τ)))
        = (kronecker (labels.map τ) : K) := by
      intro τ
      obtain ⟨a, b, rfl⟩ := List.length_eq_two.1 hn
      simp [Interpretation.arith, Plan.symbolValue, kronecker]
    simp only [window, hsymbol, value]
    exact gather_leaf hD hσ fun xs => (kronecker xs : K)
  | epsilon labels =>
    have hsymbol : ∀ xs : List Nat, I.arith.ofInt (Plan.symbolValue .epsilon xs)
        = (leviCivita xs : K) := fun _ => rfl
    simp only [window, hsymbol, value]
    exact gather_leaf hD hσ fun xs => (leviCivita xs : K)
  | negate e ih =>
    rw [window, value, ← ih hn hmark hσ]
    rfl
  | apply f e ih =>
    rw [window, value, ← ih hn.1 hmark (by simp [hn.2]), hzero σ hn.2]
    rfl
  | bind e target ih =>
    obtain ⟨f, rfl⟩ := exists_relabelling hn.1.nodup_outer hn.2
    exact gather_bind hD hn.1 f hσ fun τ hτ => ih hn.1 hmark hτ
  | derivative e along => cases hmark
  | sum l r ihl ihr =>
    obtain ⟨hl, hr, hperm⟩ := hn
    obtain ⟨hlmark, hrmark⟩ := Bool.or_eq_false_iff.1 hmark
    rw [window, value, ← ihl hl hlmark hσ, ← ihr hr hrmark fun c hc => hσ c (hperm.mem_iff.2 hc)]
    rw [outer, reindex_place hl.nodup_outer hσ fun c hc => hperm.mem_iff.2 hc]
    rfl
  | difference l r ihl ihr =>
    obtain ⟨hl, hr, hperm⟩ := hn
    obtain ⟨hlmark, hrmark⟩ := Bool.or_eq_false_iff.1 hmark
    rw [window, value, ← ihl hl hlmark hσ, ← ihr hr hrmark fun c hc => hσ c (hperm.mem_iff.2 hc)]
    rw [outer, reindex_place hl.nodup_outer hσ fun c hc => hperm.mem_iff.2 hc]
    rfl
  | product l r ihl ihr =>
    obtain ⟨hlmark, hrmark⟩ := Bool.or_eq_false_iff.1 hmark
    exact gather_contraction hD hn.1 hn.2.1 hσ (· * ·) (fun τ hτ => ihl hn.1 hlmark hτ)
      fun τ hτ => ihr hn.2.1 hrmark hτ
  | ratio l r ihl ihr =>
    obtain ⟨hlmark, hrmark⟩ := Bool.or_eq_false_iff.1 hmark
    exact gather_contraction hD hn.1 hn.2.1 hσ (· / ·) (fun τ hτ => ihl hn.1 hlmark hτ)
      fun τ hτ => ihr hn.2.1 hrmark hτ
  | power l r ihl ihr =>
    obtain ⟨hl, hr, hlrank, hrrank⟩ := hn
    obtain ⟨hlmark, hrmark⟩ := Bool.or_eq_false_iff.1 hmark
    rw [window, value, ← ihl hl hlmark (by simp [hlrank]), ← ihr hr hrmark (by simp [hrrank]),
      hzero σ hlrank, hzero σ hrrank]
    rfl

end Window

end Expr

end Indicial
