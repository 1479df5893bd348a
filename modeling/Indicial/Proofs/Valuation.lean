import Indicial.Proofs.Index
import Mathlib.Algebra.BigOperators.Group.Finset.Sigma
import Mathlib.Algebra.BigOperators.Ring.Finset

/-!
# Sums over labels

A valuation gives every label a number. `sumLabels` lets some labels run over all numbers below the
dimension and adds up what a function makes of the valuations. The order of the labels does not
matter (`sumLabels_perm`), sums over some labels and then over others join (`sumLabels_append`), and
the sum sees its valuation only outside the labels it runs over (`sumLabels_congr`).

`carry` is how a valuation passes through a relabelling: each label gets the number of its target.
`ofDigits` is the valuation of a row-major assignment.
-/

namespace Indicial

/-- A number for every label. -/
abbrev Valuation := Label → Nat

namespace Valuation

/-- The valuation of the operand of a relabelling: each label of `source` has the number of its
target. -/
def carry : (source target : Index) → Valuation → Valuation
  | c :: cs, d :: ds, ρ => Function.update (carry cs ds ρ) c (ρ d)
  | _, _, _ => fun _ => 0

/-- Under a relabelling by a function a label has the number of its image. -/
lemma carry_map {source : Index} (f : Label → Label) (ρ : Valuation) {c : Label}
    (hc : c ∈ source) : carry source (source.map f) ρ c = ρ (f c) := by
  induction source with
  | nil => simp at hc
  | cons d ds ih =>
    simp only [List.map_cons, carry, Function.update_apply]
    split
    · rename_i h
      rw [h]
    · rename_i h
      exact ih (by simpa [h] using hc)

/-! ### Digits -/

/-- The valuation that gives each label the digit at its first place. -/
def ofDigits (labels : Index) (ds : List Nat) : Valuation :=
  fun c => (ds[(Index.position? labels c).getD 0]?).getD 0

section Digits

variable {D : Nat} {labels : Index} {ds : List Nat}

/-- Digits below the dimension are numbers below it. -/
lemma ofDigits_lt (hD : 0 < D) (h : ∀ d ∈ ds, d < D) (c : Label) :
    ofDigits labels ds c < D := by
  rw [ofDigits]
  cases hget : ds[(Index.position? labels c).getD 0]? with
  | none => simpa using hD
  | some d => exact h d (List.mem_of_getElem? hget)

/-- Labels without repetition have the digits in order. -/
lemma map_ofDigits (hnodup : labels.Nodup) (hlen : ds.length = labels.length) :
    labels.map (ofDigits labels ds) = ds := by
  apply List.ext_getElem?
  intro i
  rw [List.getElem?_map]
  cases hi : labels[i]? with
  | none =>
    have hle := List.getElem?_eq_none_iff.1 hi
    rw [Option.map_none, List.getElem?_eq_none (by omega)]
  | some c =>
    have hlt := (List.getElem?_eq_some_iff.1 hi).1
    have hget : ds[i]? = some ds[i] := List.getElem?_eq_getElem (by omega)
    rw [Option.map_some, ofDigits, Index.position?_getElem hnodup hi, Option.getD_some,
      hget, Option.getD_some]

end Digits

/-! ### Sums -/

section Sum

variable {M : Type*} [AddCommMonoid M] {dim : Nat} {cs ds : Index} {ρ ρ' : Valuation}
  {f g : Valuation → M}

/-- The sum over all numbers of the labels. -/
def sumLabels (dim : Nat) : Index → Valuation → (Valuation → M) → M
  | [], ρ, f => f ρ
  | c :: cs, ρ, f => ∑ x ∈ Finset.range dim, sumLabels dim cs (Function.update ρ c x) f

/-- A sum over no labels is its term. -/
@[simp] lemma sumLabels_nil : sumLabels dim [] ρ f = f ρ := rfl

/-- A sum over labels is the sum over the first one of the sums over the others. -/
lemma sumLabels_cons (c : Label) :
    sumLabels dim (c :: cs) ρ f
      = ∑ x ∈ Finset.range dim, sumLabels dim cs (Function.update ρ c x) f := rfl

/-- Two sums agree, one over renamed labels, when their terms do wherever the labels have equal
numbers below the dimension and all other labels have their given numbers. -/
lemma sumLabels_congr_map {φ : Label → Label} (hφ : Set.InjOn φ {c | c ∈ cs})
    (h : ∀ σ σ' : Valuation, (∀ c ∈ cs, σ c = σ' (φ c) ∧ σ c < dim) →
      (∀ c, c ∉ cs → σ c = ρ c) → (∀ c, c ∉ cs.map φ → σ' c = ρ' c) → f σ = g σ') :
    sumLabels dim cs ρ f = sumLabels dim (cs.map φ) ρ' g := by
  induction cs generalizing ρ ρ' with
  | nil =>
    apply h ρ ρ'
    · simp
    · simp
    · simp
  | cons c cs ih =>
    apply Finset.sum_congr rfl
    intro x hx
    apply ih (hφ.mono fun d hd => List.mem_cons_of_mem c hd)
    intro σ σ' hin hout hout'
    apply h
    · intro d hd
      by_cases hcs : d ∈ cs
      · exact hin d hcs
      · obtain rfl : d = c := by simpa [hcs] using hd
        -- The renaming is injective, so the image of `d` is not summed over again.
        have himage : φ d ∉ cs.map φ := by
          intro hmem
          obtain ⟨e, he, heq⟩ := List.mem_map.1 hmem
          rw [hφ (List.mem_cons_of_mem d he) List.mem_cons_self heq] at he
          exact hcs he
        have h₁ := hout d hcs
        have h₂ := hout' (φ d) himage
        rw [Function.update_self] at h₁ h₂
        rw [h₁, h₂]
        exact ⟨rfl, Finset.mem_range.1 hx⟩
    · intro d hd
      obtain ⟨hne, hcs⟩ : d ≠ c ∧ d ∉ cs := by simpa using hd
      have h₁ := hout d hcs
      rwa [Function.update_of_ne hne] at h₁
    · intro d hd
      obtain ⟨hne, hcs⟩ : d ≠ φ c ∧ d ∉ cs.map φ := by simpa using hd
      have h₂ := hout' d hcs
      rwa [Function.update_of_ne hne] at h₂

/-- Two sums agree when their terms do, wherever the labels have equal numbers below the dimension
and all other labels have their given numbers. -/
lemma sumLabels_congr
    (h : ∀ σ σ' : Valuation, (∀ c ∈ cs, σ c = σ' c ∧ σ c < dim) →
      (∀ c, c ∉ cs → σ c = ρ c ∧ σ' c = ρ' c) → f σ = g σ') :
    sumLabels dim cs ρ f = sumLabels dim cs ρ' g := by
  have hmap : sumLabels dim cs ρ f = sumLabels dim (cs.map id) ρ' g := by
    apply sumLabels_congr_map (Set.injOn_id _)
    intro σ σ' hin hout hout'
    exact h σ σ' hin fun c hc => ⟨hout c hc, hout' c (by simpa using hc)⟩
  rwa [List.map_id] at hmap

/-- Terms that agree on every valuation in question have the same sum. -/
lemma sumLabels_congr_term
    (h : ∀ σ : Valuation, (∀ c ∈ cs, σ c < dim) → (∀ c, c ∉ cs → σ c = ρ c) → f σ = g σ) :
    sumLabels dim cs ρ f = sumLabels dim cs ρ g := by
  apply sumLabels_congr
  intro σ σ' hin hout
  have hσ : σ = σ' := by
    funext c
    by_cases hc : c ∈ cs
    · exact (hin c hc).1
    · rw [(hout c hc).1, (hout c hc).2]
  subst hσ
  exact h σ (fun c hc => (hin c hc).2) fun c hc => (hout c hc).1

/-- A sum over joined labels is a sum of sums. -/
lemma sumLabels_append :
    sumLabels dim (cs ++ ds) ρ f = sumLabels dim cs ρ fun σ => sumLabels dim ds σ f := by
  induction cs generalizing ρ with
  | nil => rfl
  | cons c cs ih =>
    apply Finset.sum_congr rfl
    intro x _
    exact ih

/-- The order of the labels does not matter. -/
lemma sumLabels_perm (h : cs.Perm ds) : sumLabels dim cs ρ f = sumLabels dim ds ρ f := by
  induction h generalizing ρ with
  | nil => rfl
  | cons c _ ih =>
    apply Finset.sum_congr rfl
    intro x _
    exact ih
  | swap c d cs =>
    by_cases hcd : c = d
    · rw [hcd]
    · simp only [sumLabels_cons]
      rw [Finset.sum_comm]
      apply Finset.sum_congr rfl
      intro x _
      apply Finset.sum_congr rfl
      intro y _
      rw [Function.update_comm hcd]
  | trans _ _ ih₁ ih₂ => rw [ih₁, ih₂]

/-- Terms can be added before or after they are summed. -/
lemma sumLabels_add :
    (sumLabels dim cs ρ fun σ => f σ + g σ) = sumLabels dim cs ρ f + sumLabels dim cs ρ g := by
  induction cs generalizing ρ with
  | nil => rfl
  | cons c cs ih =>
    simp only [sumLabels_cons, ih]
    exact Finset.sum_add_distrib

/-- A sum of zeros is zero. -/
@[simp] lemma sumLabels_zero : (sumLabels dim cs ρ fun _ => (0 : M)) = 0 := by
  induction cs generalizing ρ with
  | nil => rfl
  | cons c cs ih =>
    simp only [sumLabels_cons, ih]
    exact Finset.sum_const_zero

/-- Additive maps pass through sums. -/
lemma map_sumLabels {N : Type*} [AddCommMonoid N] (φ : M →+ N) :
    φ (sumLabels dim cs ρ f) = sumLabels dim cs ρ fun σ => φ (f σ) := by
  induction cs generalizing ρ with
  | nil => rfl
  | cons c cs ih =>
    simp only [sumLabels_cons, map_sum, ih]

end Sum

section Ring

variable {R : Type*} [Ring R] {dim : Nat} {cs : Index} {ρ : Valuation} {f g : Valuation → R}

/-- Terms can be negated before or after they are summed. -/
lemma sumLabels_neg : (sumLabels dim cs ρ fun σ => -f σ) = -sumLabels dim cs ρ f := by
  exact (map_sumLabels (-AddMonoidHom.id R)).symm

/-- Terms can be subtracted before or after they are summed. -/
lemma sumLabels_sub :
    (sumLabels dim cs ρ fun σ => f σ - g σ) = sumLabels dim cs ρ f - sumLabels dim cs ρ g := by
  simp only [sub_eq_add_neg]
  rw [sumLabels_add, sumLabels_neg]

/-- A factor goes under the sum. -/
lemma mul_sumLabels (a : R) :
    a * sumLabels dim cs ρ f = sumLabels dim cs ρ fun σ => a * f σ :=
  map_sumLabels (AddMonoidHom.mulLeft a)

end Ring

end Valuation

end Indicial
