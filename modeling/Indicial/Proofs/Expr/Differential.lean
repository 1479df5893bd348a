import Indicial.Proofs.Expr.Expand
import Indicial.Proofs.Tensor
import Mathlib.Algebra.DualNumber
import Mathlib.FieldTheory.RatFunc.AsPolynomial

/-!
# Readings in differential fields

A differential reading gives scalar references numbers of a field with derivations: references to
constants are killed by every derivation, and one more direction at a reference to an unknown is one
more derivation. Tensor expressions are then read component by component, with a mark for a
derivative standing for the derivations along its labels in turn.

The main statement, `expand_differentiates`, says that expanding marks is differentiation.
-/

namespace Indicial

/-- The reference with one more direction. -/
def ScalarRef.along (r : ScalarRef) (x : Nat) : ScalarRef :=
  { r with derivs := Coord.sorted ⟨r.derivs.values ++ [x.toUInt8]⟩ }

/-- Numbers of a field with derivations for scalar references, with the powers and functions of
calculus. Only the functions in `F` have to obey their identities. -/
structure DifferentialReading (K : Type*) [Field K] (dim : Nat) (F : Func → Bool) where
  derivation : Fin dim → Derivation ℤ K K
  ref : ScalarRef → K
  power : K → K → K
  apply : Func → K → K
  ref_constant : ∀ r x, r.constant = true → derivation x (ref r) = 0
  ref_along : ∀ r x, r.constant = false → r.derivs.sorted = r.derivs →
    r.derivs.size < Coord.capacity → ref (r.along x) = derivation x (ref r)
  power_int : ∀ a (z : ℤ), power a z = a ^ z
  companion : ∀ f, F f = true → F f.companion = true
  apply_slope : ∀ f x a, F f = true → derivation x (apply f a) = f.slope apply a * derivation x a

namespace DifferentialReading

variable {K : Type*} [Field K] {dim : Nat} {F : Func → Bool}

/-- The derivation along a direction, zero beyond the dimension. -/
def along (R : DifferentialReading K dim F) (x : Nat) : Derivation ℤ K K :=
  if h : x < dim then R.derivation ⟨x, h⟩ else 0

/-- The interpretation of tensor expressions. A component or direction beyond the dimension, which no
sum over labels reaches, counts as zero. -/
def interpretation (R : DifferentialReading K dim F) (constant : Expr.Constancy) :
    Interpretation K where
  leaf symbol values :=
    if values.all (· < dim) then R.ref (.ofValues symbol values (constant symbol)) else 0
  ref := R.ref
  float _ := 0
  power := R.power
  apply := R.apply
  derive x := R.along x

/-- One more number at the end of a leaf is one more direction. -/
lemma ofValues_append {symbol : Tensor} {values : List Nat} {constant : Bool}
    (h : symbol.order ≤ values.length) (x : Nat) :
    ScalarRef.ofValues symbol (values ++ [x]) constant
      = (ScalarRef.ofValues symbol values constant).along x := by
  have htake : (values ++ [x]).take symbol.order = values.take symbol.order :=
    List.take_append_of_le_length h
  have hdrop : (values ++ [x]).drop symbol.order = values.drop symbol.order ++ [x] :=
    List.drop_append_of_le_length h
  simp only [ScalarRef.ofValues, ScalarRef.along, htake, hdrop, List.map_append, List.map_singleton]
  congr 1
  apply Coord.sorted_eq_of_perm
  exact (Coord.sorted_perm ⟨_⟩).symm.append_right _

/-- A differential reading is a calculus. -/
lemma calculus (R : DifferentialReading K dim F) (constant : Expr.Constancy) :
    (R.interpretation constant).Calculus constant F R.along where
  derive_eq _ _ := rfl
  leaf_constant symbol values x hc := by
    simp only [interpretation, along]
    split
    · split
      · exact R.ref_constant _ _ hc
      · exact map_zero _
    · rfl
  leaf_unknown symbol values x hc horder hlen := by
    simp only [interpretation, along, List.all_append, List.all_cons, List.all_nil, Bool.and_true]
    rw [ofValues_append horder]
    by_cases hx : x < dim
    · rw [dif_pos hx]
      by_cases hv : values.all (· < dim) = true
      · rw [if_pos (by simp [hv, hx]), if_pos hv]
        refine R.ref_along _ ⟨x, hx⟩ hc ?_ ?_
        · exact Coord.sorted_sorted _
        · simp only [ScalarRef.ofValues, Coord.sorted, Coord.size, List.length_mergeSort,
            List.length_map, List.length_drop]
          exact Nat.lt_of_le_of_lt (Nat.sub_le _ _) hlen
      · rw [if_neg (by simp [hv]), if_neg hv, map_zero]
    · rw [dif_neg hx, if_neg (by simp [hx])]
      rfl
  power_int := R.power_int
  companion := R.companion
  apply_slope f x a hf := by
    simp only [interpretation, along]
    split
    · exact R.apply_slope f _ a hf
    · simp

end DifferentialReading

namespace Expr

/-- Expanding marks is differentiation: the result has no marks, the same free labels up to order and,
for all numbers of the free labels, the value that the expression has when each mark is read as the
derivations along its labels in turn, with labels that occur twice summed over. The derivations need
not commute. -/
theorem expand_differentiates {K : Type*} [Field K] [CharZero K] {dim : Nat} {F : Func → Bool}
    (R : DifferentialReading K dim F) {constant : Constancy} {e e' : Expr} (he : Built e)
    (hcalc : e.calculable F = true) (h : expand constant e = .ok e') :
    e'.hasDerivative = false ∧ e'.outer.Perm e.outer ∧
      ∀ ρ, value (R.interpretation constant) dim e' ρ
        = value (R.interpretation constant) dim e ρ := by
  have hagree : Agrees (R.interpretation constant) dim e' e :=
    (expand_agrees (R.calculus constant) he.wellFormed hcalc h).2
  exact ⟨(expand_wellFormed he.wellFormed h).2, hagree.outer_perm, hagree.value_eq⟩

end Expr

/-! ### Rational functions -/

noncomputable section

open Polynomial TrivSqZeroExt

/-- The coefficient of an infinitesimal `ε`, when each number is moved by a multiple of `ε`. -/
def derivationOfTangent {K : Type*} [Field K] (f : K →+* DualNumber K) (h : ∀ a, fst (f a) = a) :
    Derivation ℤ K K :=
  .mk' ((sndHom K K).toAddMonoidHom.comp f.toAddMonoidHom).toIntLinearMap
    fun a b => by simp [h, mul_comm]

/-- The second derivative of the square of a variable. -/
lemma derivation_derivation_mul_self {K : Type*} [Field K] {d : Derivation ℤ K K} {x : K}
    (hx : d x = 1) : d (d (x * x)) = 2 := by
  rw [Derivation.leibniz, hx, smul_eq_mul, mul_one, map_add, hx]
  norm_num

/-- Polynomials at `X + ε`. -/
def shift : ℚ[X] →+* DualNumber (RatFunc ℚ) :=
  eval₂RingHom (algebraMap ℚ _) (inl RatFunc.X + inr 1)

/-- The real part of a shifted polynomial is the polynomial. -/
lemma fst_shift (p : ℚ[X]) : fst (shift p) = algebraMap ℚ[X] (RatFunc ℚ) p := by
  have hcomp : (fstHom ℚ (RatFunc ℚ) (RatFunc ℚ)).toRingHom.comp shift
      = algebraMap ℚ[X] (RatFunc ℚ) := by
    apply Polynomial.ringHom_ext
    · intro a
      simp [shift]
    · simp [shift]
  exact congrArg (fun f => f p) hcomp

/-- Shifted polynomials other than zero are units. -/
lemma isUnit_shift (p : nonZeroDivisors ℚ[X]) : IsUnit (shift p) := by
  rw [isUnit_iff_isUnit_fst, fst_shift]
  exact IsLocalization.map_units (RatFunc ℚ) p

/-- Rational functions at `X + ε`. -/
def tangent : RatFunc ℚ →+* DualNumber (RatFunc ℚ) := IsLocalization.lift isUnit_shift

/-- On polynomials, tangents are shifts. -/
lemma tangent_algebraMap (p : ℚ[X]) : tangent (algebraMap ℚ[X] (RatFunc ℚ) p) = shift p :=
  IsLocalization.lift_eq isUnit_shift p

/-- The real part of a tangent is the function. -/
lemma fst_tangent (a : RatFunc ℚ) : fst (tangent a) = a := by
  have hcomp : (fstHom ℚ (RatFunc ℚ) (RatFunc ℚ)).toRingHom.comp tangent = RingHom.id _ := by
    apply IsLocalization.ringHom_ext (nonZeroDivisors ℚ[X])
    apply RingHom.ext
    intro p
    exact (congrArg fst (tangent_algebraMap p)).trans (fst_shift p)
  exact congrArg (fun f => f a) hcomp

/-- The derivative of rational functions. -/
def rationalDerivation := derivationOfTangent tangent fst_tangent

/-- The derivation sends the variable to one. -/
lemma rationalDerivation_X : rationalDerivation RatFunc.X = 1 := by
  show snd (tangent RatFunc.X) = 1
  rw [← RatFunc.algebraMap_X, tangent_algebraMap]
  simp [shift]

/-- In one dimension every unknown is the identity function, and its derivatives are those of the
identity. -/
def rationalReading : DifferentialReading (RatFunc ℚ) 1 fun _ => false where
  derivation _ := rationalDerivation
  ref r := if r.constant then 0 else rationalDerivation^[r.derivs.size] RatFunc.X
  power a b := a ^ Function.invFun (Int.cast : ℤ → RatFunc ℚ) b
  apply _ a := a
  ref_constant r _ hr := by simp [hr]
  ref_along r x hr _ _ := by
    have hsize : (r.along x).derivs.size = r.derivs.size + 1 := by
      simp [ScalarRef.along, Coord.sorted, Coord.size, List.length_mergeSort]
    have hconstant : (r.along x).constant = false := hr
    rw [hconstant, hr, hsize]
    exact Function.iterate_succ_apply' _ _ _
  power_int a z := by rw [Function.leftInverse_invFun Int.cast_injective z]
  companion _ h := h
  apply_slope _ _ _ h := by cases h

namespace Expr

/-- The mark `∂_i ∂_i (v_i * v_i)`, whose directions are a label that the product sums over. -/
def laplacianOfSquare : Expr :=
  let v := tensor ⟨Bytes.ofString "v", 1, 0⟩ [105]
  derivative (product v v) [105, 105]

/-- The second derivative of the square of `X` is two. -/
theorem expand_differentiates_laplacianOfSquare :
    Built laplacianOfSquare ∧ laplacianOfSquare.calculable (fun _ => false) = true ∧
      ∃ e', expand (fun _ => false) laplacianOfSquare = .ok e' ∧ e'.hasDerivative = false ∧
        ∀ ρ, value (rationalReading.interpretation fun _ => false) 1 e' ρ = 2 := by
  have hbuilt : Built laplacianOfSquare := by
    apply WellFormed.built
    simp [laplacianOfSquare, WellFormed, outer, kind, Index.capacity, Index.exclusive,
      Index.symmetricDifference, Index.minus]
  have hvalue : ∀ ρ,
      value (rationalReading.interpretation fun _ => false) 1 laplacianOfSquare ρ = 2 := by
    intro ρ
    have hleaf : (rationalReading.interpretation fun _ => false).leaf ⟨Bytes.ofString "v", 1, 0⟩ [0]
        = RatFunc.X := by
      simp [DifferentialReading.interpretation, rationalReading, ScalarRef.ofValues, Coord.size,
        Coord.sorted]
    have hderive : ∀ a, (rationalReading.interpretation fun _ => false).derive 0 a
        = rationalDerivation a := fun a => rfl
    have hfree : Index.exclusive [105] = [105] := by decide
    have hleft : Index.repeated [105] = [] := by decide
    have hshared : Index.intersect [105] [105] = [105] := by decide
    have hsummed : Index.repeated (Index.symmetricDifference [105] [105] ++ [105, 105]) = [105] := by
      decide
    simp only [laplacianOfSquare, value, outer, hfree, hleft, hshared, hsummed,
      Valuation.sumLabels_cons, Valuation.sumLabels_nil, Finset.range_one, Finset.sum_singleton,
      List.map_cons, List.map_nil, Function.update_self, List.foldl_cons, List.foldl_nil, hleaf,
      hderive]
    exact derivation_derivation_mul_self rationalDerivation_X
  refine ⟨hbuilt, by decide +kernel, ?_⟩
  cases h : expand (fun _ => false) laplacianOfSquare with
  | error f =>
    have hok : (expand (fun _ => false) laplacianOfSquare).isOk = true := by decide +kernel
    rw [h] at hok
    cases hok
  | ok e' =>
    obtain ⟨hmark, -, hsame⟩ :=
      expand_differentiates rationalReading hbuilt (by decide +kernel) h
    exact ⟨e', rfl, hmark, fun ρ => (hsame ρ).trans (hvalue ρ)⟩

end Expr

end

end Indicial
