import Indicial.Odometer
import Indicial.Proofs.Expr.WellFormed
import Indicial.Proofs.Valuation
import Mathlib.Algebra.Field.Rat
import Mathlib.Data.Rat.Cast.CharZero

/-!
# The value of an expression

An interpretation gives numbers of a field to the leaves of expressions, and says what powers,
functions and derivatives are. `Expr.value` is then the number that an expression has when its free
labels have numbers: a node that sums over labels adds up its terms within its own scope, a
relabelling passes the numbers of its targets on to its operand, and a mark stands for the
derivatives along its labels in turn.

A value depends on the free labels alone (`value_congr`). Two expressions agree when they have the
same free labels up to order and the same values; agreeing operands make agreeing nodes.
-/

namespace Indicial

/-- Exact numbers: a field of characteristic zero. -/
class ExactNumbers (K : Type*) extends Field K, CharZero K

/-- Rational numbers are exact. -/
instance : ExactNumbers ℚ where

/-- The numbers that the leaves of expressions stand for, and the operations that fields lack. -/
structure Interpretation (K : Type*) where
  /-- A tensor, when its labels have these numbers. -/
  leaf : Tensor → List Nat → K
  /-- A scalar unknown. -/
  ref : ScalarRef → K
  /-- A floating-point literal. -/
  float : Binary64 → K
  power : K → K → K
  apply : Func → K → K
  /-- The derivative along a direction. -/
  derive : Nat → K → K

namespace Interpretation

variable {K : Type*} [Field K]

/-- The number of a literal. -/
def literal (I : Interpretation K) : Literal → K
  | .exact q => q
  | .float x => I.float x

/-- Powers are one and the base for the exponents zero and one, and they agree with the powers of
exact literals. -/
structure ExactPowers (I : Interpretation K) : Prop where
  power_zero : ∀ x, I.power x 0 = 1
  power_one : ∀ x, I.power x 1 = x
  power_exact : ∀ p q r : Rat, Literal.pow (.exact p) (.exact q) = .ok (.exact r) →
    I.power p q = r

end Interpretation

/-- The scalar that a leaf reads when its labels have these numbers: the first ones pick the
component, the others are directions of derivatives. -/
def ScalarRef.ofValues (symbol : Tensor) (values : List Nat) (constant : Bool) : ScalarRef where
  tensor := symbol
  component := ⟨(values.take symbol.order).map Nat.toUInt8⟩
  derivs := Coord.sorted ⟨(values.drop symbol.order).map Nat.toUInt8⟩
  constant := constant

/-- An interpretation reads tensors scalar by scalar. -/
def Interpretation.ReadsScalars {K : Type*} (I : Interpretation K) (constant : Tensor → Bool) :
    Prop :=
  ∀ symbol values, I.leaf symbol values = I.ref (.ofValues symbol values (constant symbol))

/-- The Kronecker delta of two numbers. -/
def kronecker : List Nat → Int
  | [x, y] => if x = y then 1 else 0
  | _ => 0

/-- The Levi-Civita symbol of some numbers. -/
def leviCivita (xs : List Nat) : Int := Odometer.permutationSign (xs.map Int.ofNat)

namespace Expr

open Indicial.Valuation

section Value

variable {K : Type*} [Field K] (I : Interpretation K) (dim : Nat)

/-- The value of an expression when its free labels have numbers. -/
def value : Expr → Valuation → K
  | literal x _, _ => I.literal x
  | tensor symbol labels, ρ =>
    sumLabels dim (Index.repeated labels) ρ fun σ => I.leaf symbol (labels.map σ)
  | delta labels, ρ =>
    sumLabels dim (Index.repeated labels) ρ fun σ => (kronecker (labels.map σ) : K)
  | epsilon labels, ρ =>
    sumLabels dim (Index.repeated labels) ρ fun σ => (leviCivita (labels.map σ) : K)
  | scalar ref, _ => I.ref ref
  | negate e, ρ => -value e ρ
  | apply f e, ρ => I.apply f (value e ρ)
  | bind e target, ρ =>
    sumLabels dim (Index.repeated target) ρ fun σ => value e (carry e.outer target σ)
  | derivative e along, ρ =>
    sumLabels dim (Index.repeated (e.outer ++ along)) ρ fun σ =>
      along.foldl (fun x c => I.derive (σ c) x) (value e σ)
  | sum l r, ρ => value l ρ + value r ρ
  | difference l r, ρ => value l ρ - value r ρ
  | product l r, ρ =>
    sumLabels dim (Index.intersect l.outer r.outer) ρ fun σ => value l σ * value r σ
  | ratio l r, ρ =>
    sumLabels dim (Index.intersect l.outer r.outer) ρ fun σ => value l σ / value r σ
  | power base exponent, ρ => I.power (value base ρ) (value exponent ρ)

end Value

section Congruence

variable {K : Type*} [Field K] {I : Interpretation K} {dim : Nat} {ρ ρ' : Valuation}

/-- The value of a negation. -/
lemma value_negate (e : Expr) : value I dim (negate e) ρ = -value I dim e ρ := rfl

/-- The value of a sum. -/
lemma value_sum (l r : Expr) :
    value I dim (sum l r) ρ = value I dim l ρ + value I dim r ρ := rfl

/-- The value of a difference. -/
lemma value_difference (l r : Expr) :
    value I dim (difference l r) ρ = value I dim l ρ - value I dim r ρ := rfl

/-- The value of a function. -/
lemma value_apply (f : Func) (e : Expr) :
    value I dim (apply f e) ρ = I.apply f (value I dim e ρ) := rfl

/-- A factor of rank zero multiplies the value. -/
lemma value_product_of_rank_zero {l r : Expr} (hl : l.outer = []) :
    value I dim (product l r) ρ = value I dim l ρ * value I dim r ρ := by
  rw [value, hl, Index.nil_intersect, sumLabels_nil]

/-- A leaf sees only its labels, and it sums over those that repeat. -/
lemma sumLabels_repeated_congr {M : Type*} [AddCommMonoid M] {labels : Index}
    {g : List Nat → M} (h : ∀ c ∈ Index.exclusive labels, ρ c = ρ' c) :
    (sumLabels dim (Index.repeated labels) ρ fun σ => g (labels.map σ))
      = sumLabels dim (Index.repeated labels) ρ' fun σ => g (labels.map σ) := by
  apply sumLabels_congr
  intro σ σ' hin hout
  congr 1
  apply List.map_congr_left
  intro c hc
  by_cases hrep : c ∈ Index.repeated labels
  · exact (hin c hrep).1
  · obtain ⟨hσ, hσ'⟩ := hout c hrep
    have hexc : c ∈ Index.exclusive labels := by
      rw [Index.mem_repeated] at hrep
      rw [Index.mem_exclusive]
      have := List.count_pos_iff.2 hc
      omega
    rw [hσ, hσ', h c hexc]

/-- The operands of a product or ratio see its free labels and those that it sums over. -/
lemma sumLabels_intersect_congr {M : Type*} [AddCommMonoid M] {a b : Index}
    {f g : Valuation → M}
    (h : ∀ c ∈ Index.symmetricDifference a b, ρ c = ρ' c)
    (hf : ∀ σ σ' : Valuation, (∀ c ∈ a, σ c = σ' c) → (∀ c ∈ b, σ c = σ' c) → f σ = g σ') :
    sumLabels dim (Index.intersect a b) ρ f = sumLabels dim (Index.intersect a b) ρ' g := by
  apply sumLabels_congr
  intro σ σ' hin hout
  have hagree : ∀ c, c ∈ a ∨ c ∈ b → σ c = σ' c := by
    intro c hc
    by_cases hint : c ∈ Index.intersect a b
    · exact (hin c hint).1
    · obtain ⟨hσ, hσ'⟩ := hout c hint
      rw [Index.mem_intersect] at hint
      rw [hσ, hσ', h c (Index.mem_symmetricDifference.2 (by tauto))]
  exact hf σ σ' (fun c hc => hagree c (.inl hc)) fun c hc => hagree c (.inr hc)

/-- The value of an expression depends on its free labels alone. -/
theorem value_congr {e : Expr} (he : e.WellFormed) (h : ∀ c ∈ e.outer, ρ c = ρ' c) :
    value I dim e ρ = value I dim e ρ' := by
  -- Both assignments are general: under a sum the summed labels take the same numbers in both.
  induction e generalizing ρ ρ' with
  | literal => rfl
  | tensor symbol labels => exact sumLabels_repeated_congr (g := I.leaf symbol) h
  | delta labels => exact sumLabels_repeated_congr (g := fun xs => (kronecker xs : K)) h
  | epsilon labels => exact sumLabels_repeated_congr (g := fun xs => (leviCivita xs : K)) h
  | scalar => rfl
  | negate e ih => simp only [value, ih he h]
  | apply f e ih =>
    have hempty : ∀ c ∈ e.outer, ρ c = ρ' c := by simp [he.2]
    simp only [value, ih he.1 hempty]
  | bind e target ih =>
    obtain ⟨f, rfl⟩ := exists_relabelling he.1.nodup_outer he.2
    apply sumLabels_congr
    intro σ σ' hin hout
    apply ih he.1
    intro c hc
    rw [carry_map f σ hc, carry_map f σ' hc]
    -- A label of the operand is summed here or free in the binding.
    by_cases hrep : f c ∈ Index.repeated (e.outer.map f)
    · exact (hin _ hrep).1
    · obtain ⟨hσ, hσ'⟩ := hout _ hrep
      rw [hσ, hσ']
      apply h
      have hpos := List.count_pos_iff.2 (List.mem_map_of_mem (f := f) hc)
      rw [Index.mem_repeated] at hrep
      exact Index.mem_exclusive.2 (by omega)
  | derivative e along ih =>
    apply sumLabels_congr
    intro σ σ' hin hout
    have hagree : ∀ c ∈ e.outer ++ along, σ c = σ' c := by
      intro c hc
      by_cases hrep : c ∈ Index.repeated (e.outer ++ along)
      · exact (hin c hrep).1
      · obtain ⟨hσ, hσ'⟩ := hout c hrep
        rw [hσ, hσ']
        apply h
        have hpos := List.count_pos_iff.2 hc
        rw [Index.mem_repeated] at hrep
        exact Index.mem_exclusive.2 (by omega)
    rw [ih he.1 fun c hc => hagree c (by simp [hc])]
    apply List.foldl_ext
    intro x c hc
    rw [hagree c (by simp [hc])]
  | sum l r ihl ihr =>
    simp only [value, ihl he.1 h, ihr he.2.1 fun c hc => h c (he.2.2.mem_iff.2 hc)]
  | difference l r ihl ihr =>
    simp only [value, ihl he.1 h, ihr he.2.1 fun c hc => h c (he.2.2.mem_iff.2 hc)]
  | product l r ihl ihr =>
    apply sumLabels_intersect_congr h
    intro σ σ' hl hr
    rw [ihl he.1 hl, ihr he.2.1 hr]
  | ratio l r ihl ihr =>
    apply sumLabels_intersect_congr h
    intro σ σ' hl hr
    rw [ihl he.1 hl, ihr he.2.1 hr]
  | power l r ihl ihr =>
    have hl : ∀ c ∈ l.outer, ρ c = ρ' c := by simp [he.2.2.1]
    have hr : ∀ c ∈ r.outer, ρ c = ρ' c := by simp [he.2.2.2]
    simp only [value, ihl he.1 hl, ihr he.2.1 hr]

/-- A relabelling by a function reads the numbers of its images. -/
lemma value_bind_map {e : Expr} (he : e.WellFormed) (f : Label → Label) (ρ : Valuation) :
    value I dim (bind e (e.outer.map f)) ρ
      = sumLabels dim (Index.repeated (e.outer.map f)) ρ fun σ => value I dim e (σ ∘ f) := by
  apply sumLabels_congr_term
  intro σ _ _
  exact value_congr he fun c hc => carry_map f σ hc

end Congruence

/-! ### Agreement -/

/-- The same free labels up to order, and the same values. -/
structure Agrees {K : Type*} [Field K] (I : Interpretation K) (dim : Nat) (m n : Expr) : Prop where
  outer_perm : m.outer.Perm n.outer
  value_eq : ∀ ρ, value I dim m ρ = value I dim n ρ

namespace Agrees

variable {K : Type*} [Field K] {I : Interpretation K} {dim : Nat} {k l l' m n r r' : Expr}

/-- An expression agrees with itself. -/
lemma refl (n : Expr) : Agrees I dim n n := ⟨.refl _, fun _ => rfl⟩

/-- Agreement is symmetric. -/
lemma symm (h : Agrees I dim m n) : Agrees I dim n m :=
  ⟨h.outer_perm.symm, fun ρ => (h.value_eq ρ).symm⟩

/-- Agreement is transitive. -/
lemma trans (h₁ : Agrees I dim k m) (h₂ : Agrees I dim m n) : Agrees I dim k n :=
  ⟨h₁.outer_perm.trans h₂.outer_perm, fun ρ => (h₁.value_eq ρ).trans (h₂.value_eq ρ)⟩

/-- Sums of agreeing operands agree. -/
lemma sum (hl : Agrees I dim l l') (hr : Agrees I dim r r') :
    Agrees I dim (.sum l r) (.sum l' r') :=
  ⟨hl.outer_perm, fun ρ => by simp only [value, hl.value_eq, hr.value_eq]⟩

/-- Differences of agreeing operands agree. -/
lemma difference (hl : Agrees I dim l l') (hr : Agrees I dim r r') :
    Agrees I dim (.difference l r) (.difference l' r') :=
  ⟨hl.outer_perm, fun ρ => by simp only [value, hl.value_eq, hr.value_eq]⟩

/-- Products of agreeing factors agree. -/
lemma product (hl : Agrees I dim l l') (hr : Agrees I dim r r') :
    Agrees I dim (.product l r) (.product l' r') :=
  ⟨Index.symmetricDifference_perm hl.outer_perm hr.outer_perm, fun ρ => by
    simp only [value, hl.value_eq, hr.value_eq]
    exact sumLabels_perm (Index.intersect_perm hl.outer_perm hr.outer_perm)⟩

/-- Quotients of agreeing operands agree. -/
lemma ratio (hl : Agrees I dim l l') (hr : Agrees I dim r r') :
    Agrees I dim (.ratio l r) (.ratio l' r') :=
  ⟨Index.symmetricDifference_perm hl.outer_perm hr.outer_perm, fun ρ => by
    simp only [value, hl.value_eq, hr.value_eq]
    exact sumLabels_perm (Index.intersect_perm hl.outer_perm hr.outer_perm)⟩

/-- Negations of agreeing operands agree. -/
lemma negate (h : Agrees I dim m n) : Agrees I dim (.negate m) (.negate n) :=
  ⟨h.outer_perm, fun ρ => by simp only [value, h.value_eq]⟩

/-- Functions of agreeing arguments agree. -/
lemma apply (f : Func) (h : Agrees I dim m n) : Agrees I dim (.apply f m) (.apply f n) :=
  ⟨.refl _, fun ρ => by simp only [value, h.value_eq]⟩

/-- Powers of agreeing operands agree. -/
lemma power (hl : Agrees I dim l l') (hr : Agrees I dim r r') :
    Agrees I dim (.power l r) (.power l' r') :=
  ⟨.refl _, fun ρ => by simp only [value, hl.value_eq, hr.value_eq]⟩

/-- Marks on agreeing operands agree. -/
lemma derivative (h : Agrees I dim m n) (along : Index) :
    Agrees I dim (.derivative m along) (.derivative n along) :=
  ⟨Index.exclusive_perm (h.outer_perm.append_right along), fun ρ => by
    simp only [value, h.value_eq]
    exact sumLabels_perm (Index.repeated_perm (h.outer_perm.append_right along))⟩

/-- Agreeing operands with their labels bound alike agree. -/
lemma bind (hm : m.WellFormed) (hn : n.WellFormed) (h : Agrees I dim m n) (f : Label → Label) :
    Agrees I dim (.bind m (m.outer.map f)) (.bind n (n.outer.map f)) := by
  have hperm := h.outer_perm.map f
  refine ⟨Index.exclusive_perm hperm, fun ρ => ?_⟩
  rw [value_bind_map hm, value_bind_map hn, sumLabels_perm (Index.repeated_perm hperm)]
  simp only [h.value_eq]

end Agrees

end Expr

end Indicial
