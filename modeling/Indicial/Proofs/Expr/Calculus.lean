import Indicial.Proofs.Expr.Derives
import Mathlib.RingTheory.Derivation.Basic
import Mathlib.Tactic.FieldSimp
import Mathlib.Tactic.Ring

/-!
# Derivatives are derivations

An interpretation is a calculus when its derivatives are derivations of the field that send the
leaves of unknown tensors to the leaves with one more direction, kill the leaves of constant tensors
and obey the identities of the elementary functions, and when its powers with integer exponents are
those of the field.

Under a calculus every rule of differentiation gives the derivative that it stands for
(`Derives.agrees`).
-/

namespace Indicial

namespace Func

/-- The other function in the derivative of a function. -/
def companion : Func → Func
  | .sin => .cos
  | .cos => .sin
  | .sinh => .cosh
  | .cosh => .sinh
  | f => f

/-- The derivative of a function at a number, `apply` being what the functions stand for. -/
def slope {K : Type*} [Field K] (apply : Func → K → K) (f : Func) (a : K) : K :=
  match f with
  | .sin => apply .cos a
  | .cos => -apply .sin a
  | .tan => 1 + apply .tan a ^ 2
  | .exp => apply .exp a
  | .log => 1 / a
  | .sqrt => 1 / (2 * apply .sqrt a)
  | .sinh => apply .cosh a
  | .cosh => apply .sinh a
  | .tanh => 1 - apply .tanh a ^ 2

end Func

namespace Interpretation

variable {K : Type*} [Field K]

/-- The derivatives are derivations, and leaves, powers and the functions in `F` behave as in
calculus. -/
structure Calculus (I : Interpretation K) (constant : Expr.Constancy) (F : Func → Bool)
    (D : Nat → Derivation ℤ K K) : Prop where
  derive_eq : ∀ x a, I.derive x a = D x a
  leaf_constant : ∀ symbol values x, constant symbol = true → D x (I.leaf symbol values) = 0
  leaf_unknown : ∀ symbol values x, constant symbol = false → symbol.order ≤ values.length →
    values.length < Index.capacity → I.leaf symbol (values ++ [x]) = D x (I.leaf symbol values)
  power_int : ∀ a (z : ℤ), I.power a z = a ^ z
  companion : ∀ f, F f = true → F f.companion = true
  apply_slope : ∀ f x a, F f = true → D x (I.apply f a) = f.slope I.apply a * D x a

end Interpretation

namespace Expr

open Indicial.Valuation

/-- Whether calculus applies to an expression: literals are exact, there are no scalars, exponents are
integer literals, all functions are among `F`, and no label occurs three times at a mark. -/
def calculable (F : Func → Bool) : Expr → Bool
  | literal x _ => !x.isFloat
  | tensor .. | delta _ | epsilon _ => true
  | scalar _ => false
  | negate e | bind e _ => e.calculable F
  | apply f e => F f && e.calculable F
  | derivative e along =>
    e.calculable F && (e.outer ++ along).all fun c => (e.outer ++ along).count c ≤ 2
  | sum l r | difference l r | product l r | ratio l r => l.calculable F && r.calculable F
  | power base exponent => base.calculable F && exponent.literal?.any Literal.isInteger

section Derivation

variable {K : Type*} [Field K] {dim : Nat} {D : Nat → Derivation ℤ K K}

/-- A derivation goes under a sum over labels. -/
lemma derivation_sumLabels (d : Derivation ℤ K K) {cs : Index} {ρ : Valuation}
    {f : Valuation → K} :
    d (sumLabels dim cs ρ f) = sumLabels dim cs ρ fun σ => d (f σ) :=
  map_sumLabels d.toLinearMap.toAddMonoidHom

/-- Derivations kill rational numbers. -/
lemma derivation_ratCast [CharZero K] (d : Derivation ℤ K K) (q : Rat) : d (q : K) = 0 := by
  rw [Rat.cast_def, Derivation.leibniz_div]
  simp

/-- A derivative along a label passes under a sum over other labels. -/
lemma sumLabels_derivation {cs ds : Index} {ρ : Valuation} {f : Valuation → K} {k : Label}
    (hk : k ∉ ds) :
    (sumLabels dim cs ρ fun σ => D (σ k) (sumLabels dim ds σ f))
      = sumLabels dim (cs ++ ds) ρ fun σ => D (σ k) (f σ) := by
  rw [sumLabels_append]
  apply sumLabels_congr_term
  intro σ _ _
  rw [derivation_sumLabels]
  apply sumLabels_congr_term
  intro τ _ hτ
  rw [hτ k hk]

/-- The labels that a derivative along `k` sums over. -/
lemma mem_repeated_append_singleton {a : Index} {c k : Label} (ha : a.Nodup) :
    c ∈ Index.repeated (a ++ [k]) ↔ c = k ∧ k ∈ a := by
  have hle := List.nodup_iff_count_le_one.1 ha c
  have hpos : k ∈ a ↔ 0 < a.count k := List.count_pos_iff.symm
  rw [Index.mem_repeated, List.count_append, List.count_singleton, hpos]
  grind

/-- With a direction behind them, those labels repeat that did so before, and the direction if it was
free. -/
lemma repeated_append_singleton_perm {a : Index} {k : Label} (hk : k ∉ Index.repeated a) :
    (Index.repeated (a ++ [k])).Perm
      (Index.repeated (Index.exclusive a ++ [k]) ++ Index.repeated a) := by
  rw [Index.mem_repeated] at hk
  have hexc := Index.nodup_exclusive a
  apply Index.perm_of_nodup (Index.nodup_repeated _)
  · rw [List.nodup_append]
    refine ⟨Index.nodup_repeated _, Index.nodup_repeated _, fun c hc d hd h => ?_⟩
    rw [mem_repeated_append_singleton hexc] at hc
    rw [Index.mem_repeated, ← h, hc.1] at hd
    exact hk hd
  · intro c
    rw [List.mem_append, mem_repeated_append_singleton hexc]
    simp only [Index.mem_repeated, Index.mem_exclusive, List.count_append, List.count_singleton]
    grind

/-- The labels summed in a product of a derivative and in the derivative of the product. -/
lemma intersect_derived_perm {a b d : Index} {k : Label} (ha : a.Nodup) (hb : b.Nodup)
    (hk : k ∉ Index.intersect a b) (hd : d.Perm (Index.exclusive (a ++ [k]))) :
    (Index.intersect d b ++ Index.repeated (a ++ [k])).Perm
      (Index.repeated (Index.symmetricDifference a b ++ [k]) ++ Index.intersect a b) := by
  have hab := Index.nodup_symmetricDifference ha hb
  have hmem : ∀ c, c ∈ d ↔ (c ∈ a ∧ c ≠ k) ∨ (c ∉ a ∧ c = k) := fun c => by
    rw [hd.mem_iff, mem_exclusive_append_singleton ha]
  rw [Index.mem_intersect] at hk
  apply Index.perm_of_nodup
  · rw [List.nodup_append]
    refine ⟨Index.nodup_intersect _ _, Index.nodup_repeated _, fun c hc e he h => ?_⟩
    rw [Index.mem_intersect, hmem] at hc
    rw [mem_repeated_append_singleton ha] at he
    grind
  · rw [List.nodup_append]
    refine ⟨Index.nodup_repeated _, Index.nodup_intersect _ _, fun c hc e he h => ?_⟩
    rw [Index.mem_intersect] at he
    rw [mem_repeated_append_singleton hab] at hc
    grind
  · intro c
    simp only [List.mem_append, Index.mem_intersect, mem_repeated_append_singleton ha,
      mem_repeated_append_singleton hab, hmem, Index.mem_symmetricDifference]
    grind

end Derivation

/-- The exponent of a power to which calculus applies. -/
lemma eq_int_of_isInteger {e : Expr} (h : e.literal?.any Literal.isInteger = true) :
    ∃ (z : ℤ) (labels : Index), e = literal (.exact z) labels := by
  rw [Option.any_eq_true] at h
  obtain ⟨x, hx, hint⟩ := h
  cases x with
  | exact q =>
    rw [Literal.isInteger, beq_iff_eq] at hint
    refine ⟨q.num, e.outer, ?_⟩
    rw [(Rat.den_eq_one_iff q).1 hint]
    exact eq_literal_of_literal? hx
  | float => cases hint

/-- The rules make expressions to which calculus applies. -/
lemma Derives.calculable {constant : Constancy} {F : Func → Bool} {n m : Expr} {k : Label}
    (hcompanion : ∀ f, F f = true → F f.companion = true)
    (h : Derives constant n k m) (hn : n.calculable F = true) : m.calculable F = true := by
  induction h with
  | zero _ _ hm =>
    obtain ⟨rfl, -⟩ := mkBroadcast_eq_ok_iff.1 hm
    rfl
  | leaf _ _ _ hm =>
    obtain ⟨rfl, -⟩ := mkLeaf_eq_ok_iff.1 hm
    rfl
  | renameLeaf _ _ _ _ ih => exact ih rfl
  | negate _ ih => exact ih hn
  | sumLeft _ _ ih =>
    rw [Expr.calculable, Bool.and_eq_true] at hn
    exact ih hn.1
  | sumRight _ _ ih =>
    rw [Expr.calculable, Bool.and_eq_true] at hn
    exact ih hn.2
  | sum _ _ hm ihl ihr =>
    rw [Expr.calculable, Bool.and_eq_true] at hn
    obtain ⟨rfl, -⟩ := mkSum_eq_ok_iff.1 hm
    simp [Expr.calculable, ihl hn.1, ihr hn.2]
  | differenceLeft _ _ ih =>
    rw [Expr.calculable, Bool.and_eq_true] at hn
    exact ih hn.1
  | differenceRight _ _ ih =>
    rw [Expr.calculable, Bool.and_eq_true] at hn
    exact ih hn.2
  | difference _ _ hm ihl ihr =>
    rw [Expr.calculable, Bool.and_eq_true] at hn
    obtain ⟨rfl, -⟩ := mkDifference_eq_ok_iff.1 hm
    simp [Expr.calculable, ihl hn.1, ihr hn.2]
  | productLeft _ _ _ hm ih =>
    rw [Expr.calculable, Bool.and_eq_true] at hn
    obtain ⟨rfl, -⟩ := mkProduct_eq_ok_iff.1 hm
    simp [Expr.calculable, ih hn.1, hn.2]
  | productRight _ _ _ hm ih =>
    rw [Expr.calculable, Bool.and_eq_true] at hn
    obtain ⟨rfl, -⟩ := mkProduct_eq_ok_iff.1 hm
    simp [Expr.calculable, ih hn.2, hn.1]
  | product _ _ _ ha hb hm ihl ihr =>
    rw [Expr.calculable, Bool.and_eq_true] at hn
    obtain ⟨rfl, -⟩ := mkProduct_eq_ok_iff.1 ha
    obtain ⟨rfl, -⟩ := mkProduct_eq_ok_iff.1 hb
    obtain ⟨rfl, -⟩ := mkSum_eq_ok_iff.1 hm
    simp [Expr.calculable, ihl hn.1, ihr hn.2, hn.1, hn.2]
  | renameProduct _ _ _ _ _ ih => exact ih hn
  | ratioLeft _ _ _ hm ih =>
    rw [Expr.calculable, Bool.and_eq_true] at hn
    obtain ⟨rfl, -⟩ := mkRatio_eq_ok_iff.1 hm
    simp [Expr.calculable, ih hn.1, hn.2]
  | ratioRight _ _ hb hsquare hm ih =>
    rw [Expr.calculable, Bool.and_eq_true] at hn
    obtain ⟨rfl, -⟩ := mkProduct_eq_ok_iff.1 hb
    obtain ⟨rfl, -⟩ := mkSquare_eq_ok_iff.1 hsquare
    obtain ⟨rfl, -⟩ := mkRatio_eq_ok_iff.1 hm
    simp [Expr.calculable, ih hn.2, hn.1, hn.2, literal?, number, Literal.ofInt, Literal.isInteger]
  | ratio _ _ ha hb hnum hsquare hm ihl ihr =>
    rw [Expr.calculable, Bool.and_eq_true] at hn
    obtain ⟨rfl, -⟩ := mkProduct_eq_ok_iff.1 ha
    obtain ⟨rfl, -⟩ := mkProduct_eq_ok_iff.1 hb
    obtain ⟨rfl, -⟩ := mkDifference_eq_ok_iff.1 hnum
    obtain ⟨rfl, -⟩ := mkSquare_eq_ok_iff.1 hsquare
    obtain ⟨rfl, -⟩ := mkRatio_eq_ok_iff.1 hm
    simp [Expr.calculable, ihl hn.1, ihr hn.2, hn.1, hn.2, literal?, number, Literal.ofInt,
      Literal.isInteger]
  | renameRatio _ _ _ _ _ ih => exact ih hn
  | power _ hlower hcoefficient hm ih =>
    rw [Expr.calculable, Bool.and_eq_true] at hn
    obtain ⟨z, _, hz⟩ := eq_int_of_isInteger hn.2
    cases hz
    obtain ⟨rfl, -⟩ := mkPower_eq_ok_iff.1 hlower
    obtain ⟨rfl, -⟩ := mkProduct_eq_ok_iff.1 hcoefficient
    obtain ⟨rfl, -⟩ := mkProduct_eq_ok_iff.1 hm
    have hlower : ((z : Rat) - 1).den = 1 := by
      rw [← Int.cast_one, ← Int.cast_sub]
      exact Rat.den_intCast _
    simp [Expr.calculable, ih hn.1, hn.1, literal?, number, Literal.isInteger, Literal.isFloat,
      hlower]
  | @apply f _ _ _ _ _ hslope _ hm ih =>
    rw [Expr.calculable, Bool.and_eq_true] at hn
    rw [functionDerivative_eq_slope hslope] at hm
    obtain ⟨rfl, -⟩ := mkProduct_eq_ok_iff.1 hm
    have hother := hcompanion f hn.1
    cases f <;>
      simp_all [Expr.calculable, slope, one, number, Literal.ofInt, Literal.isFloat, literal?,
        Literal.isInteger, Func.companion]
  | bind _ _ _ _ _ hm ih =>
    obtain ⟨rfl, -⟩ := mkBind_eq_ok_iff.1 hm
    exact ih hn
  | renameBind _ _ _ _ ih => exact ih hn

section Calculus

variable {K : Type*} [Field K] {I : Interpretation K} {dim : Nat} {constant : Constancy}
  {F : Func → Bool} {D : Nat → Derivation ℤ K K} {e l r n m dl dr : Expr} {k : Label} {ρ : Valuation}

/-- The derivative along one label. -/
lemma value_derivative_singleton (hC : I.Calculus constant F D) :
    value I dim (derivative n [k]) ρ
      = sumLabels dim (Index.repeated (n.outer ++ [k])) ρ fun σ => D (σ k) (value I dim n σ) := by
  simp only [value, List.foldl_cons, List.foldl_nil, hC.derive_eq]

/-- The derivative of a negation is the negated derivative. -/
lemma value_derivative_negate (hC : I.Calculus constant F D) :
    value I dim (derivative (negate e) [k]) ρ = -value I dim (derivative e [k]) ρ := by
  rw [value_derivative_singleton hC, value_derivative_singleton hC, outer]
  simp only [value, map_neg, sumLabels_neg]

/-- The derivative of a sum is the sum of the derivatives. -/
lemma value_derivative_sum (hC : I.Calculus constant F D) (hperm : l.outer.Perm r.outer) :
    value I dim (derivative (sum l r) [k]) ρ
      = value I dim (derivative l [k]) ρ + value I dim (derivative r [k]) ρ := by
  rw [value_derivative_singleton hC, value_derivative_singleton hC, value_derivative_singleton hC,
    outer, sumLabels_perm (Index.repeated_perm (hperm.symm.append_right _))]
  simp only [value, map_add, sumLabels_add]

/-- The derivative of a difference is the difference of the derivatives. -/
lemma value_derivative_difference (hC : I.Calculus constant F D) (hperm : l.outer.Perm r.outer) :
    value I dim (derivative (difference l r) [k]) ρ
      = value I dim (derivative l [k]) ρ - value I dim (derivative r [k]) ρ := by
  rw [value_derivative_singleton hC, value_derivative_singleton hC, value_derivative_singleton hC,
    outer, sumLabels_perm (Index.repeated_perm (hperm.symm.append_right _))]
  simp only [value, map_sub, sumLabels_sub]

/-- A power with an integer literal as exponent. -/
lemma value_power_int (hC : I.Calculus constant F D) (u : Expr) (z : ℤ) (labels : Index) :
    value I dim (power u (literal (.exact (z : Rat)) labels)) ρ = value I dim u ρ ^ z := by
  simp only [value, Interpretation.literal, Rat.cast_intCast, hC.power_int]

/-- The derivative of one factor, with any function of the other: the sum over shared labels is that
of the derivative of the whole. -/
lemma sumLabels_derivative_factor (hC : I.Calculus constant F D) (g : K → K)
    (hl : l.WellFormed) (hr : r.WellFormed) (hk : k ∉ Index.intersect l.outer r.outer)
    (hd : Agrees I dim dl (derivative l [k])) :
    (sumLabels dim (Index.intersect dl.outer r.outer) ρ fun σ =>
        value I dim dl σ * g (value I dim r σ))
      = sumLabels dim
          (Index.repeated (Index.symmetricDifference l.outer r.outer ++ [k])
            ++ Index.intersect l.outer r.outer) ρ fun σ =>
          D (σ k) (value I dim l σ) * g (value I dim r σ) := by
  rw [← sumLabels_perm (intersect_derived_perm hl.nodup_outer hr.nodup_outer hk hd.outer_perm),
    sumLabels_append]
  apply sumLabels_congr_term
  intro σ _ _
  rw [hd.value_eq, value_derivative_singleton hC, mul_comm, mul_sumLabels]
  apply sumLabels_congr_term
  intro τ _ hτ
  -- The other factor does not have the label that is summed with the derivative.
  have hsame : value I dim r τ = value I dim r σ := by
    apply value_congr hr
    intro c hc
    apply hτ
    rw [mem_repeated_append_singleton hl.nodup_outer]
    rintro ⟨rfl, hkl⟩
    exact hk (Index.mem_intersect.2 ⟨hkl, hc⟩)
  rw [hsame, mul_comm]

/-- The product of a factor's derivative and the other factor. -/
lemma value_product_left (hC : I.Calculus constant F D) (hl : l.WellFormed) (hr : r.WellFormed)
    (hk : k ∉ Index.intersect l.outer r.outer) (hd : Agrees I dim dl (derivative l [k])) :
    value I dim (product dl r) ρ
      = sumLabels dim
          (Index.repeated (Index.symmetricDifference l.outer r.outer ++ [k])
            ++ Index.intersect l.outer r.outer) ρ fun σ =>
          D (σ k) (value I dim l σ) * value I dim r σ :=
  sumLabels_derivative_factor hC id hl hr hk hd

/-- The right half of the product rule: the right factor is derived under the sum of the product. -/
lemma value_product_right (hC : I.Calculus constant F D) (hl : l.WellFormed) (hr : r.WellFormed)
    (hk : k ∉ Index.intersect l.outer r.outer) (hd : Agrees I dim dr (derivative r [k])) :
    value I dim (product l dr) ρ
      = sumLabels dim
          (Index.repeated (Index.symmetricDifference l.outer r.outer ++ [k])
            ++ Index.intersect l.outer r.outer) ρ fun σ =>
          value I dim l σ * D (σ k) (value I dim r σ) := by
  have hcomm : value I dim (product l dr) ρ = value I dim (product dr l) ρ := by
    simp only [value]
    rw [sumLabels_perm (Index.intersect_comm _ _)]
    simp only [mul_comm]
  have hk' : k ∉ Index.intersect r.outer l.outer :=
    fun h => hk ((Index.intersect_comm _ _).mem_iff.1 h)
  have hlabels := (Index.symmetricDifference_comm r.outer l.outer).append_right [k]
  rw [hcomm, value_product_left hC hr hl hk' hd,
    sumLabels_perm ((Index.repeated_perm hlabels).append (Index.intersect_comm _ _))]
  simp only [mul_comm]

/-- The derivative of a product, term by term. -/
lemma value_derivative_product (hC : I.Calculus constant F D)
    (hk : k ∉ Index.intersect l.outer r.outer) :
    value I dim (derivative (product l r) [k]) ρ
      = sumLabels dim
          (Index.repeated (Index.symmetricDifference l.outer r.outer ++ [k])
            ++ Index.intersect l.outer r.outer) ρ fun σ =>
          D (σ k) (value I dim l σ * value I dim r σ) := by
  rw [value_derivative_singleton hC, outer]
  simp only [value]
  exact sumLabels_derivation hk

/-- The derivative of a ratio, term by term. -/
lemma value_derivative_ratio (hC : I.Calculus constant F D)
    (hk : k ∉ Index.intersect l.outer r.outer) :
    value I dim (derivative (ratio l r) [k]) ρ
      = sumLabels dim
          (Index.repeated (Index.symmetricDifference l.outer r.outer ++ [k])
            ++ Index.intersect l.outer r.outer) ρ fun σ =>
          D (σ k) (value I dim l σ / value I dim r σ) := by
  rw [value_derivative_singleton hC, outer]
  simp only [value]
  exact sumLabels_derivation hk

/-- The derivative of a function at an expression stands for that of the function. -/
lemma value_slope (hC : I.Calculus constant F D) (f : Func) (hrank : e.outer = []) :
    value I dim (slope f e) ρ = f.slope I.apply (value I dim e ρ) := by
  have htwo : ∀ a : K, I.power a 2 = a ^ 2 := fun a => by exact_mod_cast hC.power_int a 2
  cases f <;>
    simp [slope, Func.slope, value, outer, one, number, Literal.ofInt,
      Interpretation.literal, hrank, htwo]

/-- The derivative along a label that is not free. -/
lemma value_fresh_derivative (hC : I.Calculus constant F D) (hnodup : n.outer.Nodup)
    (hk : k ∉ n.outer) :
    value I dim (derivative n [k]) ρ = D (ρ k) (value I dim n ρ) := by
  have hnil : Index.repeated (n.outer ++ [k]) = [] := by
    rw [List.eq_nil_iff_forall_not_mem]
    intro c hc
    exact hk ((mem_repeated_append_singleton hnodup).1 hc).2
  rw [value_derivative_singleton hC, hnil, sumLabels_nil]

/-- The derivative of an expression of rank zero. -/
lemma value_rank_zero_derivative (hC : I.Calculus constant F D) (hrank : n.outer = []) :
    value I dim (derivative n [k]) ρ = D (ρ k) (value I dim n ρ) := by
  exact value_fresh_derivative hC (by simp [hrank]) (by simp [hrank])

/-- Relabelling a derivative along a fresh label gives the derivative of the relabelled expression. -/
lemma value_derivative_bind (hC : I.Calculus constant F D) {f : Label → Label} {d : Expr}
    {fresh : Label} (he : e.WellFormed) (hd : d.WellFormed) (hfresh : fresh ∉ e.outer)
    (hk : k ∉ Index.repeated (e.outer.map f)) (hagrees : Agrees I dim d (derivative e [fresh])) :
    value I dim (bind d (d.outer.map fun c => if c == fresh then k else f c)) ρ
      = value I dim (derivative (bind e (e.outer.map f)) [k]) ρ := by
  have hlabels : (d.outer.map fun c => if c == fresh then k else f c).Perm (e.outer.map f ++ [k]) :=
    outer_map_perm hfresh he.nodup_outer hagrees.outer_perm
  rw [value_bind_map hd, sumLabels_perm (Index.repeated_perm hlabels),
    sumLabels_perm (repeated_append_singleton_perm hk), value_derivative_singleton hC]
  simp only [value_bind_map he, outer]
  rw [sumLabels_derivation hk]
  apply sumLabels_congr_term
  intro σ _ _
  rw [hagrees.value_eq, value_fresh_derivative hC he.nodup_outer hfresh]
  have hsame : value I dim e (σ ∘ fun c => if c == fresh then k else f c)
      = value I dim e (σ ∘ f) :=
    value_congr he fun c hc => by
      have hne : c ≠ fresh := fun h => hfresh (h ▸ hc)
      simp [hne]
  rw [hsame]
  simp

/-- The derivative of a power with an integer literal as exponent. -/
lemma value_derivative_power (hC : I.Calculus constant F D) {u : Expr} (hrank : u.outer = [])
    (z : ℤ) (labels : Index) :
    value I dim (derivative (power u (literal (.exact (z : Rat)) labels)) [k]) ρ
      = z * value I dim u ρ ^ (z - 1) * value I dim (derivative u [k]) ρ := by
  rw [value_rank_zero_derivative hC rfl, value_power_int hC, Derivation.leibniz_zpow,
    value_rank_zero_derivative hC hrank]
  simp [mul_assoc]

omit [Field K] in
/-- A denominator that has a square shares no labels. -/
lemma not_mem_intersect_of_mkSquare {square : Expr} (l : Expr) (k : Label)
    (h : mkSquare r = .ok square) : k ∉ Index.intersect l.outer r.outer := by
  simp [(mkSquare_eq_ok_iff.1 h).2]

/-- A numerator over the square of a denominator of rank zero. -/
lemma value_ratio_square (hC : I.Calculus constant F D) {num square : Expr} {cs : Index}
    (hr : r.WellFormed) (hsquare : mkSquare r = .ok square)
    (hnum : value I dim num ρ = sumLabels dim cs ρ fun σ =>
      value I dim r σ * D (σ k) (value I dim l σ) - value I dim l σ * D (σ k) (value I dim r σ)) :
    value I dim (ratio num square) ρ
      = sumLabels dim cs ρ fun σ => D (σ k) (value I dim l σ / value I dim r σ) := by
  obtain ⟨rfl, hrank⟩ := mkSquare_eq_ok_iff.1 hsquare
  have hpow : I.power (value I dim r ρ) 2 = value I dim r ρ ^ 2 := by
    exact_mod_cast hC.power_int (value I dim r ρ) 2
  have hvalue : value I dim (ratio num (power r (number (Literal.ofInt 2)))) ρ
      = value I dim num ρ / value I dim r ρ ^ 2 := by
    simp [value, outer, number, Interpretation.literal, Literal.ofInt, hpow]
  rw [hvalue, hnum, div_eq_mul_inv, mul_comm, mul_sumLabels]
  apply sumLabels_congr_term
  intro σ _ _
  have hsame : value I dim r ρ = value I dim r σ := value_congr hr (by simp [hrank])
  rw [hsame, Derivation.leibniz_div, smul_eq_mul, smul_eq_mul, smul_eq_mul, inv_pow]

variable [CharZero K]

/-- Derivations kill expressions that depend on constants only. -/
lemma derivation_value_of_constant (hC : I.Calculus constant F D)
    (hconst : e.dependsOnly constant = true) (he : e.calculable F = true)
    (hmark : e.hasDerivative = false) (x : Nat) : D x (value I dim e ρ) = 0 := by
  induction e generalizing ρ with
  | literal y labels =>
    rw [calculable, Bool.not_eq_true'] at he
    cases y with
    | exact q => exact derivation_ratCast _ q
    | float => cases he
  | tensor symbol labels =>
    simp only [value, derivation_sumLabels, hC.leaf_constant symbol _ x hconst, sumLabels_zero]
  | delta labels => simp only [value, derivation_sumLabels, Derivation.map_intCast, sumLabels_zero]
  | epsilon labels => simp only [value, derivation_sumLabels, Derivation.map_intCast, sumLabels_zero]
  | scalar => cases he
  | negate e ih => rw [value, map_neg, ih hconst he hmark, neg_zero]
  | apply f e ih =>
    rw [calculable, Bool.and_eq_true] at he
    rw [value, hC.apply_slope f x _ he.1, ih hconst he.2 hmark, mul_zero]
  | bind e target ih => simp only [value, derivation_sumLabels, ih hconst he hmark, sumLabels_zero]
  | derivative => cases hmark
  | sum l r ihl ihr =>
    rw [dependsOnly, Bool.and_eq_true] at hconst
    rw [calculable, Bool.and_eq_true] at he
    rw [Expr.hasDerivative, Bool.or_eq_false_iff] at hmark
    rw [value, map_add, ihl hconst.1 he.1 hmark.1, ihr hconst.2 he.2 hmark.2, add_zero]
  | difference l r ihl ihr =>
    rw [dependsOnly, Bool.and_eq_true] at hconst
    rw [calculable, Bool.and_eq_true] at he
    rw [Expr.hasDerivative, Bool.or_eq_false_iff] at hmark
    rw [value, map_sub, ihl hconst.1 he.1 hmark.1, ihr hconst.2 he.2 hmark.2, sub_zero]
  | product l r ihl ihr =>
    rw [dependsOnly, Bool.and_eq_true] at hconst
    rw [calculable, Bool.and_eq_true] at he
    rw [Expr.hasDerivative, Bool.or_eq_false_iff] at hmark
    simp only [value, derivation_sumLabels, Derivation.leibniz, ihl hconst.1 he.1 hmark.1,
      ihr hconst.2 he.2 hmark.2, smul_zero, add_zero, sumLabels_zero]
  | ratio l r ihl ihr =>
    rw [dependsOnly, Bool.and_eq_true] at hconst
    rw [calculable, Bool.and_eq_true] at he
    rw [Expr.hasDerivative, Bool.or_eq_false_iff] at hmark
    simp only [value, derivation_sumLabels, Derivation.leibniz_div, ihl hconst.1 he.1 hmark.1,
      ihr hconst.2 he.2 hmark.2, smul_zero, sub_zero, sumLabels_zero]
  | power u v ihu _ =>
    rw [dependsOnly, Bool.and_eq_true] at hconst
    rw [calculable, Bool.and_eq_true] at he
    rw [Expr.hasDerivative, Bool.or_eq_false_iff] at hmark
    obtain ⟨z, labels, rfl⟩ := eq_int_of_isInteger he.2
    rw [value_power_int hC, Derivation.leibniz_zpow, ihu hconst.1 he.1 hmark.1, smul_zero, smul_zero]

/-- The derivative of an expression of constants is zero. -/
lemma value_derivative_of_constant (hC : I.Calculus constant F D)
    (hconst : e.dependsOnly constant = true) (he : e.calculable F = true)
    (hmark : e.hasDerivative = false) : value I dim (derivative e [k]) ρ = 0 := by
  rw [value_derivative_singleton hC]
  simp only [derivation_value_of_constant hC hconst he hmark, sumLabels_zero]

/-- Every rule gives the value of the derivative that it stands for. -/
theorem Derives.value_eq (hC : I.Calculus constant F D) (h : Derives constant n k m)
    (hn : n.WellFormed) (hmark : n.hasDerivative = false) (hcalc : n.calculable F = true)
    (ρ : Valuation) : value I dim m ρ = value I dim (derivative n [k]) ρ := by
  -- One case for each rule. The assignment is general, since a contraction sums the value of an
  -- operand over the assignments of its labels.
  induction h generalizing ρ with
  | zero hconst _ hm =>
    obtain ⟨rfl, -⟩ := mkBroadcast_eq_ok_iff.1 hm
    rw [value_derivative_of_constant hC hconst hcalc hmark]
    simp [value, Literal.ofInt, Interpretation.literal]
  | @leaf symbol labels k m hc hk hle hm =>
    obtain ⟨rfl, horder⟩ := mkLeaf_eq_ok_iff.1 hm
    rw [value_derivative_singleton hC, outer]
    simp only [value]
    -- The sum over the repeated labels passes through the derivation, and `k` joins them where the
    -- leaf has it free already.
    rw [sumLabels_derivation hk, ← sumLabels_perm (repeated_append_singleton_perm hk)]
    apply sumLabels_congr_term
    intro σ _ _
    rw [List.map_append, List.map_singleton]
    apply hC.leaf_unknown symbol _ _ hc
    · rw [List.length_map]
      exact hn.1
    · rw [List.length_map]
      simpa using hle
  | renameLeaf fresh hk hfresh _ ih =>
    -- Renaming a label that is summed over changes no value, so neither does it change a
    -- derivative.
    rw [ih (by simpa [WellFormed, Index.length_rename] using hn) rfl rfl]
    exact ((agrees_tensor_rename hk hfresh).derivative [_]).value_eq ρ
  | negate _ ih =>
    rw [value_negate, ih hn hmark hcalc, value_derivative_negate hC]
  | sumLeft hconst _ ih =>
    rw [Expr.hasDerivative, Bool.or_eq_false_iff] at hmark
    rw [Expr.calculable, Bool.and_eq_true] at hcalc
    rw [ih hn.1 hmark.1 hcalc.1, value_derivative_sum hC hn.2.2,
      value_derivative_of_constant hC hconst hcalc.2 hmark.2, add_zero]
  | sumRight hconst _ ih =>
    rw [Expr.hasDerivative, Bool.or_eq_false_iff] at hmark
    rw [Expr.calculable, Bool.and_eq_true] at hcalc
    rw [ih hn.2.1 hmark.2 hcalc.2, value_derivative_sum hC hn.2.2,
      value_derivative_of_constant hC hconst hcalc.1 hmark.1, zero_add]
  | sum _ _ hm ihl ihr =>
    rw [Expr.hasDerivative, Bool.or_eq_false_iff] at hmark
    rw [Expr.calculable, Bool.and_eq_true] at hcalc
    obtain ⟨rfl, -⟩ := mkSum_eq_ok_iff.1 hm
    rw [value_sum, ihl hn.1 hmark.1 hcalc.1, ihr hn.2.1 hmark.2 hcalc.2,
      value_derivative_sum hC hn.2.2]
  | differenceLeft hconst _ ih =>
    rw [Expr.hasDerivative, Bool.or_eq_false_iff] at hmark
    rw [Expr.calculable, Bool.and_eq_true] at hcalc
    rw [ih hn.1 hmark.1 hcalc.1, value_derivative_difference hC hn.2.2,
      value_derivative_of_constant hC hconst hcalc.2 hmark.2, sub_zero]
  | differenceRight hconst _ ih =>
    rw [Expr.hasDerivative, Bool.or_eq_false_iff] at hmark
    rw [Expr.calculable, Bool.and_eq_true] at hcalc
    rw [value_negate, ih hn.2.1 hmark.2 hcalc.2, value_derivative_difference hC hn.2.2,
      value_derivative_of_constant hC hconst hcalc.1 hmark.1, zero_sub]
  | difference _ _ hm ihl ihr =>
    rw [Expr.hasDerivative, Bool.or_eq_false_iff] at hmark
    rw [Expr.calculable, Bool.and_eq_true] at hcalc
    obtain ⟨rfl, -⟩ := mkDifference_eq_ok_iff.1 hm
    rw [value_difference, ihl hn.1 hmark.1 hcalc.1, ihr hn.2.1 hmark.2 hcalc.2,
      value_derivative_difference hC hn.2.2]
  | productLeft hk hconst hd hm ih =>
    rw [Expr.hasDerivative, Bool.or_eq_false_iff] at hmark
    rw [Expr.calculable, Bool.and_eq_true] at hcalc
    obtain ⟨rfl, -⟩ := mkProduct_eq_ok_iff.1 hm
    have hl : Agrees I dim _ _ :=
      ⟨(hd.derived hn.1 hmark.1).outer_perm, ih hn.1 hmark.1 hcalc.1⟩
    rw [value_product_left hC hn.1 hn.2.1 hk hl, value_derivative_product hC hk]
    apply sumLabels_congr_term
    intro σ _ _
    rw [Derivation.leibniz, derivation_value_of_constant hC hconst hcalc.2 hmark.2, smul_zero,
      zero_add, smul_eq_mul, mul_comm]
  | productRight hk hconst hd hm ih =>
    rw [Expr.hasDerivative, Bool.or_eq_false_iff] at hmark
    rw [Expr.calculable, Bool.and_eq_true] at hcalc
    obtain ⟨rfl, -⟩ := mkProduct_eq_ok_iff.1 hm
    have hr : Agrees I dim _ _ :=
      ⟨(hd.derived hn.2.1 hmark.2).outer_perm, ih hn.2.1 hmark.2 hcalc.2⟩
    rw [value_product_right hC hn.1 hn.2.1 hk hr, value_derivative_product hC hk]
    simp only [Derivation.leibniz, derivation_value_of_constant hC hconst hcalc.1 hmark.1,
      smul_eq_mul, mul_zero, add_zero]
  | product hk hdl hdr ha hb hm ihl ihr =>
    rw [Expr.hasDerivative, Bool.or_eq_false_iff] at hmark
    rw [Expr.calculable, Bool.and_eq_true] at hcalc
    obtain ⟨rfl, -⟩ := mkProduct_eq_ok_iff.1 ha
    obtain ⟨rfl, -⟩ := mkProduct_eq_ok_iff.1 hb
    obtain ⟨rfl, -⟩ := mkSum_eq_ok_iff.1 hm
    have hl : Agrees I dim _ _ :=
      ⟨(hdl.derived hn.1 hmark.1).outer_perm, ihl hn.1 hmark.1 hcalc.1⟩
    have hr : Agrees I dim _ _ :=
      ⟨(hdr.derived hn.2.1 hmark.2).outer_perm, ihr hn.2.1 hmark.2 hcalc.2⟩
    rw [value_sum, value_product_left hC hn.1 hn.2.1 hk hl, value_product_right hC hn.1 hn.2.1 hk hr,
      value_derivative_product hC hk, ← sumLabels_add]
    apply sumLabels_congr_term
    intro σ _ _
    rw [Derivation.leibniz, smul_eq_mul, smul_eq_mul]
    ring
  | renameProduct fresh hk hfl hfr _ ih =>
    -- The fresh label takes the place of `k` in the contraction, and the free labels stay.
    have hperm := symmetricDifference_bind_rename hn.1 hn.2.1 hk hfl hfr
    rw [ih ⟨⟨hn.1, Index.length_rename _ _ _⟩, ⟨hn.2.1, Index.length_rename _ _ _⟩,
      hperm.length_eq.trans_le hn.2.2⟩ hmark hcalc]
    exact ((agrees_product_rename hn.1 hn.2.1 hk hfl hfr).derivative [_]).value_eq ρ
  | @ratioLeft l r k _ _ hk hconst hd hm ih =>
    rw [Expr.hasDerivative, Bool.or_eq_false_iff] at hmark
    rw [Expr.calculable, Bool.and_eq_true] at hcalc
    obtain ⟨rfl, -⟩ := mkRatio_eq_ok_iff.1 hm
    have hl : Agrees I dim _ _ :=
      ⟨(hd.derived hn.1 hmark.1).outer_perm, ih hn.1 hmark.1 hcalc.1⟩
    rw [value_derivative_ratio hC hk]
    simp only [value, div_eq_mul_inv]
    rw [sumLabels_derivative_factor hC (fun a => a⁻¹) hn.1 hn.2.1 hk hl]
    apply sumLabels_congr_term
    intro σ _ _
    -- The denominator does not depend on an unknown: only the numerator is differentiated.
    have hzero : D (σ k) (value I dim r σ) = 0 :=
      derivation_value_of_constant hC hconst hcalc.2 hmark.2 _
    rw [← div_eq_mul_inv (value I dim l σ), Derivation.leibniz_div_const _ _ _ hzero, smul_eq_mul,
      mul_comm]
  | @ratioRight l r k _ _ _ _ hconst hd hb hsquare hm ih =>
    rw [Expr.hasDerivative, Bool.or_eq_false_iff] at hmark
    rw [Expr.calculable, Bool.and_eq_true] at hcalc
    obtain ⟨rfl, -⟩ := mkProduct_eq_ok_iff.1 hb
    obtain ⟨rfl, -⟩ := mkRatio_eq_ok_iff.1 hm
    have hk := not_mem_intersect_of_mkSquare l k hsquare
    have hr : Agrees I dim _ _ :=
      ⟨(hd.derived hn.2.1 hmark.2).outer_perm, ih hn.2.1 hmark.2 hcalc.2⟩
    rw [value_derivative_ratio hC hk]
    apply value_ratio_square hC hn.2.1 hsquare
    rw [value_negate, value_product_right hC hn.1 hn.2.1 hk hr, ← sumLabels_neg]
    simp only [derivation_value_of_constant hC hconst hcalc.1 hmark.1, mul_zero, zero_sub]
  | @ratio l r k _ _ _ _ _ _ _ hdl hdr ha hb hnum hsquare hm ihl ihr =>
    rw [Expr.hasDerivative, Bool.or_eq_false_iff] at hmark
    rw [Expr.calculable, Bool.and_eq_true] at hcalc
    obtain ⟨rfl, -⟩ := mkProduct_eq_ok_iff.1 ha
    obtain ⟨rfl, -⟩ := mkProduct_eq_ok_iff.1 hb
    obtain ⟨rfl, -⟩ := mkDifference_eq_ok_iff.1 hnum
    obtain ⟨rfl, -⟩ := mkRatio_eq_ok_iff.1 hm
    have hk := not_mem_intersect_of_mkSquare l k hsquare
    have hl : Agrees I dim _ _ :=
      ⟨(hdl.derived hn.1 hmark.1).outer_perm, ihl hn.1 hmark.1 hcalc.1⟩
    have hr : Agrees I dim _ _ :=
      ⟨(hdr.derived hn.2.1 hmark.2).outer_perm, ihr hn.2.1 hmark.2 hcalc.2⟩
    rw [value_derivative_ratio hC hk]
    apply value_ratio_square hC hn.2.1 hsquare
    rw [value_difference, value_product_left hC hn.1 hn.2.1 hk hl,
      value_product_right hC hn.1 hn.2.1 hk hr, ← sumLabels_sub]
    simp only [mul_comm]
  | renameRatio fresh hk hfl hfr _ ih =>
    have hperm := symmetricDifference_bind_rename hn.1 hn.2.1 hk hfl hfr
    rw [ih ⟨⟨hn.1, Index.length_rename _ _ _⟩, ⟨hn.2.1, Index.length_rename _ _ _⟩, rfl,
      hperm.length_eq.trans_le hn.2.2.2⟩ hmark hcalc]
    exact ((agrees_ratio_rename hn.1 hn.2.1 hk hfl hfr).derivative [_]).value_eq ρ
  | @power u q labels k du lower coefficient m hd hlower hcoefficient hm ih =>
    rw [Expr.hasDerivative, Bool.or_eq_false_iff] at hmark
    rw [Expr.calculable, Bool.and_eq_true] at hcalc
    obtain ⟨z, _, hz⟩ := eq_int_of_isInteger hcalc.2
    cases hz
    obtain ⟨rfl, -⟩ := mkPower_eq_ok_iff.1 hlower
    obtain ⟨rfl, -⟩ := mkProduct_eq_ok_iff.1 hcoefficient
    obtain ⟨rfl, -⟩ := mkProduct_eq_ok_iff.1 hm
    -- The exponent is an integer, so the power rule is that of a `zpow`.
    have hexponent : (z : Rat) - 1 = ((z - 1 : ℤ) : Rat) := by push_cast; rfl
    have hlower : value I dim (Expr.power u (number (.exact ((z : Rat) - 1)))) ρ
        = value I dim u ρ ^ (z - 1) := by
      rw [hexponent]
      exact value_power_int hC u (z - 1) []
    rw [value_derivative_power hC hn.2.2.1, value_product_of_rank_zero (by simp [outer, number]),
      value_product_of_rank_zero rfl, hlower, ih hn.1 hmark.1 hcalc.1]
    simp [value, number, Interpretation.literal]
  | apply hslope hd hm ih =>
    rw [Expr.calculable, Bool.and_eq_true] at hcalc
    rw [functionDerivative_eq_slope hslope] at hm
    obtain ⟨rfl, -⟩ := mkProduct_eq_ok_iff.1 hm
    rw [value_rank_zero_derivative hC rfl, value_product_of_rank_zero (outer_slope _ hn.2),
      value_slope hC _ hn.2, ih hn.1 hmark hcalc.2, value_rank_zero_derivative hC hn.2, value_apply,
      hC.apply_slope _ _ _ hcalc.1]
  | @bind e target k d labels m fresh hk hfresh hd hlabels hm ih =>
    have hderived := hd.derived hn.1 hmark
    obtain ⟨f, rfl⟩ := exists_relabelling hn.1.nodup_outer hn.2
    obtain rfl := bind_labels_eq hderived.outer_perm hn.1.nodup_outer hlabels
    obtain ⟨rfl, -⟩ := mkBind_eq_ok_iff.1 hm
    exact value_derivative_bind hC hn.1 hderived.wellFormed hfresh hk
      ⟨hderived.outer_perm, ih hn.1 hmark hcalc⟩
  | renameBind fresh hk hfresh _ ih =>
    rw [ih ⟨hn.1, by rw [Index.length_rename]; exact hn.2⟩ hmark hcalc]
    exact ((agrees_bind_rename hn hk hfresh).derivative [_]).value_eq ρ

end Calculus

end Expr

end Indicial
