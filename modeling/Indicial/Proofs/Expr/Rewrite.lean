import Indicial.Expr.Simplify
import Indicial.Proofs.Expr.Value
import Mathlib.Tactic.Ring

/-!
# Rewriting at the root

`Rewrites` lists the rules of simplification, one constructor for each. A reduction at the root is
one of them (`reduceRoot_rewrites`), and on well-formed expressions a reduction fails only at a power
of zero with a negative exponent (`reduceRoot_error`). Every rule keeps well-formedness and the free
labels up to order; as long as literals are exact and none is folded into a floating-point number, it
keeps the value too (`Rewrites.agrees`).
-/

namespace Indicial.Expr

open Indicial.Valuation

/-- The rules of simplification. -/
inductive Rewrites : Expr → Expr → Prop where
  | addLiterals {x y i j} :
    Rewrites (sum (literal x i) (literal y j)) (literal (x.add y) i)
  | addZero {a b} :
    b.isZero → Rewrites (sum a b) a
  | zeroAdd {a b} :
    a.isZero → Rewrites (sum a b) b
  | negateAdd {b c} :
    Rewrites (sum (negate c) b) (difference b c)
  | addNegate {a c} :
    Rewrites (sum a (negate c)) (difference a c)
  | double {a b} :
    a.same b → Rewrites (sum a b) (product (number (Literal.ofInt 2)) a)
  | subtractLiterals {x y i j} :
    Rewrites (difference (literal x i) (literal y j)) (literal (x.sub y) i)
  | subtractZero {a b} :
    b.isZero → Rewrites (difference a b) a
  | zeroSubtract {a b} :
    a.isZero → Rewrites (difference a b) (negate b)
  | subtractNegate {a c} :
    Rewrites (difference a (negate c)) (sum a c)
  | cancel {a b} :
    a.same b → Rewrites (difference a b) (literal (Literal.ofInt 0) a.outer)
  | multiplyZero {a b} :
    a.isZero ∨ b.isZero →
    Rewrites (product a b)
      (literal (Literal.ofInt 0) (Index.symmetricDifference a.outer b.outer))
  | multiplyLiterals {x y i j} :
    Index.intersect i j = [] →
    Rewrites (product (literal x i) (literal y j))
      (literal (x.mul y) (Index.symmetricDifference i j))
  | oneMultiply {a b} :
    a.isOne → Rewrites (product a b) b
  | multiplyOne {a b} :
    b.isOne → Rewrites (product a b) a
  | commute {a b} :
    Rewrites (product a b) (product b a)
  | mergeCoefficients {x y r} :
    Rewrites (product (literal x []) (product (literal y []) r)) (product (number (x.mul y)) r)
  | divideZero {a b} :
    a.isZero →
    Rewrites (ratio a b)
      (literal (Literal.ofInt 0) (Index.symmetricDifference a.outer b.outer))
  | divideLiterals {x y z i j} :
    Index.intersect i j = [] → x.div y = .ok z →
    Rewrites (ratio (literal x i) (literal y j)) (literal z (Index.symmetricDifference i j))
  | divideOne {a b} :
    b.isOne → Rewrites (ratio a b) a
  | negateLiteral {x i} :
    Rewrites (negate (literal x i)) (literal x.neg i)
  | negateNegate {c} :
    Rewrites (negate (negate c)) c
  | negateCoefficient {x r} :
    Rewrites (negate (product (literal x []) r)) (product (number x.neg) r)
  | raiseLiterals {x y z i j} :
    x.pow y = .ok z → Rewrites (power (literal x i) (literal y j)) (number z)
  | raiseOne {u e} :
    e.isOne → Rewrites (power u e) u
  | raiseZero {u e} :
    e.isZero → Rewrites (power u e) one
  | applyLiteral {f x i} :
    Rewrites (apply f (literal x i)) (number (.float (f.applyBits x.toBinary64)))
  | bindIdentity {e} :
    Rewrites (bind e e.outer) e
  | bindLiteral {x i target} :
    target.Nodup → Rewrites (bind (literal x i) target) (literal x target)

/-! ### Reductions are rules -/

section Inversion

variable {a b e m u : Expr}

/-- The rules for sums rewrite. -/
lemma reduceSum_rewrites (h : reduceSum a b = .ok (some m)) : Rewrites (sum a b) m := by
  unfold reduceSum at h
  split at h
  · rename_i x y hx hy
    obtain ⟨rfl, -⟩ := mkBroadcast_eq_ok_iff.1 (some_map_eq_ok_iff.1 h)
    rw [eq_literal_of_literal? hx, eq_literal_of_literal? hy]
    exact .addLiterals
  · split at h
    · cases h
      exact .addZero (by assumption)
    · split at h
      · cases h
        exact .zeroAdd (by assumption)
      · split at h
        · obtain ⟨rfl, -⟩ := mkDifference_eq_ok_iff.1 (some_map_eq_ok_iff.1 h)
          exact .negateAdd
        · obtain ⟨rfl, -⟩ := mkDifference_eq_ok_iff.1 (some_map_eq_ok_iff.1 h)
          exact .addNegate
        · split at h
          · obtain ⟨rfl, -⟩ := mkProduct_eq_ok_iff.1 (some_map_eq_ok_iff.1 h)
            exact .double (by assumption)
          · cases h

/-- The rules for differences rewrite. -/
lemma reduceDifference_rewrites (h : reduceDifference a b = .ok (some m)) :
    Rewrites (difference a b) m := by
  unfold reduceDifference at h
  split at h
  · rename_i x y hx hy
    obtain ⟨rfl, -⟩ := mkBroadcast_eq_ok_iff.1 (some_map_eq_ok_iff.1 h)
    rw [eq_literal_of_literal? hx, eq_literal_of_literal? hy]
    exact .subtractLiterals
  · split at h
    · cases h
      exact .subtractZero (by assumption)
    · split at h
      · cases h
        exact .zeroSubtract (by assumption)
      · split at h
        · obtain ⟨rfl, -⟩ := mkSum_eq_ok_iff.1 (some_map_eq_ok_iff.1 h)
          exact .subtractNegate
        · split at h
          · obtain ⟨rfl, -⟩ := mkBroadcast_eq_ok_iff.1 (some_map_eq_ok_iff.1 h)
            exact .cancel (by assumption)
          · cases h

/-- Merging coefficients rewrites the product of a number. -/
lemma mergeCoefficients_rewrites {x : Literal} (h : mergeCoefficients x b = .ok (some m)) :
    Rewrites (product (literal x []) b) m := by
  unfold mergeCoefficients at h
  split at h
  · obtain ⟨rfl, -⟩ := mkProduct_eq_ok_iff.1 (some_map_eq_ok_iff.1 h)
    exact .mergeCoefficients
  · cases h

/-- The rules for products rewrite. -/
lemma reduceProduct_rewrites (h : reduceProduct a b = .ok (some m)) :
    Rewrites (product a b) m := by
  unfold reduceProduct at h
  split at h
  · rename_i hzero
    obtain ⟨rfl, -⟩ := mkBroadcast_eq_ok_iff.1 (some_map_eq_ok_iff.1 h)
    exact .multiplyZero (by simpa using hzero)
  · split at h
    · rename_i x y hx hy
      split at h
      · rename_i hint
        obtain ⟨rfl, -⟩ := mkBroadcast_eq_ok_iff.1 (some_map_eq_ok_iff.1 h)
        rw [eq_literal_of_literal? hx, eq_literal_of_literal? hy]
        exact .multiplyLiterals (List.isEmpty_iff.1 hint)
      · split at h
        · cases h
          exact .oneMultiply (by assumption)
        · split at h
          · cases h
            exact .multiplyOne (by assumption)
          · cases h
    · rename_i x hx hy
      split at h
      · cases h
        exact .oneMultiply (by assumption)
      · split at h
        · rename_i hcoeff
          have ha := eq_literal_of_literal? hx
          rw [ha, isCoefficient, List.isEmpty_iff] at hcoeff
          rw [ha, hcoeff]
          exact mergeCoefficients_rewrites h
        · cases h
    · split at h
      · cases h
        exact .multiplyOne (by assumption)
      · obtain ⟨rfl, -⟩ := mkProduct_eq_ok_iff.1 (some_map_eq_ok_iff.1 h)
        exact .commute
    · cases h

/-- The rules for quotients rewrite. -/
lemma reduceRatio_rewrites (h : reduceRatio a b = .ok (some m)) : Rewrites (ratio a b) m := by
  unfold reduceRatio at h
  split at h
  · cases h
  · split at h
    · obtain ⟨rfl, -⟩ := mkBroadcast_eq_ok_iff.1 (some_map_eq_ok_iff.1 h)
      exact .divideZero (by assumption)
    · split at h
      · rename_i x y hx hy
        split at h
        · rename_i hint
          obtain ⟨z, hz, h⟩ := bind_eq_ok_iff.1 h
          obtain ⟨rfl, -⟩ := mkBroadcast_eq_ok_iff.1 (some_map_eq_ok_iff.1 h)
          rw [eq_literal_of_literal? hx, eq_literal_of_literal? hy]
          exact .divideLiterals (List.isEmpty_iff.1 hint) hz
        · split at h
          · cases h
            exact .divideOne (by assumption)
          · cases h
      · split at h
        · cases h
          exact .divideOne (by assumption)
        · cases h

/-- The rules for negations rewrite. -/
lemma reduceNegate_rewrites (h : reduceNegate a = .ok (some m)) : Rewrites (negate a) m := by
  unfold reduceNegate at h
  split at h
  · obtain ⟨rfl, -⟩ := mkBroadcast_eq_ok_iff.1 (some_map_eq_ok_iff.1 h)
    exact .negateLiteral
  · cases h
    exact .negateNegate
  · obtain ⟨rfl, -⟩ := mkProduct_eq_ok_iff.1 (some_map_eq_ok_iff.1 h)
    exact .negateCoefficient
  · cases h

/-- The rules for powers rewrite. -/
lemma reducePower_rewrites (h : reducePower u e = .ok (some m)) : Rewrites (power u e) m := by
  unfold reducePower at h
  split at h
  · rename_i x y hx hy
    obtain ⟨z, hz, h⟩ := bind_eq_ok_iff.1 h
    cases h
    rw [eq_literal_of_literal? hx, eq_literal_of_literal? hy]
    exact .raiseLiterals hz
  · split at h
    · cases h
      exact .raiseOne (by assumption)
    · split at h
      · cases h
        exact .raiseZero (by assumption)
      · cases h

/-- The rules for bindings rewrite. -/
lemma reduceBind_rewrites {target : Index} (h : reduceBind e target = .ok (some m)) :
    Rewrites (bind e target) m := by
  unfold reduceBind at h
  split at h
  · rename_i heq
    cases h
    rw [← heq]
    exact .bindIdentity
  · split at h
    · split at h
      · obtain ⟨rfl, hnodup⟩ := mkBroadcast_eq_ok_iff.1 (some_map_eq_ok_iff.1 h)
        exact .bindLiteral hnodup
      · cases h
    · cases h

/-- A reduction at the root is one of the rules. -/
theorem reduceRoot_rewrites {n : Expr} (h : reduceRoot n = .ok (some m)) : Rewrites n m := by
  unfold reduceRoot at h
  split at h
  · exact reduceSum_rewrites h
  · exact reduceDifference_rewrites h
  · exact reduceProduct_rewrites h
  · exact reduceRatio_rewrites h
  · exact reduceNegate_rewrites h
  · exact reducePower_rewrites h
  · split at h
    · cases h
      exact .applyLiteral
    · cases h
  · exact reduceBind_rewrites h
  · cases h

/-! ### When reductions fail -/

/-- A power of literals fails only for zero to a negative exponent. -/
lemma literal_pow_error {x y : Literal} {f : Fault} (h : x.pow y = .error f) :
    x = .exact 0 ∧ ∃ q : Rat, y = .exact q ∧ q < 0 ∧ f = .zeroToNegative q.num := by
  unfold Literal.pow at h
  split at h
  · rename_i p q
    split at h
    · split at h
      · rename_i hneg
        rw [Bool.and_eq_true, decide_eq_true_eq, beq_iff_eq] at hneg
        rw [hneg.2]
        cases h
        exact ⟨rfl, q, rfl, Rat.num_neg.1 hneg.1, rfl⟩
      · split at h <;> cases h
    · cases h
  · cases h

/-- The rules for sums do not fail. -/
lemma reduceSum_ne_error {f : Fault} (h : (sum a b).WellFormed) : reduceSum a b ≠ .error f := by
  obtain ⟨ha, hb, hperm⟩ := h
  intro h
  unfold reduceSum at h
  split at h
  · rw [mkBroadcast_eq_ok_iff.2 ⟨rfl, ha.nodup_outer⟩] at h
    cases h
  · split at h
    · cases h
    · split at h
      · cases h
      · split at h
        · rename_i c _ _
          have hperm' : b.outer.Perm c.outer := hperm.symm
          rw [mkDifference_eq_ok_iff.2 ⟨rfl, hperm'⟩] at h
          cases h
        · rename_i c _ _ _
          have hperm' : a.outer.Perm c.outer := hperm
          rw [mkDifference_eq_ok_iff.2 ⟨rfl, hperm'⟩] at h
          cases h
        · split at h
          · rw [mkProduct_eq_ok_iff.2
              ⟨rfl, by simpa [number, outer] using ha.length_outer_le⟩] at h
            cases h
          · cases h

/-- The rules for differences do not fail. -/
lemma reduceDifference_ne_error {f : Fault} (h : (difference a b).WellFormed) :
    reduceDifference a b ≠ .error f := by
  obtain ⟨ha, hb, hperm⟩ := h
  intro h
  unfold reduceDifference at h
  split at h
  · rw [mkBroadcast_eq_ok_iff.2 ⟨rfl, ha.nodup_outer⟩] at h
    cases h
  · split at h
    · cases h
    · split at h
      · cases h
      · split at h
        · rename_i c _ _
          have hperm' : a.outer.Perm c.outer := hperm
          rw [mkSum_eq_ok_iff.2 ⟨rfl, hperm'⟩] at h
          cases h
        · split at h
          · rw [mkZero, mkBroadcast_eq_ok_iff.2 ⟨rfl, ha.nodup_outer⟩] at h
            cases h
          · cases h

/-- Merging coefficients does not fail. -/
lemma mergeCoefficients_ne_error {x : Literal} {f : Fault} (hb : b.WellFormed) :
    mergeCoefficients x b ≠ .error f := by
  intro h
  unfold mergeCoefficients at h
  split at h
  · rw [mkProduct_eq_ok_iff.2
      ⟨rfl, by simpa [number, outer] using hb.2.1.length_outer_le⟩] at h
    cases h
  · cases h

/-- The rules for products do not fail. -/
lemma reduceProduct_ne_error {f : Fault} (hn : (product a b).WellFormed) :
    reduceProduct a b ≠ .error f := by
  have hnodup : (Index.symmetricDifference a.outer b.outer).Nodup := hn.nodup_outer
  obtain ⟨ha, hb, hle⟩ := hn
  intro h
  unfold reduceProduct at h
  dsimp only at h
  split at h
  · rw [mkZero, mkBroadcast_eq_ok_iff.2 ⟨rfl, hnodup⟩] at h
    cases h
  · split at h
    · split at h
      · rw [mkBroadcast_eq_ok_iff.2 ⟨rfl, hnodup⟩] at h
        cases h
      · split at h
        · cases h
        · split at h <;> cases h
    · split at h
      · cases h
      · split at h
        · exact mergeCoefficients_ne_error hb h
        · cases h
    · split at h
      · cases h
      · rw [mkProduct_eq_ok_iff.2
          ⟨rfl, (Index.symmetricDifference_comm _ _).length_eq.trans_le hle⟩] at h
        cases h
    · cases h

/-- The rules for quotients do not fail. -/
lemma reduceRatio_ne_error {f : Fault} (hn : (ratio a b).WellFormed) :
    reduceRatio a b ≠ .error f := by
  have hnodup : (Index.symmetricDifference a.outer b.outer).Nodup := hn.nodup_outer
  obtain ⟨ha, hb, hzero, hle⟩ := hn
  intro h
  unfold reduceRatio at h
  dsimp only at h
  rw [if_neg (by simp [hzero])] at h
  split at h
  · rw [mkZero, mkBroadcast_eq_ok_iff.2 ⟨rfl, hnodup⟩] at h
    cases h
  · split at h
    · rename_i x y hx hy
      split at h
      · rw [eq_literal_of_literal? hy] at hzero
        rcases bind_eq_error_iff.1 h with hdiv | ⟨z, -, h⟩
        · have hy : y.isZero = false := hzero
          unfold Literal.div at hdiv
          rw [if_neg (by simp [hy])] at hdiv
          split at hdiv <;> cases hdiv
        · rw [mkBroadcast_eq_ok_iff.2 ⟨rfl, hnodup⟩] at h
          cases h
      · split at h <;> cases h
    · split at h <;> cases h

/-- A reduction of a well-formed expression fails only at a negative power of zero. -/
theorem reduceRoot_error {n : Expr} {f : Fault} (hn : n.WellFormed)
    (h : reduceRoot n = .error f) :
    ∃ i j q, n = power (literal (.exact 0) i) (literal (.exact q) j) ∧ q < 0 ∧
      f = .zeroToNegative q.num := by
  unfold reduceRoot at h
  split at h
  · exact absurd h (reduceSum_ne_error hn)
  · exact absurd h (reduceDifference_ne_error hn)
  · exact absurd h (reduceProduct_ne_error hn)
  · exact absurd h (reduceRatio_ne_error hn)
  · rename_i a
    unfold reduceNegate at h
    split at h
    · rw [mkBroadcast_eq_ok_iff.2 ⟨rfl, hn.1⟩] at h
      cases h
    · cases h
    · rw [mkProduct_eq_ok_iff.2
        ⟨rfl, by simpa [number, outer] using hn.2.1.length_outer_le⟩] at h
      cases h
    · cases h
  · rename_i u e
    unfold reducePower at h
    split at h
    · rename_i x y hx hy
      rcases bind_eq_error_iff.1 h with hpow | ⟨z, -, h⟩
      · obtain ⟨rfl, q, rfl, hq⟩ := literal_pow_error hpow
        exact ⟨_, _, q, by rw [eq_literal_of_literal? hx, eq_literal_of_literal? hy], hq⟩
      · cases h
    · split at h
      · cases h
      · split at h <;> cases h
  · split at h <;> cases h
  · rename_i e target
    unfold reduceBind at h
    split at h
    · cases h
    · split at h
      · split at h
        · rename_i hrep
          rw [mkBroadcast_eq_ok_iff.2
            ⟨rfl, Index.repeated_eq_nil_iff.1 (List.isEmpty_iff.1 hrep)⟩] at h
          cases h
        · cases h
      · cases h
  · cases h

end Inversion

/-! ### What the rules keep -/

/-- A rule keeps well-formedness, and the free labels up to order. -/
theorem Rewrites.wellFormed {n m : Expr} (h : Rewrites n m) (hn : n.WellFormed) :
    m.WellFormed ∧ m.outer.Perm n.outer := by
  cases h with
  | addLiterals => exact ⟨hn.1, .refl _⟩
  | addZero => exact ⟨hn.1, .refl _⟩
  | zeroAdd => exact ⟨hn.2.1, hn.2.2.symm⟩
  | negateAdd => exact ⟨⟨hn.2.1, hn.1, hn.2.2.symm⟩, hn.2.2.symm⟩
  | addNegate => exact ⟨⟨hn.1, hn.2.1, hn.2.2⟩, .refl _⟩
  | @double a b =>
    have houter : Index.symmetricDifference (number (Literal.ofInt 2)).outer a.outer = a.outer :=
      Index.nil_symmetricDifference _
    refine ⟨⟨⟨List.nodup_nil, Nat.zero_le _⟩, hn.1, ?_⟩, ?_⟩
    · rw [houter]
      exact hn.1.length_outer_le
    · show (Index.symmetricDifference (number _).outer a.outer).Perm a.outer
      rw [houter]
  | subtractLiterals => exact ⟨hn.1, .refl _⟩
  | subtractZero => exact ⟨hn.1, .refl _⟩
  | zeroSubtract => exact ⟨hn.2.1, hn.2.2.symm⟩
  | subtractNegate => exact ⟨⟨hn.1, hn.2.1, hn.2.2⟩, .refl _⟩
  | cancel => exact ⟨⟨hn.1.nodup_outer, hn.1.length_outer_le⟩, .refl _⟩
  | multiplyZero => exact ⟨⟨hn.nodup_outer, hn.2.2⟩, .refl _⟩
  | multiplyLiterals => exact ⟨⟨hn.nodup_outer, hn.2.2⟩, .refl _⟩
  | oneMultiply hone =>
    obtain ⟨x, rfl, -⟩ := eq_literal_of_isOne hone
    exact ⟨hn.2.1, by simp [outer]⟩
  | multiplyOne hone =>
    obtain ⟨x, rfl, -⟩ := eq_literal_of_isOne hone
    exact ⟨hn.1, by simp [outer]⟩
  | @commute a b =>
    have hcomm := Index.symmetricDifference_comm b.outer a.outer
    exact ⟨⟨hn.2.1, hn.1, hcomm.length_eq.trans_le hn.2.2⟩, hcomm⟩
  | mergeCoefficients =>
    refine ⟨⟨⟨List.nodup_nil, Nat.zero_le _⟩, hn.2.1.2.1, ?_⟩, by simp [outer, number]⟩
    simpa [outer, number] using hn.2.1.2.1.length_outer_le
  | divideZero => exact ⟨⟨hn.nodup_outer, hn.2.2.2⟩, .refl _⟩
  | divideLiterals => exact ⟨⟨hn.nodup_outer, hn.2.2.2⟩, .refl _⟩
  | divideOne hone =>
    obtain ⟨x, rfl, -⟩ := eq_literal_of_isOne hone
    exact ⟨hn.1, by simp [outer]⟩
  | negateLiteral => exact ⟨hn, .refl _⟩
  | negateNegate => exact ⟨hn, .refl _⟩
  | negateCoefficient => exact ⟨⟨⟨List.nodup_nil, Nat.zero_le _⟩, hn.2.1, hn.2.2⟩, .refl _⟩
  | raiseLiterals => exact ⟨⟨List.nodup_nil, Nat.zero_le _⟩, .refl _⟩
  | raiseOne => exact ⟨hn.1, by simp [hn.2.2.1, outer]⟩
  | raiseZero => exact ⟨⟨List.nodup_nil, Nat.zero_le _⟩, .refl _⟩
  | applyLiteral => exact ⟨⟨List.nodup_nil, Nat.zero_le _⟩, .refl _⟩
  | bindIdentity =>
    refine ⟨hn.1, ?_⟩
    simp only [outer]
    rw [Index.exclusive_eq_self hn.1.nodup_outer]
  | bindLiteral hnodup =>
    refine ⟨⟨hnodup, ?_⟩, ?_⟩
    · rw [hn.2]
      exact hn.1.length_outer_le
    · simp only [outer]
      rw [Index.exclusive_eq_self hnodup]

/-- A rule makes no mark for a derivative. -/
lemma Rewrites.hasDerivative {n m : Expr} (h : Rewrites n m) (hn : n.hasDerivative = false) :
    m.hasDerivative = false := by
  cases h <;> simp_all [Expr.hasDerivative, number, one]

/-! ### Exact literals -/

/-- Whether every literal is exact. -/
def exactLiterals : Expr → Bool
  | literal x _ => !x.isFloat
  | tensor .. | delta _ | epsilon _ | scalar _ => true
  | negate e | apply _ e | bind e _ | derivative e _ => e.exactLiterals
  | sum l r | difference l r | product l r | ratio l r | power l r =>
    l.exactLiterals && r.exactLiterals

/-- Whether reducing the root folds literals into a floating-point number: a function of a literal
does, and a power of literals outside the range of exact powers. -/
def foldsToFloat : Expr → Bool
  | apply _ (literal ..) => true
  | power (literal x _) (literal y _) =>
    match x.pow y with
    | .ok z => z.isFloat
    | .error _ => false
  | _ => false

/-- A literal that is no float is a rational number. -/
lemma eq_exact_of_isFloat {x : Literal} (h : x.isFloat = false) : ∃ q, x = .exact q := by
  cases x with
  | exact q => exact ⟨q, rfl⟩
  | float => cases h

/-- A rule keeps literals exact, unless it folds them into a floating-point number. -/
lemma Rewrites.exactLiterals {n m : Expr} (h : Rewrites n m) (hx : n.exactLiterals = true)
    (hfold : n.foldsToFloat = false) : m.exactLiterals = true := by
  cases h with
  | @addLiterals x y =>
    cases x <;> cases y <;> simp_all [Expr.exactLiterals, Literal.isFloat, Literal.add]
  | @subtractLiterals x y =>
    cases x <;> cases y <;> simp_all [Expr.exactLiterals, Literal.isFloat, Literal.sub]
  | @multiplyLiterals x y =>
    cases x <;> cases y <;> simp_all [Expr.exactLiterals, Literal.isFloat, Literal.mul]
  | @mergeCoefficients x y =>
    cases x <;> cases y <;> simp_all [Expr.exactLiterals, Literal.isFloat, Literal.mul, number]
  | @divideLiterals x y z _ _ _ hdiv =>
    cases x <;> cases y <;> simp_all [Expr.exactLiterals, Literal.isFloat]
    unfold Literal.div at hdiv
    split at hdiv <;> cases hdiv
    rfl
  | @negateLiteral x => cases x <;> simp_all [Expr.exactLiterals, Literal.isFloat, Literal.neg]
  | @negateCoefficient x =>
    cases x <;> simp_all [Expr.exactLiterals, Literal.isFloat, Literal.neg, number]
  | raiseLiterals hpow => simpa [foldsToFloat, hpow, Expr.exactLiterals, number] using hfold
  | applyLiteral => cases hfold
  | _ => simp_all [Expr.exactLiterals, Literal.isFloat, Literal.ofInt, number, one]

/-- Expressions of the same structure with exact literals are equal. -/
lemma eq_of_same {a b : Expr} (h : a.same b = true) (ha : a.exactLiterals = true) : a = b := by
  induction a generalizing b with
  | literal x i =>
    cases b with
    | literal y j =>
      -- Literals are compared as numbers, which for exact ones is equality.
      rw [same, Bool.and_eq_true, beq_iff_eq] at h
      obtain ⟨q, rfl⟩ := eq_exact_of_isFloat (by simpa [exactLiterals] using ha)
      cases y with
      | exact p =>
        have hqp : q = p := by simpa [Literal.same] using h.2
        rw [h.1, hqp]
      | float => cases h.2
    | _ => cases h
  | tensor s i => cases b <;> simp_all [same]
  | delta i => cases b <;> simp_all [same]
  | epsilon i => cases b <;> simp_all [same]
  | scalar r => cases b <;> simp_all [same]
  | negate a ih =>
    cases b with
    | negate b => rw [ih h ha]
    | _ => cases h
  | apply f a ih =>
    cases b with
    | apply g b =>
      rw [same, Bool.and_eq_true, beq_iff_eq] at h
      rw [h.1, ih h.2 ha]
    | _ => cases h
  | bind a i ih =>
    cases b with
    | bind b j =>
      rw [same, Bool.and_eq_true, beq_iff_eq] at h
      rw [h.1, ih h.2 ha]
    | _ => cases h
  | derivative a i ih =>
    cases b with
    | derivative b j =>
      rw [same, Bool.and_eq_true, beq_iff_eq] at h
      rw [h.1, ih h.2 ha]
    | _ => cases h
  | sum l r ihl ihr =>
    cases b with
    | sum l' r' =>
      rw [same, Bool.and_eq_true] at h
      rw [exactLiterals, Bool.and_eq_true] at ha
      rw [ihl h.1 ha.1, ihr h.2 ha.2]
    | _ => cases h
  | difference l r ihl ihr =>
    cases b with
    | difference l' r' =>
      rw [same, Bool.and_eq_true] at h
      rw [exactLiterals, Bool.and_eq_true] at ha
      rw [ihl h.1 ha.1, ihr h.2 ha.2]
    | _ => cases h
  | product l r ihl ihr =>
    cases b with
    | product l' r' =>
      rw [same, Bool.and_eq_true] at h
      rw [exactLiterals, Bool.and_eq_true] at ha
      rw [ihl h.1 ha.1, ihr h.2 ha.2]
    | _ => cases h
  | ratio l r ihl ihr =>
    cases b with
    | ratio l' r' =>
      rw [same, Bool.and_eq_true] at h
      rw [exactLiterals, Bool.and_eq_true] at ha
      rw [ihl h.1 ha.1, ihr h.2 ha.2]
    | _ => cases h
  | power l r ihl ihr =>
    cases b with
    | power l' r' =>
      rw [same, Bool.and_eq_true] at h
      rw [exactLiterals, Bool.and_eq_true] at ha
      rw [ihl h.1 ha.1, ihr h.2 ha.2]
    | _ => cases h

/-! ### Rules keep values -/

section Agreement

variable {K : Type*} [Field K] {I : Interpretation K} {dim : Nat}

/-- An exact literal stands for its number. -/
@[simp] lemma literal_exact (q : Rat) : I.literal (.exact q) = (q : K) := rfl

/-- An integer literal stands for its number. -/
@[simp] lemma literal_ofInt (z : Int) : I.literal (.ofInt z) = (z : K) := by
  simp [Literal.ofInt]

/-- A literal zero stands for zero. -/
lemma literal_of_isZero {x : Literal} (hx : x.isFloat = false) (h : x.isZero = true) :
    I.literal x = 0 := by
  obtain ⟨q, rfl⟩ := eq_exact_of_isFloat hx
  obtain rfl : q = 0 := by simpa [Literal.isZero] using h
  simp

/-- A literal one stands for one. -/
lemma literal_of_isOne {x : Literal} (hx : x.isFloat = false) (h : x.isOne = true) :
    I.literal x = 1 := by
  obtain ⟨q, rfl⟩ := eq_exact_of_isFloat hx
  obtain rfl : q = 1 := by simpa [Literal.isOne] using h
  simp

/-- A zero has the value zero. -/
lemma value_of_isZero {e : Expr} (hx : e.exactLiterals = true) (h : e.isZero = true)
    (ρ : Valuation) : value I dim e ρ = 0 := by
  obtain ⟨x, he, hzero⟩ := eq_literal_of_isZero h
  rw [he] at hx ⊢
  exact literal_of_isZero (by simpa [exactLiterals] using hx) hzero

/-- A one has the value one. -/
lemma value_of_isOne {e : Expr} (hx : e.exactLiterals = true) (h : e.isOne = true)
    (ρ : Valuation) : value I dim e ρ = 1 := by
  obtain ⟨x, rfl, hone⟩ := eq_literal_of_isOne h
  exact literal_of_isOne (by simpa [exactLiterals] using hx) hone

/-- A coefficient multiplies the value. -/
lemma value_coefficient_product (x : Literal) (r : Expr) (ρ : Valuation) :
    value I dim (product (literal x []) r) ρ = I.literal x * value I dim r ρ :=
  value_product_of_rank_zero rfl

variable {x y z : Literal}

/-- Negating a literal negates its number. -/
lemma literal_neg (hx : x.isFloat = false) : I.literal x.neg = -I.literal x := by
  obtain ⟨q, rfl⟩ := eq_exact_of_isFloat hx
  exact Rat.cast_neg q

/-- A power of exact literals that is exact stands for the power. -/
lemma literal_pow (hI : I.ExactPowers) (hx : x.isFloat = false) (hy : y.isFloat = false)
    (hz : z.isFloat = false) (h : x.pow y = .ok z) :
    I.literal z = I.power (I.literal x) (I.literal y) := by
  obtain ⟨p, rfl⟩ := eq_exact_of_isFloat hx
  obtain ⟨q, rfl⟩ := eq_exact_of_isFloat hy
  obtain ⟨r, rfl⟩ := eq_exact_of_isFloat hz
  exact (hI.power_exact p q r h).symm

variable [CharZero K]

/-- The sum of exact literals stands for the sum. -/
lemma literal_add (hx : x.isFloat = false) (hy : y.isFloat = false) :
    I.literal (x.add y) = I.literal x + I.literal y := by
  obtain ⟨p, rfl⟩ := eq_exact_of_isFloat hx
  obtain ⟨q, rfl⟩ := eq_exact_of_isFloat hy
  exact Rat.cast_add p q

/-- The difference of exact literals stands for the difference. -/
lemma literal_sub (hx : x.isFloat = false) (hy : y.isFloat = false) :
    I.literal (x.sub y) = I.literal x - I.literal y := by
  obtain ⟨p, rfl⟩ := eq_exact_of_isFloat hx
  obtain ⟨q, rfl⟩ := eq_exact_of_isFloat hy
  exact Rat.cast_sub p q

/-- The product of exact literals stands for the product. -/
lemma literal_mul (hx : x.isFloat = false) (hy : y.isFloat = false) :
    I.literal (x.mul y) = I.literal x * I.literal y := by
  obtain ⟨p, rfl⟩ := eq_exact_of_isFloat hx
  obtain ⟨q, rfl⟩ := eq_exact_of_isFloat hy
  exact Rat.cast_mul p q

/-- The quotient of exact literals stands for the quotient. -/
lemma literal_div (hx : x.isFloat = false) (hy : y.isFloat = false) (h : x.div y = .ok z) :
    I.literal z = I.literal x / I.literal y := by
  obtain ⟨p, rfl⟩ := eq_exact_of_isFloat hx
  obtain ⟨q, rfl⟩ := eq_exact_of_isFloat hy
  unfold Literal.div at h
  split at h
  · cases h
  · cases h
    exact Rat.cast_div p q

/-- A rule keeps the value of an expression with exact literals, unless it folds them into a
floating-point number. -/
theorem Rewrites.value_eq (hI : I.ExactPowers) {n m : Expr} (h : Rewrites n m)
    (hn : n.WellFormed) (hx : n.exactLiterals = true) (hfold : n.foldsToFloat = false)
    (ρ : Valuation) : value I dim m ρ = value I dim n ρ := by
  -- Each rule folds exact literals, where rational arithmetic is that of the field, or drops an
  -- operand whose value is zero or one.
  cases h with
  | addLiterals =>
    simp only [Expr.exactLiterals, Bool.and_eq_true, Bool.not_eq_true'] at hx
    exact literal_add hx.1 hx.2
  | addZero hzero =>
    rw [Expr.exactLiterals, Bool.and_eq_true] at hx
    simp [value, value_of_isZero hx.2 hzero]
  | zeroAdd hzero =>
    rw [Expr.exactLiterals, Bool.and_eq_true] at hx
    simp [value, value_of_isZero hx.1 hzero]
  | negateAdd =>
    simp only [value]
    ring
  | addNegate =>
    simp only [value]
    ring
  | double hsame =>
    rw [Expr.exactLiterals, Bool.and_eq_true] at hx
    rw [number, value_coefficient_product, literal_ofInt, value, ← eq_of_same hsame hx.1]
    push_cast
    ring
  | subtractLiterals =>
    simp only [Expr.exactLiterals, Bool.and_eq_true, Bool.not_eq_true'] at hx
    exact literal_sub hx.1 hx.2
  | subtractZero hzero =>
    rw [Expr.exactLiterals, Bool.and_eq_true] at hx
    simp [value, value_of_isZero hx.2 hzero]
  | zeroSubtract hzero =>
    rw [Expr.exactLiterals, Bool.and_eq_true] at hx
    simp [value, value_of_isZero hx.1 hzero]
  | subtractNegate =>
    simp only [value]
    ring
  | cancel hsame =>
    rw [Expr.exactLiterals, Bool.and_eq_true] at hx
    simp [value, ← eq_of_same hsame hx.1]
  | multiplyZero hzero =>
    rw [Expr.exactLiterals, Bool.and_eq_true] at hx
    rcases hzero with hzero | hzero
    · simp [value, value_of_isZero hx.1 hzero]
    · simp [value, value_of_isZero hx.2 hzero]
  | multiplyLiterals hint =>
    simp only [Expr.exactLiterals, Bool.and_eq_true, Bool.not_eq_true'] at hx
    simp only [value, outer, hint, sumLabels_nil]
    exact literal_mul hx.1 hx.2
  | oneMultiply hone =>
    rw [Expr.exactLiterals, Bool.and_eq_true] at hx
    obtain ⟨x, rfl, hone⟩ := eq_literal_of_isOne hone
    have hx := literal_of_isOne (I := I) (by simpa [Expr.exactLiterals] using hx.1) hone
    rw [value_coefficient_product, hx, one_mul]
  | multiplyOne hone =>
    rw [Expr.exactLiterals, Bool.and_eq_true] at hx
    obtain ⟨x, rfl, hone⟩ := eq_literal_of_isOne hone
    have hx := literal_of_isOne (I := I) (by simpa [Expr.exactLiterals] using hx.2) hone
    simp [value, outer, hx]
  | commute =>
    simp only [value]
    rw [sumLabels_perm (Index.intersect_comm _ _)]
    simp only [mul_comm]
  | mergeCoefficients =>
    simp only [Expr.exactLiterals, Bool.and_eq_true, Bool.not_eq_true'] at hx
    simp only [number, value_coefficient_product, literal_mul hx.1 hx.2.1, mul_assoc]
  | divideZero hzero =>
    rw [Expr.exactLiterals, Bool.and_eq_true] at hx
    simp [value, value_of_isZero hx.1 hzero]
  | divideLiterals hint hdiv =>
    simp only [Expr.exactLiterals, Bool.and_eq_true, Bool.not_eq_true'] at hx
    simp only [value, outer, hint, sumLabels_nil]
    exact literal_div hx.1 hx.2 hdiv
  | divideOne hone =>
    rw [Expr.exactLiterals, Bool.and_eq_true] at hx
    obtain ⟨x, rfl, hone⟩ := eq_literal_of_isOne hone
    have hx := literal_of_isOne (I := I) (by simpa [Expr.exactLiterals] using hx.2) hone
    simp [value, outer, hx]
  | negateLiteral =>
    exact literal_neg (by simpa [Expr.exactLiterals] using hx)
  | negateNegate => simp [value]
  | negateCoefficient =>
    simp only [Expr.exactLiterals, Bool.and_eq_true, Bool.not_eq_true'] at hx
    rw [number, value_coefficient_product, value, value_coefficient_product, literal_neg hx.1,
      neg_mul]
  | raiseLiterals hpow =>
    simp only [Expr.exactLiterals, Bool.and_eq_true, Bool.not_eq_true'] at hx
    exact literal_pow hI hx.1 hx.2 (by simpa [foldsToFloat, hpow] using hfold) hpow
  | raiseOne hone =>
    rw [Expr.exactLiterals, Bool.and_eq_true] at hx
    rw [value, value_of_isOne hx.2 hone, hI.power_one]
  | raiseZero hzero =>
    rw [Expr.exactLiterals, Bool.and_eq_true] at hx
    rw [value, value_of_isZero hx.2 hzero, hI.power_zero]
    simp [one, number, value]
  | applyLiteral => cases hfold
  | bindIdentity =>
    have hbind : value I dim _ ρ = _ := value_bind_map hn.1 id ρ
    rw [List.map_id, Index.repeated_eq_nil_iff.2 hn.1.nodup_outer] at hbind
    exact hbind.symm
  | bindLiteral hnodup => simp [value, Index.repeated_eq_nil_iff.2 hnodup]

/-- An expression and what a rule makes of it agree. -/
theorem Rewrites.agrees (hI : I.ExactPowers) {n m : Expr} (h : Rewrites n m)
    (hn : n.WellFormed) (hx : n.exactLiterals = true) (hfold : n.foldsToFloat = false) :
    Agrees I dim m n :=
  ⟨(h.wellFormed hn).2, h.value_eq hI hn hx hfold⟩

end Agreement

end Indicial.Expr
