import Indicial.Proofs.Expr.Component

/-!
# Components are scalar expressions

A scalar expression is made of numbers, scalars, sums, differences, products, ratios, negations, powers
and functions (`IsScalar`); it has no labels at all. Evaluating an expression gives such expressions,
since contractions, relabellings and symbols are worked out, and the rules of simplification keep them.

So the components of an expression are scalar expressions, one for each assignment of its free labels in
row-major order over the labels asked for, and each of them has the value of the expression under its
assignment (`components_faithful`).
-/

namespace Indicial.Expr

open Odometer Indicial.Valuation

/-- An expression of numbers and scalars, without labels. -/
def IsScalar : Expr → Prop
  | literal _ labels => labels = []
  | scalar _ => True
  | negate e | apply _ e => e.IsScalar
  | sum l r | difference l r | product l r | ratio l r | power l r => l.IsScalar ∧ r.IsScalar
  | tensor .. | delta _ | epsilon _ | bind .. | derivative .. => False

variable {constant : Constancy} {dim : Int64} {D : Nat} {n m l r l' r' : Expr} {e : Assignment}

/-- A scalar expression has no free labels. -/
lemma IsScalar.outer (h : n.IsScalar) : n.outer = [] := by
  induction n with
  | literal => exact h
  | scalar => rfl
  | negate e ih => exact ih h
  | apply => rfl
  | sum l r ihl _ => exact ihl h.1
  | difference l r ihl _ => exact ihl h.1
  | product l r ihl ihr => rw [Expr.outer, ihl h.1, ihr h.2, Index.nil_symmetricDifference]
  | ratio l r ihl ihr => rw [Expr.outer, ihl h.1, ihr h.2, Index.nil_symmetricDifference]
  | power => rfl
  | _ => exact h.elim

/-- Operands of a scalar expression are scalar. -/
lemma isScalar_operands (hops : n.operands? = some (l, r)) (hn : n.IsScalar) :
    l.IsScalar ∧ r.IsScalar := by
  cases n with
  | negate | apply =>
    cases hops
    exact ⟨hn, hn⟩
  | sum | difference | product | ratio | power =>
    cases hops
    exact hn
  | bind | derivative => exact hn.elim
  | _ => cases hops

/-- A scalar node with scalar operands is scalar. -/
lemma rebuild_isScalar (hops : n.operands? = some (l, r)) (hn : n.IsScalar) (hl : l'.IsScalar)
    (hr : r'.IsScalar) (h : rebuild n l' r' = .ok m) : m.IsScalar := by
  cases n with
  | negate =>
    cases h
    exact hl
  | apply f =>
    obtain ⟨rfl, -⟩ := mkApply_eq_ok_iff.1 h
    exact hl
  | sum =>
    obtain ⟨rfl, -⟩ := mkSum_eq_ok_iff.1 h
    exact ⟨hl, hr⟩
  | difference =>
    obtain ⟨rfl, -⟩ := mkDifference_eq_ok_iff.1 h
    exact ⟨hl, hr⟩
  | product =>
    obtain ⟨rfl, -⟩ := mkProduct_eq_ok_iff.1 h
    exact ⟨hl, hr⟩
  | ratio =>
    obtain ⟨rfl, -⟩ := mkRatio_eq_ok_iff.1 h
    exact ⟨hl, hr⟩
  | power =>
    obtain ⟨rfl, -⟩ := mkPower_eq_ok_iff.1 h
    exact ⟨hl, hr⟩
  | bind | derivative => exact hn.elim
  | _ => cases hops

/-- A rule keeps parts of a scalar expression, or leaves a number without labels. -/
lemma Rewrites.isScalar (h : Rewrites n m) (hn : n.IsScalar) : m.IsScalar := by
  cases h with
  | addZero => exact hn.1
  | zeroAdd => exact hn.2
  | negateAdd => exact ⟨hn.2, hn.1⟩
  | addNegate => exact hn
  | double => exact ⟨rfl, hn.1⟩
  | subtractZero => exact hn.1
  | zeroSubtract => exact hn.2
  | subtractNegate => exact hn
  | oneMultiply => exact hn.2
  | multiplyOne => exact hn.1
  | commute => exact ⟨hn.2, hn.1⟩
  | mergeCoefficients => exact ⟨rfl, hn.2.2⟩
  | divideOne => exact hn.1
  | negateNegate => exact hn
  | negateCoefficient => exact ⟨rfl, hn.2⟩
  | raiseOne => exact hn.1
  | addLiterals => exact hn.1
  | subtractLiterals => exact hn.1
  | cancel => exact hn.1.outer
  | multiplyZero | divideZero =>
    rw [IsScalar, hn.1.outer, hn.2.outer, Index.nil_symmetricDifference]
  | @multiplyLiterals x y i j =>
    obtain ⟨rfl, rfl⟩ : i = [] ∧ j = [] := hn
    rfl
  | @divideLiterals x y z i j =>
    obtain ⟨rfl, rfl⟩ : i = [] ∧ j = [] := hn
    rfl
  | negateLiteral => exact hn
  | raiseLiterals | raiseZero | applyLiteral => rfl
  | bindIdentity | bindLiteral => exact hn.elim

/-- Simplifying keeps expressions scalar. -/
lemma simplify_isScalar (hn : n.IsScalar) (h : simplify n = .ok m) : m.IsScalar :=
  simplify_induction (fun _ _ _ => isScalar_operands)
    (fun _ _ _ _ _ _ hops hn hl hr hm => rebuild_isScalar hops hn hl hr hm)
    (fun _ _ => Rewrites.isScalar) hn h

/-- The operations on scalars give scalars. -/
lemma scalarClosed_isScalar : ScalarClosed IsScalar where
  number _ := rfl
  negate h := h
  apply h := h
  sum := And.intro
  difference := And.intro
  product := And.intro
  ratio := And.intro
  power := And.intro

/-- What is evaluated under an assignment is scalar. -/
lemma eval_isScalar (h : eval constant dim n e = .ok m) : m.IsScalar :=
  eval_induction (Q := fun _ => True) scalarClosed_isScalar (fun _ _ _ _ _ => ⟨trivial, trivial⟩)
    (fun _ _ _ _ _ _ => trivial) (fun _ _ => trivial) trivial h

/-! ### All components -/

/-- Whether no literals are folded into a floating-point number when components are simplified. -/
def componentsFoldExactly (constant : Constancy) (D : Nat) (n : Expr) (labels : Index) : Bool :=
  (visits labels.length D).all fun ds =>
    (eval constant (Int64.ofNat D) n (Assignment.empty.setAll labels ds)).toOption.all
      simplifiesExactly

section Components

variable {labels : Index} {parts : List Expr} {part : Expr} {k : Nat}

/-- The part at place `k` is the component under the digits of `k`. -/
lemma exists_eval_of_components (hD : 0 < D) (hD' : D < 2 ^ 63)
    (h : components constant (Int64.ofNat D) n labels = .ok parts) (hpart : parts[k]? = some part) :
    k < D ^ labels.length ∧ ∃ m, eval constant (Int64.ofNat D) n
        (Assignment.empty.setAll labels (digits D labels.length k)) = .ok m ∧
      m.simplify = .ok part := by
  obtain ⟨-, hparts⟩ := components_eq_ok hD hD' h
  have hk : k < D ^ labels.length := by
    rw [← length_visits hD, hparts.length_eq]
    exact (List.getElem?_eq_some_iff.1 hpart).1
  obtain ⟨part', hpart', heval⟩ := exists_of_getElem_left hparts (getElem?_visits hD hk)
  obtain rfl := Option.some.inj (hpart.symm.trans hpart')
  exact ⟨hk, heval⟩

/-- Every component is computed. There are as many parts as components, all of them scalar expressions,
and under every interpretation the one at place `k` has the value of the expression when the labels have
the digits of `k`, the first label the most significant one, as long as literals are exact and stay so. -/
theorem components_faithful (hn : Built n) (hD : 1 ≤ D) (hD' : D ≤ 16)
    (h : components constant (Int64.ofNat D) n labels = .ok parts) :
    parts.length = D ^ n.rank ∧ (∀ part ∈ parts, part.rank = 0 ∧ part.IsScalar) ∧
      (n.exactLiterals = true → componentsFoldExactly constant D n labels = true →
        ∀ (K : Type) [ExactNumbers K] (I : Interpretation K), I.ExactPowers →
          I.ReadsScalars constant → ∀ k part, parts[k]? = some part →
            ∀ ρ, part.value I D ρ = n.value I D (ofDigits labels (digits D labels.length k))) := by
  have hwf := hn.wellFormed
  obtain ⟨hperm, hparts⟩ := components_eq_ok hD (by omega) h
  refine ⟨?_, fun part hpart => ?_, fun hx hfold K _ I hI hreads k part hpart ρ => ?_⟩
  · rw [← hparts.length_eq, length_visits hD, hperm.length_eq, rank]
  · obtain ⟨ds, -, m, hm, hsimplify⟩ := exists_of_mem_right hparts hpart
    have hscalar := simplify_isScalar (eval_isScalar hm) hsimplify
    exact ⟨by rw [rank, hscalar.outer, List.length_nil], hscalar⟩
  · obtain ⟨hk, m, hm, hsimplify⟩ := exists_eval_of_components hD (by omega) h hpart
    have hvisit := List.mem_of_getElem? (getElem?_visits hD hk)
    have hmfold := toOption_all_iff.1 (List.all_eq_true.1 hfold _ hvisit) m hm
    exact part_value hI hreads hD (by omega) hwf hx hperm hk hm hmfold hsimplify ρ

/-- The expression `A(i, i) (v(i) (v(i) v(i)))`: the letter is free, and it is summed in two scopes. -/
def nestedScopes : Expr :=
  let v := tensor ⟨Bytes.ofString "v", 1, 0⟩ [105]
  let A := tensor ⟨Bytes.ofString "A", 2, 1⟩ [105, 105]
  product A (product v (product v v))

/-- Both sums over the letter are taken over both numbers, whatever number the free letter has. -/
theorem components_nestedScopes :
    ∃ p q, components (fun _ => false) 2 nestedScopes [105] = .ok [p, q] ∧ q.IsScalar ∧
      ∀ I : Interpretation ℚ, I.ExactPowers → I.ReadsScalars (fun _ => false) →
        let v x := I.leaf ⟨Bytes.ofString "v", 1, 0⟩ [x]
        let A x y := I.leaf ⟨Bytes.ofString "A", 2, 1⟩ [x, y]
        ∀ ρ, q.value I 2 ρ = (A 0 0 + A 1 1) * (v 1 * (v 0 * v 0 + v 1 * v 1)) := by
  have hbuilt : Built nestedScopes := by
    apply WellFormed.built
    simp [nestedScopes, WellFormed, outer, Index.capacity, Index.exclusive, Index.symmetricDifference,
      Index.minus]
  have hfold : componentsFoldExactly (fun _ => false) 2 nestedScopes [105] = true := by decide +kernel
  have hrun : ((components (fun _ => false) 2 nestedScopes [105]).toOption.any fun parts =>
      parts.length == 2) = true := by decide +kernel
  obtain ⟨parts, hparts, hlength⟩ := toOption_any_iff.1 hrun
  obtain ⟨-, hscalar, hvalue⟩ := components_faithful hbuilt (by decide) (by decide) hparts
  obtain ⟨p, q, rfl⟩ := List.length_eq_two.1 (eq_of_beq hlength)
  refine ⟨p, q, hparts, (hscalar q (by simp)).2, ?_⟩
  intro I hI hreads v A ρ
  rw [hvalue rfl hfold ℚ I hI hreads 1 q rfl ρ]
  have hdigits : digits 2 ([105] : Index).length 1 = [1] := by decide
  have hone : ofDigits [105] [1] 105 = 1 := by decide
  rw [hdigits]
  simp [nestedScopes, value, outer, Index.exclusive, Index.symmetricDifference, Index.minus, sumLabels,
    Index.repeated, Index.intersect, Index.unique, Finset.sum_range_succ, hone, v, A]

end Components

end Indicial.Expr
