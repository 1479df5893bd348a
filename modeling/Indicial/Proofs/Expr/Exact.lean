import Indicial.Proofs.Expr.Closed
import Indicial.Proofs.Expr.Simplify

/-!
# Exact expressions stay exact

Derivatives have no literals but those of their operands and whole numbers, and the exponent of a power
that is differentiated is exact. So expanding marks keeps all literals exact
(`expand_exactLiterals`).
-/

namespace Indicial.Expr

variable {constant : Constancy} {e e' m l r : Expr} {along : Index}

/-- Binary nodes are exact when both operands are. -/
lemma exact_and : (l.exactLiterals && r.exactLiterals) = true ↔
    l.exactLiterals = true ∧ r.exactLiterals = true :=
  Bool.and_eq_true_iff

/-- The builders keep literals exact, and zeros and leaves have none that are not. -/
lemma exactLiterals_closed : BuilderClosed fun e => e.exactLiterals = true where
  operands := exactLiterals_operands
  number _ := rfl
  zero h := by
    obtain ⟨labels, -, h⟩ := bind_eq_ok_iff.1 h
    obtain ⟨rfl, -⟩ := mkBroadcast_eq_ok_iff.1 h
    rfl
  leaf _ _ h := by
    obtain ⟨rfl, -⟩ := mkLeaf_eq_ok_iff.1 h
    rfl
  negate he h := by
    cases h
    exact he
  apply he h := by
    obtain ⟨rfl, -⟩ := mkApply_eq_ok_iff.1 h
    exact he
  bind he h := by
    obtain ⟨rfl, -⟩ := mkBind_eq_ok_iff.1 h
    exact he
  sum hl hr h := by
    obtain ⟨rfl, -⟩ := mkSum_eq_ok_iff.1 h
    exact exact_and.2 ⟨hl, hr⟩
  difference hl hr h := by
    obtain ⟨rfl, -⟩ := mkDifference_eq_ok_iff.1 h
    exact exact_and.2 ⟨hl, hr⟩
  product hl hr h := by
    obtain ⟨rfl, -⟩ := mkProduct_eq_ok_iff.1 h
    exact exact_and.2 ⟨hl, hr⟩
  ratio hl hr h := by
    obtain ⟨rfl, -⟩ := mkRatio_eq_ok_iff.1 h
    exact exact_and.2 ⟨hl, hr⟩
  power hl hr h := by
    obtain ⟨rfl, -⟩ := mkPower_eq_ok_iff.1 h
    exact exact_and.2 ⟨hl, hr⟩

/-- Marks add no floats. -/
lemma exactLiterals_mkDerivative (he : e.exactLiterals = true) (h : mkDerivative e along = .ok m) :
    m.exactLiterals = true := by
  obtain ⟨-, ⟨inner, first, rfl, rfl, -⟩ | ⟨-, rfl, -⟩⟩ := mkDerivative_of_ok h
  · exact he
  · exact he

/-- Expanding marks keeps literals exact. -/
theorem expand_exactLiterals (hx : e.exactLiterals = true) (h : expand constant e = .ok e') :
    e'.exactLiterals = true :=
  exactLiterals_closed.expand (fun _ _ _ => exactLiterals_mkDerivative) hx h

end Indicial.Expr
