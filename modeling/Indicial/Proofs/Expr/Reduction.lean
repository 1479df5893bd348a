import Indicial.Proofs.Expr.Simplify
import Mathlib.Data.List.Chain
import Mathlib.Logic.Relation

/-!
# Reduction at one node ends

`rewriteRoot` gives back its argument when no rule applies. `Reduces` is one step of it to another
expression. A step is the use of a rule (`reduces_iff`), and since rules lower the weight, a chain of
steps is no longer than the weight of its first expression (`length_le_weight_of_isChain`). So there are
no infinite chains, and the chain from an expression ends where `normalize` does
(`reduces_ends`).
-/

namespace Indicial.Expr

/-- The expression after the first rule that applies at its root, or the expression itself. -/
def rewriteRoot (n : Expr) : Except Fault Expr := do return (← reduceRoot n).getD n

/-- One step of rewriting the root to another expression. -/
def Reduces (n m : Expr) : Prop := rewriteRoot n = .ok m ∧ m ≠ n

variable {n m : Expr} {chain : List Expr}

/-- No rule gives its own argument back, so a step is the use of a rule. -/
lemma reduces_iff : Reduces n m ↔ reduceRoot n = .ok (some m) := by
  unfold Reduces rewriteRoot
  constructor
  · rintro ⟨hrun, hne⟩
    obtain ⟨next, hnext, hrun⟩ := bind_eq_ok_iff.1 hrun
    cases next with
    | none =>
      cases hrun
      exact absurd rfl hne
    | some m' =>
      cases hrun
      exact hnext
  · intro h
    refine ⟨by rw [h]; rfl, ?_⟩
    rintro rfl
    exact absurd (reduceRoot_lighter m m h) (Nat.lt_irrefl _)

/-- Every step makes the expression lighter. -/
lemma Reduces.weight_lt (h : Reduces n m) : m.weight < n.weight :=
  reduceRoot_lighter n m (reduces_iff.1 h)

/-- Every step keeps well-formedness. -/
lemma Reduces.wellFormed (h : Reduces n m) (hn : n.WellFormed) : m.WellFormed :=
  ((reduceRoot_rewrites (reduces_iff.1 h)).wellFormed hn).1

/-- A chain of steps is no longer than the weight of the expression that it begins with. -/
theorem length_le_weight_of_isChain (h : (n :: chain).IsChain Reduces) : chain.length ≤ n.weight := by
  induction chain generalizing n with
  | nil => exact Nat.zero_le _
  | cons m rest ih =>
    obtain ⟨hstep, hrest⟩ := List.isChain_cons_cons.1 h
    have hlt := hstep.weight_lt
    have hle := ih hrest
    rw [List.length_cons]
    omega

/-- There is no infinite chain of steps. -/
theorem not_infinitely_reduces (c : Nat → Expr) : ¬∀ i, Reduces (c i) (c (i + 1)) := fun h => by
  -- After `i` steps the weight is lower by `i` at least.
  have hlower : ∀ i, (c i).weight + i ≤ (c 0).weight := fun i => by
    induction i with
    | zero => exact Nat.le_refl _
    | succ i ih =>
      have hlt := (h i).weight_lt
      omega
  have hend := hlower ((c 0).weight + 1)
  omega

/-- Steps keep well-formedness. -/
lemma wellFormed_of_reduces (h : Relation.ReflTransGen Reduces n m) (hn : n.WellFormed) :
    m.WellFormed := by
  induction h with
  | refl => exact hn
  | tail _ hstep ih => exact hstep.wellFormed ih

/-- Steps lead to where reducing the root ends, in an expression that is given back or in an error. -/
lemma exists_reduces_normalize (n : Expr) :
    ∃ m, Relation.ReflTransGen Reduces n m ∧
      ((rewriteRoot m = .ok m ∧ normalize n = .ok m) ∨
        ∃ f, reduceRoot m = .error f ∧ rewriteRoot m = .error f ∧ normalize n = .error f) := by
  have step : ∀ a b, Relation.ReflTransGen Reduces n a → reduceRoot a = .ok (some b) →
      Relation.ReflTransGen Reduces n b := fun a b hsteps h => hsteps.tail (reduces_iff.2 h)
  rcases normalize_invariant step .refl with ⟨m, hsteps, hok, hroot⟩ | ⟨m, f, hsteps, herr, hroot⟩
  · exact ⟨m, hsteps, .inl ⟨by rw [rewriteRoot, hroot]; rfl, hok⟩⟩
  · exact ⟨m, hsteps, .inr ⟨f, hroot, by rw [rewriteRoot, hroot]; rfl, herr⟩⟩

/-- Rewriting the root of a well-formed expression ends: there is no infinite chain of steps, a chain
has at most as many steps as the expression weighs, and the steps lead to a well-formed expression
that is given back, or to a negative power of zero, which is an error. -/
theorem reduces_ends (hn : n.WellFormed) :
    (∀ c : Nat → Expr, c 0 = n → ¬∀ i, Reduces (c i) (c (i + 1))) ∧
    (∀ chain, (n :: chain).IsChain Reduces → chain.length ≤ n.weight) ∧
    ∃ m, Relation.ReflTransGen Reduces n m ∧ m.WellFormed ∧
      ((rewriteRoot m = .ok m ∧ normalize n = .ok m) ∨
        ∃ i j q, m = power (literal (.exact 0) i) (literal (.exact q) j) ∧ q < 0 ∧
          rewriteRoot m = .error (.zeroToNegative q.num) ∧
          normalize n = .error (.zeroToNegative q.num)) := by
  refine ⟨fun c _ => not_infinitely_reduces c, fun _ => length_le_weight_of_isChain, ?_⟩
  obtain ⟨m, hsteps, hend⟩ := exists_reduces_normalize n
  have hm := wellFormed_of_reduces hsteps hn
  refine ⟨m, hsteps, hm, hend.imp_right ?_⟩
  rintro ⟨f, hroot, hrewrite, hnormalize⟩
  obtain ⟨i, j, q, rfl, hq, rfl⟩ := reduceRoot_error hm hroot
  exact ⟨i, j, q, rfl, hq, hrewrite, hnormalize⟩

/-- The sum of NaN and a scalar `u` that is negated twice. -/
def negatedTwice : Expr :=
  sum (number (.float Binary64.nan)) (negate (negate (tensor ⟨Bytes.ofString "u", 0, 0⟩ [])))

/-- The sum becomes a difference and a sum again, which is given back. -/
theorem reduces_ends_negatedTwice :
    negatedTwice.WellFormed ∧ ∃ m, Relation.ReflTransGen Reduces negatedTwice m ∧
      rewriteRoot m = .ok m ∧ normalize negatedTwice = .ok m := by
  have hwf : negatedTwice.WellFormed := by
    simp only [negatedTwice, number, WellFormed, outer]
    decide
  have hrun : (normalize negatedTwice).toOption.isSome = true := by decide +kernel
  obtain ⟨-, -, m, hsteps, -, ⟨hroot, hok⟩ | ⟨_, _, _, _, _, _, herr⟩⟩ := reduces_ends hwf
  · exact ⟨hwf, m, hsteps, hroot, hok⟩
  · rw [herr] at hrun
    cases hrun

end Indicial.Expr
