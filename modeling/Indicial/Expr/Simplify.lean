import Indicial.Expr.Build

/-!
# Simplification

Expressions are reduced from the operands up until no rule applies at any node. The rules fold
literals, drop neutral operands, collect signs, move literal coefficients to the left of products and
recognise `a + a` and `a - a` when both operands are the same structure.

Reduction at one node stops because every rule lowers `weight`: most rules make the expression
smaller, a sum of equal leaves becomes a product of the same size, and a product with a literal on the
right has it moved to the left once.
-/

namespace Indicial.Expr

/-- The first rule that applies to a sum. -/
def reduceSum (a b : Expr) : Except Fault (Option Expr) :=
  match a.literal?, b.literal? with
  | some x, some y => some <$> mkBroadcast (x.add y) a.outer
  | _, _ =>
    if b.isZero then .ok (some a)
    else if a.isZero then .ok (some b)
    else match a, b with
      | negate c, b => some <$> mkDifference b c
      | a, negate c => some <$> mkDifference a c
      | a, b =>
        if a.same b then some <$> mkProduct (number (Literal.ofInt 2)) a else .ok none

/-- The first rule that applies to a difference. -/
def reduceDifference (a b : Expr) : Except Fault (Option Expr) :=
  match a.literal?, b.literal? with
  | some x, some y => some <$> mkBroadcast (x.sub y) a.outer
  | _, _ =>
    if b.isZero then .ok (some a)
    else if a.isZero then some <$> mkNegate b
    else match b with
      | negate c => some <$> mkSum a c
      | b => if a.same b then some <$> mkZero a.outer else .ok none

/-- Joins a coefficient with that of a product. -/
def mergeCoefficients (x : Literal) (b : Expr) : Except Fault (Option Expr) :=
  match b with
  | product (literal y []) r => some <$> mkProduct (number (x.mul y)) r
  | _ => .ok none

/-- The first rule that applies to a product. -/
def reduceProduct (a b : Expr) : Except Fault (Option Expr) :=
  let outer := Index.symmetricDifference a.outer b.outer
  if a.isZero || b.isZero then some <$> mkZero outer
  else match a.literal?, b.literal? with
    | some x, some y =>
      if (Index.intersect a.outer b.outer).isEmpty then some <$> mkBroadcast (x.mul y) outer
      else if a.isOne then .ok (some b)
      else if b.isOne then .ok (some a)
      else .ok none
    | some x, none =>
      if a.isOne then .ok (some b)
      else if a.isCoefficient then mergeCoefficients x b
      else .ok none
    | none, some _ => if b.isOne then .ok (some a) else some <$> mkProduct b a
    | none, none => .ok none

/-- The first rule that applies to a ratio. -/
def reduceRatio (a b : Expr) : Except Fault (Option Expr) :=
  let outer := Index.symmetricDifference a.outer b.outer
  if b.isZero then .error (.divisionByZero a.toBytes)
  else if a.isZero then some <$> mkZero outer
  else match a.literal?, b.literal? with
    | some x, some y =>
      if (Index.intersect a.outer b.outer).isEmpty then do
        some <$> mkBroadcast (← x.div y) outer
      else if b.isOne then .ok (some a) else .ok none
    | _, _ => if b.isOne then .ok (some a) else .ok none

/-- The first rule that applies to a negation. -/
def reduceNegate (a : Expr) : Except Fault (Option Expr) :=
  match a with
  | literal x labels => some <$> mkBroadcast x.neg labels
  | negate c => .ok (some c)
  | product (literal x []) r => some <$> mkProduct (number x.neg) r
  | _ => .ok none

/-- The first rule that applies to a power. -/
def reducePower (u e : Expr) : Except Fault (Option Expr) :=
  match u.literal?, e.literal? with
  | some x, some y => do return some (number (← x.pow y))
  | _, _ =>
    if e.isOne then .ok (some u)
    else if e.isZero then .ok (some one)
    else .ok none

/-- The first rule that applies to a relabelling. -/
def reduceBind (e : Expr) (target : Index) : Except Fault (Option Expr) :=
  if e.outer = target then .ok (some e)
  else match e with
    | literal x _ => if (Index.repeated target).isEmpty then some <$> mkBroadcast x target else .ok none
    | _ => .ok none

/-- The expression after the first rule that applies at its root, or nothing when none does. -/
def reduceRoot : Expr → Except Fault (Option Expr)
  | sum a b => reduceSum a b
  | difference a b => reduceDifference a b
  | product a b => reduceProduct a b
  | ratio a b => reduceRatio a b
  | negate a => reduceNegate a
  | power u e => reducePower u e
  | apply f e =>
    match e with
    | literal x _ => .ok (some (number (.float (f.applyBits x.toBinary64))))
    | _ => .ok none
  | bind e target => reduceBind e target
  | _ => .ok none

/-- What the root adds to the weight: a sum may turn into a product of the same size, and a product
with a literal on the right only into one with the literal on the left. -/
def rootWeight : Expr → Nat
  | sum _ _ => 2
  | product a b => if b.isLiteral && !a.isLiteral then 1 else 0
  | _ => 0

/-- The quantity that every rule lowers. -/
def weight (e : Expr) : Nat := 3 * e.size + e.rootWeight

attribute [local simp] size

theorem size_pos (e : Expr) : 0 < e.size := by
  cases e <;> simp

theorem rootWeight_le (e : Expr) : e.rootWeight ≤ 2 := by
  cases e <;> simp [rootWeight]
  split <;> simp

theorem weight_lt_of_size_lt {a b : Expr} (h : a.size < b.size) : a.weight < b.weight := by
  have := rootWeight_le a
  unfold weight
  omega

theorem weight_literal_lt {x : Literal} {i : Index} {e : Expr} (h : 1 < e.size) :
    (literal x i).weight < e.weight :=
  weight_lt_of_size_lt (by simpa using h)

/-- A computation that can only give expressions lighter than `n`. -/
def Lighter (n : Expr) (r : Except Fault (Option Expr)) : Prop :=
  ∀ m, r = .ok (some m) → m.weight < n.weight

theorem Lighter.none {n : Expr} : Lighter n (.ok .none) := by
  intro m h
  cases h

theorem Lighter.error {n : Expr} {f : Fault} : Lighter n (.error f) := by
  intro m h
  cases h

theorem Lighter.some {n m : Expr} (h : m.weight < n.weight) : Lighter n (.ok (.some m)) := by
  intro m' h'
  cases h'
  exact h

theorem Lighter.map {n : Expr} {r : Except Fault Expr} (h : ∀ m, r = .ok m → m.weight < n.weight) :
    Lighter n (Option.some <$> r) := by
  cases r with
  | error f => exact Lighter.error
  | ok m => exact Lighter.some (h m rfl)

theorem eq_of_mkBroadcast {x : Literal} {i : Index} {m : Expr} (h : mkBroadcast x i = .ok m) :
    m = literal x i := by
  unfold mkBroadcast at h
  split at h
  · cases h; rfl
  · cases h

theorem eq_of_mkSum {a b m : Expr} (h : mkSum a b = .ok m) : m = sum a b := by
  unfold mkSum at h
  split at h
  · cases h; rfl
  · cases h

theorem eq_of_mkDifference {a b m : Expr} (h : mkDifference a b = .ok m) : m = difference a b := by
  unfold mkDifference at h
  split at h
  · cases h; rfl
  · cases h

theorem eq_of_mkProduct {a b m : Expr} (h : mkProduct a b = .ok m) : m = product a b := by
  unfold mkProduct at h
  split at h
  · cases h; rfl
  · cases h

/-- A literal in place of a node with operands is lighter. -/
theorem Lighter.broadcast {n : Expr} {x : Literal} {i : Index} (h : 1 < n.size) :
    Lighter n (Option.some <$> mkBroadcast x i) :=
  Lighter.map fun m hm => by
    rw [eq_of_mkBroadcast hm]
    exact weight_literal_lt h

theorem reduceSum_lighter (a b : Expr) : Lighter (sum a b) (reduceSum a b) := by
  have ha := size_pos a
  have hb := size_pos b
  unfold reduceSum
  split
  · exact Lighter.broadcast (by simp only [size]; omega)
  · split
    · exact Lighter.some (weight_lt_of_size_lt (by simp only [size]; omega))
    · split
      · exact Lighter.some (weight_lt_of_size_lt (by simp only [size]; omega))
      · split
        · exact Lighter.map fun m hm => by
            rw [eq_of_mkDifference hm]
            exact weight_lt_of_size_lt (by simp only [size]; omega)
        · exact Lighter.map fun m hm => by
            rw [eq_of_mkDifference hm]
            exact weight_lt_of_size_lt (by simp only [size]; omega)
        · split
          · exact Lighter.map fun m hm => by
              rw [eq_of_mkProduct hm]
              simp only [weight, size, rootWeight, number, isLiteral, literal?]
              split <;> simp_all <;> omega
          · exact Lighter.none

theorem reduceDifference_lighter (a b : Expr) :
    Lighter (difference a b) (reduceDifference a b) := by
  have ha := size_pos a
  have hb := size_pos b
  unfold reduceDifference
  split
  · exact Lighter.broadcast (by simp only [size]; omega)
  · split
    · exact Lighter.some (weight_lt_of_size_lt (by simp only [size]; omega))
    · split
      · exact Lighter.map fun m hm => by
          cases hm
          exact weight_lt_of_size_lt (by simp only [size]; omega)
      · split
        · exact Lighter.map fun m hm => by
            rw [eq_of_mkSum hm]
            exact weight_lt_of_size_lt (by simp only [size]; omega)
        · split
          · exact Lighter.broadcast (by simp only [size]; omega)
          · exact Lighter.none

theorem mergeCoefficients_lighter (a : Expr) (x : Literal) (b : Expr) :
    Lighter (product a b) (mergeCoefficients x b) := by
  have ha := size_pos a
  unfold mergeCoefficients
  split
  · exact Lighter.map fun m hm => by
      rw [eq_of_mkProduct hm]
      exact weight_lt_of_size_lt (by simp only [size, number]; omega)
  · exact Lighter.none

theorem reduceProduct_lighter (a b : Expr) : Lighter (product a b) (reduceProduct a b) := by
  have ha := size_pos a
  have hb := size_pos b
  have hl : a.weight < (product a b).weight := weight_lt_of_size_lt (by simp only [size]; omega)
  have hr : b.weight < (product a b).weight := weight_lt_of_size_lt (by simp only [size]; omega)
  unfold reduceProduct
  split
  · exact Lighter.broadcast (by simp only [size]; omega)
  · split
    · split
      · exact Lighter.broadcast (by simp only [size]; omega)
      · split
        · exact Lighter.some hr
        · split
          · exact Lighter.some hl
          · exact Lighter.none
    · split
      · exact Lighter.some hr
      · split
        · exact mergeCoefficients_lighter _ _ _
        · exact Lighter.none
    · rename_i hna hsb
      split
      · exact Lighter.some hl
      · exact Lighter.map fun m hm => by
          rw [eq_of_mkProduct hm]
          simp only [weight, size, rootWeight, isLiteral, hna, hsb]
          simp
          omega
    · exact Lighter.none

theorem reduceRatio_lighter (a b : Expr) : Lighter (ratio a b) (reduceRatio a b) := by
  have ha := size_pos a
  have hb := size_pos b
  have hl : a.weight < (ratio a b).weight := weight_lt_of_size_lt (by simp only [size]; omega)
  unfold reduceRatio
  split
  · exact Lighter.error
  · split
    · exact Lighter.broadcast (by simp only [size]; omega)
    · split
      · split
        · rename_i x y _ _ _
          cases x.div y with
          | error f => exact Lighter.error
          | ok q => exact Lighter.broadcast (by simp only [size]; omega)
        · split
          · exact Lighter.some hl
          · exact Lighter.none
      · split
        · exact Lighter.some hl
        · exact Lighter.none

theorem reduceNegate_lighter (a : Expr) : Lighter (negate a) (reduceNegate a) := by
  unfold reduceNegate
  split
  · exact Lighter.broadcast (by simp only [size]; omega)
  · exact Lighter.some (weight_lt_of_size_lt (by simp only [size]; omega))
  · exact Lighter.map fun m hm => by
      rw [eq_of_mkProduct hm]
      exact weight_lt_of_size_lt (by simp only [size, number]; omega)
  · exact Lighter.none

theorem reducePower_lighter (u e : Expr) : Lighter (power u e) (reducePower u e) := by
  have hu := size_pos u
  have he := size_pos e
  unfold reducePower
  split
  · rename_i x y _ _
    cases x.pow y with
    | error f => exact Lighter.error
    | ok q => exact Lighter.some (weight_literal_lt (by simp only [size]; omega))
  · split
    · exact Lighter.some (weight_lt_of_size_lt (by simp only [size]; omega))
    · split
      · exact Lighter.some (weight_literal_lt (by simp only [size]; omega))
      · exact Lighter.none

theorem reduceBind_lighter (e : Expr) (target : Index) :
    Lighter (bind e target) (reduceBind e target) := by
  unfold reduceBind
  split
  · exact Lighter.some (weight_lt_of_size_lt (by simp only [size]; omega))
  · split
    · split
      · exact Lighter.broadcast (by simp only [size]; omega)
      · exact Lighter.none
    · exact Lighter.none

/-- Every rule lowers the weight. -/
theorem reduceRoot_lighter (n : Expr) : Lighter n (reduceRoot n) := by
  unfold reduceRoot
  split
  · exact reduceSum_lighter _ _
  · exact reduceDifference_lighter _ _
  · exact reduceProduct_lighter _ _
  · exact reduceRatio_lighter _ _
  · exact reduceNegate_lighter _
  · exact reducePower_lighter _ _
  · split
    · exact Lighter.some (weight_literal_lt (by simp only [size]; omega))
    · exact Lighter.none
  · exact reduceBind_lighter _ _
  · exact Lighter.none

/-- Reduces the root until no rule applies there. -/
def normalize (n : Expr) : Except Fault Expr :=
  match _h : reduceRoot n with
  | .error f => .error f
  | .ok none => .ok n
  | .ok (some m) => normalize m
termination_by n.weight
decreasing_by exact reduceRoot_lighter n m _h

/-- Reduces the operands, then the node over them, until no rule applies anywhere. -/
def simplify : Expr → Except Fault Expr
  | negate e => do
    let e' ← simplify e
    normalize (← rebuild (negate e) e' e')
  | apply f e => do
    let e' ← simplify e
    normalize (← rebuild (apply f e) e' e')
  | bind e target => do
    let e' ← simplify e
    normalize (← rebuild (bind e target) e' e')
  | derivative e along => do
    let e' ← simplify e
    normalize (← rebuild (derivative e along) e' e')
  | sum l r => do
    let l' ← simplify l
    let r' ← simplify r
    normalize (← rebuild (sum l r) l' r')
  | difference l r => do
    let l' ← simplify l
    let r' ← simplify r
    normalize (← rebuild (difference l r) l' r')
  | product l r => do
    let l' ← simplify l
    let r' ← simplify r
    normalize (← rebuild (product l r) l' r')
  | ratio l r => do
    let l' ← simplify l
    let r' ← simplify r
    normalize (← rebuild (ratio l r) l' r')
  | power l r => do
    let l' ← simplify l
    let r' ← simplify r
    normalize (← rebuild (power l r) l' r')
  | leaf => .ok leaf

end Indicial.Expr
