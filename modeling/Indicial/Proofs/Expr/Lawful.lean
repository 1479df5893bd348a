import Indicial.Proofs.Expr.Closed
import Indicial.Proofs.Model

/-!
# The index rules hold everywhere

`Lawful` states the rules of index notation for a node and everything below it. The free labels of a
node do not repeat, and they are those that occur once among the labels that it brings together; a
relabelling has a target for every free label of its operand, the operands of sums agree in their free
labels, powers and functions work on scalars, and a mark has a direction and stands over no other mark.

Over lawful operands only the rule of the node itself is to be checked (`lawful_of_operands`), and this
is what the builders check. So whatever is built from lawful expressions is lawful (`Lawful.mkSum` and
its siblings), and so is what the passes make, which only build: rewriting, differentiating, expanding,
parsing and taking components (`produces_lawful`).
-/

namespace Indicial.Expr

/-! ### The rules -/

/-- The labels that a node brings together: those that are written at it, and the free labels of the
operands that it takes its own from. -/
def gathered : Expr → Index
  | literal _ labels | tensor _ labels | delta labels | epsilon labels => labels
  | scalar _ => []
  | negate e | apply _ e => e.outer
  | bind _ target => target
  | derivative e along => e.outer ++ along
  | sum l _ | difference l _ => l.outer
  | product l r | ratio l r | power l r => l.outer ++ r.outer

/-- The labels of the operands fit the node. A relabelling renames the free labels of its operand, each
to one target. -/
def OperandsFit : Expr → Prop
  | bind e target =>
    (bind e target).renamed = e.outer ∧ (bind e target).renamed.length = target.length
  | sum l r | difference l r => l.outer.Perm r.outer
  | power l r => l.rank = 0 ∧ r.rank = 0
  | apply _ e => e.rank = 0
  | derivative e along => along ≠ [] ∧ e.kind ≠ .derivative
  | _ => True

/-- The index rules at one node. -/
structure LawfulNode (n : Expr) : Prop where
  /-- No free label repeats. -/
  nodup : n.outer.Nodup
  /-- The free labels are those that occur once among the labels that the node brings together. -/
  outer_eq : n.outer = Index.exclusive n.gathered
  fits : n.OperandsFit

/-- The index rules at every node. -/
def Lawful (n : Expr) : Prop := ∀ s ∈ n.postorder, LawfulNode s

section Rules

variable {n l r e : Expr} {labels target along : Index}

/-- An expression has rank zero exactly if it has no free labels. -/
lemma rank_eq_zero_iff : e.rank = 0 ↔ e.outer = [] := List.length_eq_zero_iff

/-- The index rules hold at the root. -/
lemma Lawful.node (h : n.Lawful) : LawfulNode n := h n (mem_postorder_self n)

/-- The index rules hold of operands. -/
lemma Lawful.operands (hops : n.operands? = some (l, r)) (h : n.Lawful) : l.Lawful ∧ r.Lawful :=
  ⟨fun s hs => h s ((mem_postorder_of_operands hops).2 (.inl hs)),
    fun s hs => h s ((mem_postorder_of_operands hops).2 (.inr (.inl hs)))⟩

/-- A leaf is lawful when its root is. -/
lemma lawful_of_leaf (hleaf : n.operands? = none) (h : LawfulNode n) : n.Lawful := by
  intro s hs
  rwa [(mem_postorder_of_leaf hleaf).1 hs]

/-- Over lawful operands the rule of the node itself is all there is to check. -/
lemma lawful_of_operands (hops : n.operands? = some (l, r)) (hl : l.Lawful) (hr : r.Lawful)
    (h : n.OperandsFit) : n.Lawful := by
  have hnl := hl.node.nodup
  have hnr := hr.node.nodup
  have hnode : LawfulNode n := by
    cases n with
    | literal | tensor | delta | epsilon | scalar => cases hops
    | negate | sum | difference =>
      cases hops
      exact ⟨hnl, (Index.exclusive_eq_self hnl).symm, h⟩
    | apply =>
      cases hops
      have hrank : l.outer = [] := rank_eq_zero_iff.1 h
      exact ⟨List.nodup_nil, by simp [outer, gathered, hrank, Index.exclusive], h⟩
    | bind | derivative =>
      cases hops
      exact ⟨Index.nodup_exclusive _, rfl, h⟩
    | product | ratio =>
      cases hops
      exact ⟨Index.nodup_symmetricDifference hnl hnr,
        Index.symmetricDifference_eq_exclusive hnl hnr, h⟩
    | power =>
      cases hops
      have hbase : l.outer = [] := rank_eq_zero_iff.1 h.1
      have hexponent : r.outer = [] := rank_eq_zero_iff.1 h.2
      exact ⟨List.nodup_nil, by simp [outer, gathered, hbase, hexponent, Index.exclusive], h⟩
  intro s hs
  rcases (mem_postorder_of_operands hops).1 hs with hs | hs | rfl
  · exact hl s hs
  · exact hr s hs
  · exact hnode

/-- A literal with different labels is lawful. -/
lemma lawful_literal {x : Literal} (h : labels.Nodup) : (literal x labels).Lawful :=
  lawful_of_leaf rfl ⟨h, (Index.exclusive_eq_self h).symm, trivial⟩

/-- A number is lawful. -/
lemma lawful_number (x : Literal) : (number x).Lawful := lawful_literal List.nodup_nil

/-- A tensor is lawful, even if its labels repeat. -/
lemma lawful_tensor (symbol : Tensor) (labels : Index) : (tensor symbol labels).Lawful :=
  lawful_of_leaf rfl ⟨Index.nodup_exclusive _, rfl, trivial⟩

/-- A Kronecker symbol is lawful. -/
lemma lawful_delta (labels : Index) : (delta labels).Lawful :=
  lawful_of_leaf rfl ⟨Index.nodup_exclusive _, rfl, trivial⟩

/-- A Levi-Civita symbol is lawful. -/
lemma lawful_epsilon (labels : Index) : (epsilon labels).Lawful :=
  lawful_of_leaf rfl ⟨Index.nodup_exclusive _, rfl, trivial⟩

/-- A scalar is lawful. -/
lemma lawful_scalar (ref : ScalarRef) : (scalar ref).Lawful :=
  lawful_of_leaf rfl ⟨List.nodup_nil, rfl, trivial⟩

/-- What the builders make is lawful. -/
lemma WellFormed.lawful (h : e.WellFormed) : e.Lawful := by
  induction e with
  | literal => exact lawful_literal h.1
  | tensor => exact lawful_tensor _ _
  | delta => exact lawful_delta _
  | epsilon => exact lawful_epsilon _
  | scalar => exact lawful_scalar _
  | negate e ih => exact lawful_of_operands rfl (ih h) (ih h) trivial
  | apply f e ih =>
    exact lawful_of_operands rfl (ih h.1) (ih h.1) (rank_eq_zero_iff.2 h.2)
  | bind e target ih => exact lawful_of_operands rfl (ih h.1) (ih h.1) ⟨rfl, h.2.symm⟩
  | derivative e along ih => exact lawful_of_operands rfl (ih h.1) (ih h.1) ⟨h.2.2.1, h.2.1⟩
  | sum l r ihl ihr | difference l r ihl ihr =>
    exact lawful_of_operands rfl (ihl h.1) (ihr h.2.1) h.2.2
  | product l r ihl ihr | ratio l r ihl ihr =>
    exact lawful_of_operands rfl (ihl h.1) (ihr h.2.1) trivial
  | power l r ihl ihr =>
    exact lawful_of_operands rfl (ihl h.1) (ihr h.2.1)
      ⟨rank_eq_zero_iff.2 h.2.2.1, rank_eq_zero_iff.2 h.2.2.2⟩

end Rules

/-! ### Building -/

section Builders

variable {n l r e m : Expr} {labels target along : Index}

/-- The sum of lawful expressions is lawful. -/
lemma Lawful.mkSum (hl : l.Lawful) (hr : r.Lawful) (h : mkSum l r = .ok m) : m.Lawful := by
  obtain ⟨rfl, hperm⟩ := mkSum_eq_ok_iff.1 h
  exact lawful_of_operands rfl hl hr hperm

/-- The difference of lawful expressions is lawful. -/
lemma Lawful.mkDifference (hl : l.Lawful) (hr : r.Lawful) (h : mkDifference l r = .ok m) :
    m.Lawful := by
  obtain ⟨rfl, hperm⟩ := mkDifference_eq_ok_iff.1 h
  exact lawful_of_operands rfl hl hr hperm

/-- The product of lawful expressions is lawful. -/
lemma Lawful.mkProduct (hl : l.Lawful) (hr : r.Lawful) (h : mkProduct l r = .ok m) :
    m.Lawful := by
  obtain ⟨rfl, -⟩ := mkProduct_eq_ok_iff.1 h
  exact lawful_of_operands rfl hl hr trivial

/-- The quotient of lawful expressions is lawful. -/
lemma Lawful.mkRatio (hl : l.Lawful) (hr : r.Lawful) (h : mkRatio l r = .ok m) : m.Lawful := by
  obtain ⟨rfl, -⟩ := mkRatio_eq_ok_iff.1 h
  exact lawful_of_operands rfl hl hr trivial

/-- The negation of a lawful expression is lawful. -/
lemma Lawful.mkNegate (he : e.Lawful) (h : mkNegate e = .ok m) : m.Lawful := by
  cases h
  exact lawful_of_operands rfl he he trivial

/-- The power of lawful expressions is lawful. -/
lemma Lawful.mkPower (hl : l.Lawful) (hr : r.Lawful) (h : mkPower l r = .ok m) : m.Lawful := by
  obtain ⟨rfl, hbase, hexponent⟩ := mkPower_eq_ok_iff.1 h
  exact lawful_of_operands rfl hl hr
    ⟨rank_eq_zero_iff.2 hbase, rank_eq_zero_iff.2 hexponent⟩

/-- The square of a lawful expression is lawful. -/
lemma Lawful.mkSquare (he : e.Lawful) (h : mkSquare e = .ok m) : m.Lawful :=
  he.mkPower (lawful_number _) h

/-- A function of a lawful expression is lawful. -/
lemma Lawful.mkApply {f : Func} (he : e.Lawful) (h : mkApply f e = .ok m) : m.Lawful := by
  obtain ⟨rfl, hrank⟩ := mkApply_eq_ok_iff.1 h
  exact lawful_of_operands rfl he he (rank_eq_zero_iff.2 hrank)

/-- Binding labels of a lawful expression is lawful. -/
lemma Lawful.mkBind (he : e.Lawful) (h : mkBind e target = .ok m) : m.Lawful := by
  obtain ⟨rfl, hlength⟩ := mkBind_eq_ok_iff.1 h
  exact lawful_of_operands rfl he he ⟨rfl, hlength.symm⟩

/-- A mark over a mark extends it, and so stands over the operand of that mark. -/
lemma Lawful.mkDerivative (he : e.Lawful) (h : mkDerivative e along = .ok m) : m.Lawful := by
  obtain ⟨hne, ⟨inner, first, rfl, rfl, -⟩ | ⟨hkind, rfl, -⟩⟩ := mkDerivative_of_ok h
  · obtain ⟨hinner, -⟩ := he.operands rfl
    exact lawful_of_operands rfl hinner hinner ⟨by simp [hne], he.node.fits.2⟩
  · exact lawful_of_operands rfl he he ⟨hne, hkind⟩

/-- Broadcasting a literal is lawful. -/
lemma lawful_of_mkBroadcast {x : Literal} (h : mkBroadcast x labels = .ok m) : m.Lawful := by
  obtain ⟨rfl, hnodup⟩ := mkBroadcast_eq_ok_iff.1 h
  exact lawful_literal hnodup

/-- A tensor that the builders label is lawful. -/
lemma lawful_of_mkLeaf {symbol : Tensor} (h : mkLeaf symbol labels = .ok m) : m.Lawful := by
  obtain ⟨rfl, -⟩ := mkLeaf_eq_ok_iff.1 h
  exact lawful_tensor symbol labels

/-- A tensor of order zero that the builders refer to is lawful. -/
lemma lawful_of_mkReference {symbol : Tensor} (h : mkReference symbol = .ok m) : m.Lawful := by
  obtain ⟨-, h⟩ | ⟨-, h⟩ := ite_eq_iff.1 h
  · exact lawful_of_mkLeaf h
  · cases h

/-- A Kronecker symbol that the builders make is lawful. -/
lemma lawful_of_mkDelta (h : mkDelta labels = .ok m) : m.Lawful := by
  obtain ⟨-, h⟩ | ⟨-, h⟩ := ite_eq_iff.1 h
  · cases h
    exact lawful_delta labels
  · cases h

/-- A Levi-Civita symbol that the builders make is lawful. -/
lemma lawful_of_mkEpsilon (h : mkEpsilon labels = .ok m) : m.Lawful := by
  obtain ⟨-, h⟩ | ⟨-, h⟩ := ite_eq_iff.1 h
  · cases h
    exact lawful_epsilon labels
  · cases h

/-- Symmetrizing a lawful expression is lawful. -/
lemma Lawful.symmetrize (he : e.Lawful) (h : symmetrize e = .ok m) : m.Lawful :=
  symmetrize_induction lawful_number he.mkBind Lawful.mkSum Lawful.mkProduct he h

/-- A lawful node stays lawful with other lawful operands. -/
lemma Lawful.rebuild (hn : n.Lawful) (hl : l.Lawful) (hr : r.Lawful) (h : rebuild n l r = .ok m) :
    m.Lawful := by
  cases n with
  | negate => exact hl.mkNegate h
  | apply => exact hl.mkApply h
  | bind =>
    obtain ⟨labels, -, h⟩ := bind_eq_ok_iff.1 h
    exact hl.mkBind h
  | derivative => exact hl.mkDerivative h
  | sum => exact hl.mkSum hr h
  | difference => exact hl.mkDifference hr h
  | product => exact hl.mkProduct hr h
  | ratio => exact hl.mkRatio hr h
  | power => exact hl.mkPower hr h
  | _ =>
    cases h
    exact hn

end Builders

/-! ### Simplifying -/

section Simplify

variable {n m e e' : Expr}

/-- What a rule puts together fits, because the parts of the old node did. -/
lemma Rewrites.lawful (h : Rewrites n m) (hn : n.Lawful) : m.Lawful := by
  cases h with
  | addZero | subtractZero | multiplyOne | divideOne | raiseOne | bindIdentity =>
    exact (hn.operands rfl).1
  | zeroAdd | oneMultiply => exact (hn.operands rfl).2
  | negateNegate => exact ((hn.operands rfl).1.operands rfl).1
  | negateAdd =>
    obtain ⟨hc, hb⟩ := hn.operands rfl
    exact lawful_of_operands rfl hb (hc.operands rfl).1 hn.node.fits.symm
  | addNegate | subtractNegate =>
    obtain ⟨ha, hc⟩ := hn.operands rfl
    exact lawful_of_operands rfl ha (hc.operands rfl).1 hn.node.fits
  | zeroSubtract =>
    obtain ⟨-, hb⟩ := hn.operands rfl
    exact lawful_of_operands rfl hb hb trivial
  | double => exact lawful_of_operands rfl (lawful_number _) (hn.operands rfl).1 trivial
  | commute => exact lawful_of_operands rfl (hn.operands rfl).2 (hn.operands rfl).1 trivial
  | mergeCoefficients =>
    obtain ⟨-, hproduct⟩ := hn.operands rfl
    exact lawful_of_operands rfl (lawful_number _) (hproduct.operands rfl).2 trivial
  | negateCoefficient =>
    obtain ⟨hproduct, -⟩ := hn.operands rfl
    exact lawful_of_operands rfl (lawful_number _) (hproduct.operands rfl).2 trivial
  -- The other rules make literals, over the free labels of the node or over no labels.
  | raiseLiterals | raiseZero | applyLiteral => exact lawful_number _
  | bindLiteral hnodup => exact lawful_literal hnodup
  | _ => exact lawful_literal hn.node.nodup

/-- Simplifying keeps the index rules. -/
lemma Lawful.simplify (he : e.Lawful) (h : simplify e = .ok e') : e'.Lawful :=
  simplify_induction (fun _ _ _ hops hn => hn.operands hops)
    (fun _ _ _ _ _ _ _ hn hl hr hm => hn.rebuild hl hr hm) (fun _ _ => Rewrites.lawful) he h

end Simplify

/-! ### Differentiating -/

section Differentiate

variable {constant : Constancy} {n e m : Expr} {k : Label} {along : Index}

/-- The zero in place of a derivative is lawful. -/
lemma lawful_of_zeroDerivative (h : zeroDerivative n k = .ok m) : m.Lawful := by
  obtain ⟨labels, -, h⟩ := bind_eq_ok_iff.1 h
  exact lawful_of_mkBroadcast h

/-- The builders keep the index rules. -/
lemma lawful_closed : BuilderClosed Lawful where
  operands := Lawful.operands
  number _ := lawful_number _
  zero := lawful_of_zeroDerivative
  leaf _ _ := lawful_of_mkLeaf
  negate := Lawful.mkNegate
  apply := Lawful.mkApply
  bind := Lawful.mkBind
  sum := Lawful.mkSum
  difference := Lawful.mkDifference
  product := Lawful.mkProduct
  ratio := Lawful.mkRatio
  power := Lawful.mkPower

/-- Expanding keeps the index rules. -/
lemma Lawful.expand (he : e.Lawful) (h : expand constant e = .ok m) : m.Lawful :=
  lawful_closed.expand (fun _ _ _ => Lawful.mkDerivative) he h

/-- Differentiating keeps the index rules. -/
lemma Lawful.diffAlong (he : e.Lawful) (h : diffAlong constant e along = .ok m) : m.Lawful :=
  lawful_closed.diffAlong (fun _ _ _ => Lawful.mkDerivative) he h

end Differentiate

/-! ### Everything that returns a node -/

/-- `Produces operands e` says that a builder or a pass returns `e` when it is given `operands`. -/
inductive Produces : List Expr → Expr → Prop where
  | sum {l r e} : mkSum l r = .ok e → Produces [l, r] e
  | difference {l r e} : mkDifference l r = .ok e → Produces [l, r] e
  | product {l r e} : mkProduct l r = .ok e → Produces [l, r] e
  | ratio {l r e} : mkRatio l r = .ok e → Produces [l, r] e
  | negate {a e} : mkNegate a = .ok e → Produces [a] e
  | power {l r e} : mkPower l r = .ok e → Produces [l, r] e
  | square {a e} : mkSquare a = .ok e → Produces [a] e
  | apply {f a e} : mkApply f a = .ok e → Produces [a] e
  | bind {a target e} : mkBind a target = .ok e → Produces [a] e
  | derivative {a along e} : mkDerivative a along = .ok e → Produces [a] e
  | number (x : Literal) : Produces [] (number x)
  | one : Produces [] one
  | broadcast {x labels e} : mkBroadcast x labels = .ok e → Produces [] e
  | zero {labels e} : mkZero labels = .ok e → Produces [] e
  | leaf {symbol labels e} : mkLeaf symbol labels = .ok e → Produces [] e
  | reference {symbol e} : mkReference symbol = .ok e → Produces [] e
  | delta {labels e} : mkDelta labels = .ok e → Produces [] e
  | epsilon {labels e} : mkEpsilon labels = .ok e → Produces [] e
  | scalar (ref : ScalarRef) : Produces [] (scalar ref)
  | addAll {terms e} : addAll terms = .ok e → Produces terms e
  | multiplyAll {factors e} : multiplyAll factors = .ok e → Produces factors e
  | rebuild {n l r e} : rebuild n l r = .ok e → Produces [n, l, r] e
  | symmetrize {a e} : symmetrize a = .ok e → Produces [a] e
  | simplify {a e} : simplify a = .ok e → Produces [a] e
  | differentiate {constant a along e} : diffAlong constant a along = .ok e → Produces [a] e
  | expand {constant a e} : expand constant a = .ok e → Produces [a] e
  | parse {scope src e} : Parser.parse scope src = .ok e → Produces [] e
  | component {constant dim n labels parts e} :
    components constant dim n labels = .ok parts → e ∈ parts → Produces [n] e

section Produces

variable {constant : Constancy} {dim : Int64} {n e : Expr} {labels : Index} {parts operands : List Expr}

/-- What is parsed is lawful. -/
lemma lawful_of_parse {scope : Parser.Scope} {src : Bytes} (h : Parser.parse scope src = .ok e) :
    e.Lawful :=
  (Parser.parse_builtOver (R := fun _ => True) h).built.wellFormed.lawful

/-- Components are simplified scalars, whatever expression they are taken of. -/
lemma lawful_of_components (h : components constant dim n labels = .ok parts) (he : e ∈ parts) :
    e.Lawful := by
  obtain ⟨-, h⟩ := guard_eq_ok h
  obtain ⟨assignments, -, h⟩ := bind_eq_ok_iff.1 h
  obtain ⟨digits, -, hpart⟩ := exists_of_mem_right (mapM_eq_ok_iff.1 h) he
  exact (part_shape (bind_eq_ok_iff.1 hpart)).1.lawful

/-- Every builder and every pass returns lawful expressions when it is given lawful ones. -/
theorem produces_lawful (h : Produces operands e) (hoperands : ∀ a ∈ operands, a.Lawful) :
    e.Lawful := by
  -- No induction: what went into a builder or a pass is lawful by hypothesis.
  cases h with
  | sum h => exact (hoperands _ (by simp)).mkSum (hoperands _ (by simp)) h
  | difference h => exact (hoperands _ (by simp)).mkDifference (hoperands _ (by simp)) h
  | product h => exact (hoperands _ (by simp)).mkProduct (hoperands _ (by simp)) h
  | ratio h => exact (hoperands _ (by simp)).mkRatio (hoperands _ (by simp)) h
  | negate h => exact (hoperands _ (by simp)).mkNegate h
  | power h => exact (hoperands _ (by simp)).mkPower (hoperands _ (by simp)) h
  | square h => exact (hoperands _ (by simp)).mkSquare h
  | apply h => exact (hoperands _ (by simp)).mkApply h
  | bind h => exact (hoperands _ (by simp)).mkBind h
  | derivative h => exact (hoperands _ (by simp)).mkDerivative h
  | number x => exact lawful_number x
  | one => exact lawful_number _
  | broadcast h => exact lawful_of_mkBroadcast h
  | zero h => exact lawful_of_mkBroadcast h
  | leaf h => exact lawful_of_mkLeaf h
  | reference h => exact lawful_of_mkReference h
  | delta h => exact lawful_of_mkDelta h
  | epsilon h => exact lawful_of_mkEpsilon h
  | scalar ref => exact lawful_scalar ref
  | addAll h => exact addAll_induction Lawful.mkSum hoperands h
  | multiplyAll h => exact multiplyAll_induction Lawful.mkProduct hoperands h
  | rebuild h =>
    exact (hoperands _ (by simp)).rebuild (hoperands _ (by simp)) (hoperands _ (by simp)) h
  | symmetrize h => exact (hoperands _ (by simp)).symmetrize h
  | simplify h => exact (hoperands _ (by simp)).simplify h
  | differentiate h => exact (hoperands _ (by simp)).diffAlong h
  | expand h => exact (hoperands _ (by simp)).expand h
  | parse h => exact lawful_of_parse h
  | component h he => exact lawful_of_components h he

/-- The sum `0 + A_ji` over `i` and `j`, with its labels renamed to `k` and `l`. -/
def renamedSum : Expr :=
  bind (sum (literal (.ofInt 0) [105, 106]) (tensor ⟨[65], 2, 0⟩ [106, 105])) [107, 108]

/-- Simplifying leaves an operand with its labels in the other order, and the renaming follows. -/
theorem produces_lawful_renamedSum :
    Produces [renamedSum] (bind (tensor ⟨[65], 2, 0⟩ [106, 105]) [108, 107]) ∧
      (∀ a ∈ [renamedSum], a.Lawful) ∧
      (bind (tensor ⟨[65], 2, 0⟩ [106, 105]) [108, 107]).Lawful := by
  have hsum : renamedSum.Lawful :=
    WellFormed.lawful ⟨⟨⟨by decide, by decide⟩, ⟨by decide, by decide⟩, by decide⟩, by decide⟩
  have hoperands : ∀ a ∈ [renamedSum], a.Lawful := by simpa using hsum
  have hrun : Produces [renamedSum] (bind (tensor ⟨[65], 2, 0⟩ [106, 105]) [108, 107]) :=
    .simplify (by cbv)
  exact ⟨hrun, hoperands, produces_lawful hrun hoperands⟩

end Produces

end Indicial.Expr
