import Indicial.Proofs.Expr.Closed
import Indicial.Proofs.Expr.Component
import Indicial.Proofs.Tensor

/-!
# What expressions read

Expanding, simplifying and taking components make new expressions, but no new tensors: whatever is
read at a leaf of the result is read in the expression that it comes from, or is a component of a
tensor that is (`expand_reads`, `simplify_reads`, `eval_reads`). Components have one entry for every
index of their tensor and at most eight directions (`ComponentsIn.refersTo`), which are sorted
(`ComponentsIn.sorted`).
-/

namespace Indicial

/-- A reference to a component of a tensor of `T`. -/
structure ScalarRef.RefersTo (T : Tensor → Prop) (r : ScalarRef) : Prop where
  tensor : T r.tensor
  component : r.component.size = r.tensor.order
  derivs : r.derivs.size ≤ Coord.capacity

namespace Expr

/-- Every leaf reads a tensor of `T` or a scalar of `R`. -/
def Reads (T : Tensor → Prop) (R : ScalarRef → Prop) : Expr → Prop
  | literal .. | delta _ | epsilon _ => True
  | tensor symbol _ => T symbol
  | scalar ref => R ref
  | negate e | apply _ e | bind e _ | derivative e _ => e.Reads T R
  | sum l r | difference l r | product l r | ratio l r | power l r => l.Reads T R ∧ r.Reads T R

variable {T : Tensor → Prop} {R : ScalarRef → Prop}

section Operands

variable {n m l r l' r' : Expr}

/-- An expression reads what its operands read. -/
lemma reads_iff_operands (hops : n.operands? = some (l, r)) :
    n.Reads T R ↔ l.Reads T R ∧ r.Reads T R := by
  cases n with
  | literal => cases hops
  | tensor => cases hops
  | delta => cases hops
  | epsilon => cases hops
  | scalar => cases hops
  | negate | apply | bind | derivative =>
    cases hops
    exact (and_self_iff).symm
  | sum | difference | product | ratio | power =>
    cases hops
    exact Iff.rfl

/-- An expression reads what its nodes read. -/
lemma reads_iff_postorder : n.Reads T R ↔ ∀ s ∈ n.postorder,
    (∀ symbol labels, s = tensor symbol labels → T symbol) ∧ ∀ ref, s = scalar ref → R ref := by
  induction n using operandsInduction with
  | leaf n hleaf =>
    simp only [mem_postorder_of_leaf hleaf, forall_eq]
    cases n <;> cases hleaf <;> simp [Reads]
  | node n l r hops ihl ihr =>
    have hnode : (∀ symbol labels, n = tensor symbol labels → T symbol) ∧
        ∀ ref, n = scalar ref → R ref := by
      constructor
      · rintro symbol labels rfl
        cases hops
      · rintro ref rfl
        cases hops
    rw [reads_iff_operands hops, ihl, ihr]
    simp only [mem_postorder_of_operands hops]
    constructor
    · rintro ⟨hl, hr⟩ s (hs | hs | rfl)
      · exact hl s hs
      · exact hr s hs
      · exact hnode
    · intro h
      exact ⟨fun s hs => h s (.inl hs), fun s hs => h s (.inr (.inl hs))⟩

/-- What is rebuilt over other operands reads what these read. -/
lemma rebuild_reads (hops : n.operands? = some (l, r)) (hl : l'.Reads T R) (hr : r'.Reads T R)
    (h : rebuild n l' r' = .ok m) : m.Reads T R := by
  cases n with
  | literal => cases hops
  | tensor => cases hops
  | delta => cases hops
  | epsilon => cases hops
  | scalar => cases hops
  | negate =>
    cases h
    exact hl
  | apply f =>
    obtain ⟨rfl, -⟩ := mkApply_eq_ok_iff.1 h
    exact hl
  | bind e target =>
    obtain ⟨target', -, h⟩ := bind_eq_ok_iff.1 h
    obtain ⟨rfl, -⟩ := mkBind_eq_ok_iff.1 h
    exact hl
  | derivative e along =>
    obtain ⟨-, ⟨inner, first, rfl, rfl, -⟩ | ⟨-, rfl, -⟩⟩ := mkDerivative_of_ok h
    · exact hl
    · exact hl
  | sum =>
    obtain ⟨rfl, -⟩ := mkSum_eq_ok_iff.1 h
    exact ⟨hl, hr⟩
  | difference =>
    obtain ⟨rfl, -⟩ := mkDifference_eq_ok_iff.1 h
    exact ⟨hl, hr⟩
  | product =>
    obtain ⟨rfl, -⟩ := mkProduct_eq_ok_iff.1 h
    exact ⟨hl, hr⟩
  | ratio =>
    obtain ⟨rfl, -⟩ := mkRatio_eq_ok_iff.1 h
    exact ⟨hl, hr⟩
  | power =>
    obtain ⟨rfl, -⟩ := mkPower_eq_ok_iff.1 h
    exact ⟨hl, hr⟩

end Operands

/-! ### Simplifying -/

section Simplify

variable {e e' n m : Expr}

/-- A rule keeps parts of an expression and adds literals. -/
lemma Rewrites.reads (h : Rewrites n m) (hn : n.Reads T R) : m.Reads T R := by
  cases h with
  | addZero => exact hn.1
  | zeroAdd => exact hn.2
  | negateAdd => exact ⟨hn.2, hn.1⟩
  | addNegate => exact hn
  | double => exact ⟨trivial, hn.1⟩
  | subtractZero => exact hn.1
  | zeroSubtract => exact hn.2
  | subtractNegate => exact hn
  | oneMultiply => exact hn.2
  | multiplyOne => exact hn.1
  | commute => exact ⟨hn.2, hn.1⟩
  | mergeCoefficients => exact ⟨trivial, hn.2.2⟩
  | divideOne => exact hn.1
  | negateNegate => exact hn
  | negateCoefficient => exact ⟨trivial, hn.2⟩
  | raiseOne => exact hn.1
  | bindIdentity => exact hn
  | _ => exact trivial

/-- Simplifying reads nothing new. -/
theorem simplify_reads (he : e.Reads T R) (h : simplify e = .ok e') : e'.Reads T R :=
  simplify_induction (fun _ _ _ hops => (reads_iff_operands hops).1)
    (fun _ _ _ _ _ _ hops _ hl hr hm => rebuild_reads hops hl hr hm) (fun _ _ => Rewrites.reads) he h

end Simplify

/-! ### Expanding -/

section Expand

variable {constant : Constancy} {e e' : Expr}

/-- The builders read what their operands read, and numbers nothing. -/
lemma reads_closed : BuilderClosed (Reads T R) where
  operands hops := (reads_iff_operands hops).1
  number _ := trivial
  zero h := by
    obtain ⟨labels, -, h⟩ := bind_eq_ok_iff.1 h
    obtain ⟨rfl, -⟩ := mkBroadcast_eq_ok_iff.1 h
    exact trivial
  leaf hn _ h := by
    obtain ⟨rfl, -⟩ := mkLeaf_eq_ok_iff.1 h
    exact hn
  negate he h := by
    cases h
    exact he
  apply he h := by
    obtain ⟨rfl, -⟩ := mkApply_eq_ok_iff.1 h
    exact he
  bind he h := by
    obtain ⟨rfl, -⟩ := mkBind_eq_ok_iff.1 h
    exact he
  sum hl hr h := by
    obtain ⟨rfl, -⟩ := mkSum_eq_ok_iff.1 h
    exact ⟨hl, hr⟩
  difference hl hr h := by
    obtain ⟨rfl, -⟩ := mkDifference_eq_ok_iff.1 h
    exact ⟨hl, hr⟩
  product hl hr h := by
    obtain ⟨rfl, -⟩ := mkProduct_eq_ok_iff.1 h
    exact ⟨hl, hr⟩
  ratio hl hr h := by
    obtain ⟨rfl, -⟩ := mkRatio_eq_ok_iff.1 h
    exact ⟨hl, hr⟩
  power hl hr h := by
    obtain ⟨rfl, -⟩ := mkPower_eq_ok_iff.1 h
    exact ⟨hl, hr⟩

/-- Expanding reads tensors and parts of the expression. -/
theorem expand_reads (hreads : e.Reads T R) (h : expand constant e = .ok e') : e'.Reads T R :=
  reads_closed.expand
    (fun e along _ he h => rebuild_reads (n := .derivative e along) rfl he he h) hreads h

end Expand

/-! ### Components -/

section Components

variable {constant : Constancy} {dim : Int64} {n m : Expr} {symbol : Tensor} {labels : Index}
  {e : Assignment} {r : ScalarRef}

/-- Coordinates stay within their capacity. -/
lemma size_le_of_push {c c' : Coord} {x : Int} (h : c.push x = .ok c') : c'.size ≤ Coord.capacity := by
  rw [Coord.push] at h
  split at h
  · rename_i hsize
    obtain ⟨v, -, rfl⟩ := map_eq_ok_iff.1 h
    rw [Coord.size, List.length_append]
    exact hsize
  · cases h

/-- The scalars that leaves of the tensors of `T` read under assignments are in `R`. -/
def ComponentsIn (T : Tensor → Prop) (R : ScalarRef → Prop) : Prop :=
  ∀ ⦃constant : Constancy⦄ ⦃symbol : Tensor⦄ ⦃labels : Index⦄ ⦃e : Assignment⦄ ⦃r : ScalarRef⦄,
    T symbol → reference constant symbol labels e = .ok r → R r

/-- A reference of a leaf is made by its constructor from a component and at most as many directions as
fit. -/
lemma exists_of_reference (h : reference constant symbol labels e = .ok r) :
    ∃ component derivs, derivs.size ≤ Coord.capacity ∧
      ScalarRef.make symbol component derivs (constant symbol) = .ok r := by
  obtain ⟨component, -, h⟩ := bind_eq_ok_iff.1 h
  obtain ⟨derivs, hderivs, h⟩ := bind_eq_ok_iff.1 h
  refine ⟨component, derivs, ?_, h⟩
  -- Every direction is pushed, and a full coordinate refuses one more.
  refine foldlM_preserves (P := fun c : Coord => c.size ≤ Coord.capacity) ?_ (by decide) hderivs
  intro label _ c c' _ hstep
  obtain ⟨v, -, hpush⟩ := bind_eq_ok_iff.1 hstep
  exact size_le_of_push hpush

/-- The scalar that a leaf reads under an assignment is a component of its tensor. -/
lemma ComponentsIn.refersTo (T : Tensor → Prop) : ComponentsIn T (ScalarRef.RefersTo T) := by
  intro constant symbol labels e r hsymbol h
  obtain ⟨component, derivs, hsize, h⟩ := exists_of_reference h
  obtain ⟨hcomponent, rfl⟩ := ScalarRef.make_eq_ok_iff.1 h
  exact ⟨hsymbol, hcomponent, derivs.size_sorted.trans_le hsize⟩

/-- Its directions are sorted. -/
lemma ComponentsIn.sorted (T : Tensor → Prop) :
    ComponentsIn T fun r => T r.tensor ∧ r.derivs.sorted = r.derivs := by
  intro constant symbol labels e r hsymbol h
  obtain ⟨component, derivs, -, h⟩ := exists_of_reference h
  obtain ⟨-, rfl⟩ := ScalarRef.make_eq_ok_iff.1 h
  exact ⟨hsymbol, derivs.sorted_sorted⟩

/-- The operations on scalars read nothing new. -/
lemma scalarClosed_reads : ScalarClosed (Reads T R) where
  number _ := trivial
  negate h := h
  apply h := h
  sum := And.intro
  difference := And.intro
  product := And.intro
  ratio := And.intro
  power := And.intro

/-- A component reads scalars that the expression reads, and those of its tensors. -/
theorem eval_reads (hR : ComponentsIn T R) (hn : n.Reads T R) (h : eval constant dim n e = .ok m) : m.Reads T R :=
  eval_induction scalarClosed_reads (fun _ _ _ hops => (reads_iff_operands hops).1)
    (fun _ _ _ _ hsymbol href => hR hsymbol href) (fun _ => id) hn h

end Components

end Expr

end Indicial
