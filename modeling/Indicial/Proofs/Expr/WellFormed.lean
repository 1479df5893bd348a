import Indicial.Expr.Build
import Indicial.Proofs.Index
import Indicial.Proofs.Outcome

/-!
# Well-formed expressions

`Built` is the closure of the checked builders: what they make from each other's results.
`WellFormed` says the same node by node (`built_iff`): the free labels of a node never repeat and fit
an index, the operands of a sum have the same free labels, a relabelling has a target for every free
label of its operand, powers and functions have operands of rank zero, and marks for derivatives do
not nest. Each builder succeeds exactly when the node it makes is well formed over its operands.
-/

namespace Indicial.Expr

/-- The rules that the builders check, at every node. -/
def WellFormed : Expr → Prop
  | literal _ labels => labels.Nodup ∧ labels.length ≤ Index.capacity
  | tensor symbol labels => symbol.order ≤ labels.length ∧ labels.length ≤ Index.capacity
  | delta labels => labels.length = 2
  | epsilon labels => 2 ≤ labels.length ∧ labels.length ≤ Index.capacity
  | scalar _ => True
  | negate e => e.WellFormed
  | apply _ e => e.WellFormed ∧ e.outer = []
  | bind e target => e.WellFormed ∧ target.length = e.outer.length
  | derivative e along =>
    e.WellFormed ∧ e.kind ≠ .derivative ∧ along ≠ [] ∧ (e.outer ++ along).length ≤ Index.capacity
  | sum l r | difference l r => l.WellFormed ∧ r.WellFormed ∧ l.outer.Perm r.outer
  | product l r =>
    l.WellFormed ∧ r.WellFormed ∧
      (Index.symmetricDifference l.outer r.outer).length ≤ Index.capacity
  | ratio l r =>
    l.WellFormed ∧ r.WellFormed ∧ r.isZero = false ∧
      (Index.symmetricDifference l.outer r.outer).length ≤ Index.capacity
  | power l r => l.WellFormed ∧ r.WellFormed ∧ l.outer = [] ∧ r.outer = []

/-- The free labels of a well-formed expression do not repeat. -/
lemma WellFormed.nodup_outer {e : Expr} (h : e.WellFormed) : e.outer.Nodup := by
  induction e with
  | literal => exact h.1
  | tensor => exact Index.nodup_exclusive _
  | delta => exact Index.nodup_exclusive _
  | epsilon => exact Index.nodup_exclusive _
  | scalar => exact List.nodup_nil
  | negate e ih => exact ih h
  | apply => exact List.nodup_nil
  | bind => exact Index.nodup_exclusive _
  | derivative => exact Index.nodup_exclusive _
  | sum l r ihl _ => exact ihl h.1
  | difference l r ihl _ => exact ihl h.1
  | product l r ihl ihr => exact Index.nodup_symmetricDifference (ihl h.1) (ihr h.2.1)
  | ratio l r ihl ihr => exact Index.nodup_symmetricDifference (ihl h.1) (ihr h.2.1)
  | power => exact List.nodup_nil

/-- The free labels of a well-formed expression fit an index. -/
lemma WellFormed.length_outer_le {e : Expr} (h : e.WellFormed) :
    e.outer.length ≤ Index.capacity := by
  induction e with
  | literal => exact h.2
  | tensor => exact Nat.le_trans (Index.length_exclusive_le _) h.2
  | delta labels =>
    refine Nat.le_trans (Index.length_exclusive_le _) ?_
    rw [show labels.length = 2 from h]
    decide
  | epsilon => exact Nat.le_trans (Index.length_exclusive_le _) h.2
  | scalar => exact Nat.zero_le _
  | negate e ih => exact ih h
  | apply => exact Nat.zero_le _
  | bind e target ih =>
    refine Nat.le_trans (Index.length_exclusive_le _) ?_
    rw [h.2]
    exact ih h.1
  | derivative => exact Nat.le_trans (Index.length_exclusive_le _) h.2.2.2
  | sum l r ihl _ => exact ihl h.1
  | difference l r ihl _ => exact ihl h.1
  | product => exact h.2.2
  | ratio => exact h.2.2.2
  | power => exact Nat.zero_le _

/-! ### When the builders succeed -/

section Builders

variable {l r e m : Expr} {labels target along : Index}

/-- A sum is built of operands with the same labels. -/
lemma mkSum_eq_ok_iff : mkSum l r = .ok m ↔ m = sum l r ∧ l.outer.Perm r.outer := by
  unfold mkSum
  rw [← Index.isPermutation_iff]
  split
  · rename_i h
    simp only [Except.ok.injEq, h, and_true]
    exact eq_comm
  · rename_i h
    simp [h]

/-- A difference is built of operands with the same labels. -/
lemma mkDifference_eq_ok_iff :
    mkDifference l r = .ok m ↔ m = difference l r ∧ l.outer.Perm r.outer := by
  unfold mkDifference
  rw [← Index.isPermutation_iff]
  split
  · rename_i h
    simp only [Except.ok.injEq, h, and_true]
    exact eq_comm
  · rename_i h
    simp [h]

/-- A product is built if its free labels fit an index. -/
lemma mkProduct_eq_ok_iff :
    mkProduct l r = .ok m ↔
      m = product l r ∧ (Index.symmetricDifference l.outer r.outer).length ≤ Index.capacity := by
  unfold mkProduct productLabels
  cases h : Index.concat (Index.minus l.outer r.outer) (Index.minus r.outer l.outer) with
  | ok x =>
    obtain ⟨-, hle⟩ := Index.concat_eq_ok_iff.1 h
    simp only [Except.ok.injEq]
    exact ⟨fun h => ⟨h.symm, hle⟩, fun h => h.1.symm⟩
  | error f =>
    simp only [reduceCtorEq, false_iff, not_and]
    rintro - hle
    rw [Index.concat_eq_ok hle] at h
    cases h

/-- A quotient is built if the denominator is no zero and the free labels fit an index. -/
lemma mkRatio_eq_ok_iff :
    mkRatio l r = .ok m ↔
      m = ratio l r ∧ r.isZero = false ∧
        (Index.symmetricDifference l.outer r.outer).length ≤ Index.capacity := by
  unfold mkRatio productLabels
  cases hz : r.isZero with
  | true => simp
  | false =>
    cases h : Index.concat (Index.minus l.outer r.outer) (Index.minus r.outer l.outer) with
    | ok x =>
      obtain ⟨-, hle⟩ := Index.concat_eq_ok_iff.1 h
      simp only [Bool.false_eq_true, if_false, Except.ok.injEq, true_and]
      exact ⟨fun h => ⟨h.symm, hle⟩, fun h => h.1.symm⟩
    | error f =>
      simp only [Bool.false_eq_true, if_false, reduceCtorEq, false_iff, not_and, true_and]
      rintro - hle
      rw [Index.concat_eq_ok hle] at h
      cases h

/-- A power is built of operands of rank zero. -/
lemma mkPower_eq_ok_iff : mkPower l r = .ok m ↔ m = power l r ∧ l.outer = [] ∧ r.outer = [] := by
  unfold mkPower
  cases hl : l.outer <;> cases hr : r.outer <;> simp [eq_comm]

/-- A function is applied to an argument of rank zero. -/
lemma mkApply_eq_ok_iff {f : Func} : mkApply f e = .ok m ↔ m = apply f e ∧ e.outer = [] := by
  unfold mkApply
  cases h : e.outer <;> simp [eq_comm]

/-- As many labels are bound as are free. -/
lemma mkBind_eq_ok_iff :
    mkBind e target = .ok m ↔ m = bind e target ∧ target.length = e.outer.length := by
  unfold mkBind
  split <;> simp_all [eq_comm]

/-- A literal is broadcast over different labels. -/
lemma mkBroadcast_eq_ok_iff {x : Literal} :
    mkBroadcast x labels = .ok m ↔ m = literal x labels ∧ labels.Nodup := by
  unfold mkBroadcast
  rw [← Index.repeated_eq_nil_iff, ← List.isEmpty_iff]
  split
  · rename_i h
    simp only [Except.ok.injEq, h, and_true]
    exact eq_comm
  · rename_i h
    simp [h]

/-- A tensor takes at least as many labels as its order. -/
lemma mkLeaf_eq_ok_iff {symbol : Tensor} :
    mkLeaf symbol labels = .ok m ↔ m = tensor symbol labels ∧ symbol.order ≤ labels.length := by
  unfold mkLeaf
  split <;> simp_all [eq_comm]

/-- A mark extends the mark below it, if there is one. -/
lemma mkDerivative_of_ok (h : mkDerivative e along = .ok m) :
    along ≠ [] ∧
      ((∃ inner first, e = derivative inner first ∧ m = derivative inner (first ++ along) ∧
          (inner.outer ++ (first ++ along)).length ≤ Index.capacity) ∨
        (e.kind ≠ .derivative ∧ m = derivative e along ∧
          (e.outer ++ along).length ≤ Index.capacity)) := by
  unfold mkDerivative at h
  cases along with
  | nil => cases h
  | cons c cs =>
    refine ⟨List.cons_ne_nil c cs, ?_⟩
    simp only [List.isEmpty_cons, Bool.false_eq_true, if_false] at h
    cases e with
    | derivative inner first =>
      obtain ⟨whole, hwhole, h⟩ := bind_eq_ok_iff.1 h
      obtain ⟨all, hall, h⟩ := bind_eq_ok_iff.1 h
      obtain ⟨rfl, -⟩ := Index.concat_eq_ok_iff.1 hwhole
      obtain ⟨-, hle⟩ := Index.concat_eq_ok_iff.1 hall
      cases h
      exact .inl ⟨inner, first, rfl, rfl, hle⟩
    | _ =>
      obtain ⟨all, hall, h⟩ := bind_eq_ok_iff.1 h
      obtain ⟨-, hle⟩ := Index.concat_eq_ok_iff.1 hall
      cases h
      exact .inr ⟨by simp [kind], rfl, hle⟩

/-- A mark is put on what is no mark if the labels fit an index. -/
lemma mkDerivative_eq_ok (hkind : e.kind ≠ .derivative) (halong : along ≠ [])
    (hle : (e.outer ++ along).length ≤ Index.capacity) :
    mkDerivative e along = .ok (derivative e along) := by
  have hempty : along.isEmpty = false := by simpa using halong
  cases e with
  | derivative => exact absurd rfl hkind
  | _ =>
    unfold mkDerivative
    simp only [hempty, Bool.false_eq_true, if_false]
    rw [Index.concat_eq_ok hle]
    rfl

end Builders

/-! ### What the builders make -/

/-- The expressions that the builders make. Labels are indices, so they fit one. -/
inductive Built : Expr → Prop where
  | broadcast {x labels e} :
    labels.length ≤ Index.capacity → mkBroadcast x labels = .ok e → Built e
  | leaf {symbol labels e} :
    labels.length ≤ Index.capacity → mkLeaf symbol labels = .ok e → Built e
  | delta {labels e} :
    labels.length ≤ Index.capacity → mkDelta labels = .ok e → Built e
  | epsilon {labels e} :
    labels.length ≤ Index.capacity → mkEpsilon labels = .ok e → Built e
  | scalar (ref : ScalarRef) :
    Built (.scalar ref)
  | negate {a e} :
    Built a → mkNegate a = .ok e → Built e
  | apply {f a e} :
    Built a → mkApply f a = .ok e → Built e
  | bind {a target e} :
    target.length ≤ Index.capacity → Built a → mkBind a target = .ok e → Built e
  | derivative {a along e} :
    along.length ≤ Index.capacity → Built a → mkDerivative a along = .ok e → Built e
  | sum {l r e} :
    Built l → Built r → mkSum l r = .ok e → Built e
  | difference {l r e} :
    Built l → Built r → mkDifference l r = .ok e → Built e
  | product {l r e} :
    Built l → Built r → mkProduct l r = .ok e → Built e
  | ratio {l r e} :
    Built l → Built r → mkRatio l r = .ok e → Built e
  | power {l r e} :
    Built l → Built r → mkPower l r = .ok e → Built e

/-- What the builders make is well formed. -/
lemma Built.wellFormed {e : Expr} (h : Built e) : e.WellFormed := by
  induction h with
  | broadcast hle h =>
    obtain ⟨rfl, hnodup⟩ := mkBroadcast_eq_ok_iff.1 h
    exact ⟨hnodup, hle⟩
  | leaf hle h =>
    obtain ⟨rfl, horder⟩ := mkLeaf_eq_ok_iff.1 h
    exact ⟨horder, hle⟩
  | delta _ h =>
    unfold mkDelta at h
    split at h
    · cases h
      assumption
    · cases h
  | epsilon hle h =>
    unfold mkEpsilon at h
    split at h
    · cases h
      exact ⟨by assumption, hle⟩
    · cases h
  | scalar => trivial
  | negate _ h ih =>
    cases h
    exact ih
  | apply _ h ih =>
    obtain ⟨rfl, hrank⟩ := mkApply_eq_ok_iff.1 h
    exact ⟨ih, hrank⟩
  | bind _ _ h ih =>
    obtain ⟨rfl, hlen⟩ := mkBind_eq_ok_iff.1 h
    exact ⟨ih, hlen⟩
  | derivative _ _ h ih =>
    obtain ⟨hne, ⟨inner, first, rfl, rfl, hle⟩ | ⟨hkind, rfl, hle⟩⟩ := mkDerivative_of_ok h
    · exact ⟨ih.1, ih.2.1, by simp [hne], hle⟩
    · exact ⟨ih, hkind, hne, hle⟩
  | sum _ _ h ihl ihr =>
    obtain ⟨rfl, hperm⟩ := mkSum_eq_ok_iff.1 h
    exact ⟨ihl, ihr, hperm⟩
  | difference _ _ h ihl ihr =>
    obtain ⟨rfl, hperm⟩ := mkDifference_eq_ok_iff.1 h
    exact ⟨ihl, ihr, hperm⟩
  | product _ _ h ihl ihr =>
    obtain ⟨rfl, hle⟩ := mkProduct_eq_ok_iff.1 h
    exact ⟨ihl, ihr, hle⟩
  | ratio _ _ h ihl ihr =>
    obtain ⟨rfl, hzero, hle⟩ := mkRatio_eq_ok_iff.1 h
    exact ⟨ihl, ihr, hzero, hle⟩
  | power _ _ h ihl ihr =>
    obtain ⟨rfl, hl, hr⟩ := mkPower_eq_ok_iff.1 h
    exact ⟨ihl, ihr, hl, hr⟩

/-- The builders make every well-formed expression. -/
lemma WellFormed.built {e : Expr} (h : e.WellFormed) : Built e := by
  induction e with
  | literal x labels => exact .broadcast h.2 (mkBroadcast_eq_ok_iff.2 ⟨rfl, h.1⟩)
  | tensor symbol labels => exact .leaf h.2 (mkLeaf_eq_ok_iff.2 ⟨rfl, h.1⟩)
  | delta labels =>
    have hlen : labels.length = 2 := h
    exact .delta (by rw [hlen]; decide) (by simp [mkDelta, hlen])
  | epsilon labels => exact .epsilon h.2 (by simp [mkEpsilon, h.1])
  | scalar ref => exact .scalar ref
  | negate e ih => exact .negate (ih h) rfl
  | apply f e ih => exact .apply (ih h.1) (mkApply_eq_ok_iff.2 ⟨rfl, h.2⟩)
  | bind e target ih =>
    refine .bind ?_ (ih h.1) (mkBind_eq_ok_iff.2 ⟨rfl, h.2⟩)
    rw [h.2]
    exact h.1.length_outer_le
  | derivative e along ih =>
    refine .derivative ?_ (ih h.1) (mkDerivative_eq_ok h.2.1 h.2.2.1 h.2.2.2)
    exact Nat.le_trans (by simp) h.2.2.2
  | sum l r ihl ihr => exact .sum (ihl h.1) (ihr h.2.1) (mkSum_eq_ok_iff.2 ⟨rfl, h.2.2⟩)
  | difference l r ihl ihr =>
    exact .difference (ihl h.1) (ihr h.2.1) (mkDifference_eq_ok_iff.2 ⟨rfl, h.2.2⟩)
  | product l r ihl ihr => exact .product (ihl h.1) (ihr h.2.1) (mkProduct_eq_ok_iff.2 ⟨rfl, h.2.2⟩)
  | ratio l r ihl ihr => exact .ratio (ihl h.1) (ihr h.2.1) (mkRatio_eq_ok_iff.2 ⟨rfl, h.2.2⟩)
  | power l r ihl ihr => exact .power (ihl h.1) (ihr h.2.1) (mkPower_eq_ok_iff.2 ⟨rfl, h.2.2⟩)

/-- The builders make exactly the well-formed expressions. -/
theorem built_iff {e : Expr} : Built e ↔ e.WellFormed :=
  ⟨Built.wellFormed, WellFormed.built⟩

/-- A relabelling is a function on the labels that it renames. -/
lemma exists_relabelling {source target : Index} (hnodup : source.Nodup)
    (hlen : target.length = source.length) : ∃ f : Label → Label, target = source.map f := by
  refine ⟨fun c => (target[(Index.position? source c).getD 0]?).getD 0, ?_⟩
  apply List.ext_getElem?
  intro i
  rw [List.getElem?_map]
  cases hi : source[i]? with
  | none =>
    have hle : target.length ≤ i := by
      rw [hlen]
      exact List.getElem?_eq_none_iff.1 hi
    simpa using hle
  | some c =>
    have hlt : i < target.length := by
      rw [hlen]
      exact (List.getElem?_eq_some_iff.1 hi).1
    simp [Index.position?_getElem hnodup hi, hlt]

/-- Where a relabelling sends a label. -/
lemma get_map_position {source : Index} (f : Label → Label) {c : Label} (hc : c ∈ source) :
    Index.get (source.map f) (Index.position source c) = .ok (f c) := by
  obtain ⟨i, hi, hget⟩ := Index.exists_position hc
  rw [Index.position_eq hi]
  exact Index.get_natCast _ (by rw [List.getElem?_map, hget]; rfl)

/-- A relabelling carries over to every reordering of the labels that it renames. -/
lemma relabel_map {source permuted : Index} (f : Label → Label) (hperm : permuted.Perm source) :
    relabel source (source.map f) permuted = .ok (permuted.map f) := by
  unfold relabel
  rw [if_pos (Index.isPermutation_iff.2 hperm)]
  apply mapM_eq_ok_of_forall
  intro c hc
  exact get_map_position f (hperm.mem_iff.1 hc)

/-! ### Builders of many nodes -/

section Many

variable {P : Expr → Prop} {e m : Expr} {terms : List Expr}

/-- What adding keeps holds of the sum of many terms. -/
lemma addAll_induction (sum : ∀ {l r m}, P l → P r → mkSum l r = .ok m → P m)
    (hterms : ∀ t ∈ terms, P t) (h : addAll terms = .ok m) : P m := by
  cases terms with
  | nil => cases h
  | cons t rest =>
    rw [List.forall_mem_cons] at hterms
    exact foldlM_preserves (fun t' ht' _ _ hl h => sum hl (hterms.2 t' ht') h) hterms.1 h

/-- What multiplying keeps holds of the product of many factors. -/
lemma multiplyAll_induction (product : ∀ {l r m}, P l → P r → mkProduct l r = .ok m → P m)
    (hfactors : ∀ t ∈ terms, P t) (h : multiplyAll terms = .ok m) : P m := by
  cases terms with
  | nil => cases h
  | cons t rest =>
    rw [List.forall_mem_cons] at hfactors
    exact foldlM_preserves (fun t' ht' _ _ hl h => product hl (hfactors.2 t' ht') h) hfactors.1 h

/-- A symmetrization is a number times a sum of relabellings, and what these builders keep holds of
it. -/
lemma symmetrize_induction (number : ∀ x, P (number x))
    (bind : ∀ {labels m}, mkBind e labels = .ok m → P m)
    (sum : ∀ {l r m}, P l → P r → mkSum l r = .ok m → P m)
    (product : ∀ {l r m}, P l → P r → mkProduct l r = .ok m → P m) (he : P e)
    (h : symmetrize e = .ok m) : P m := by
  rw [symmetrize] at h
  split at h
  · cases h
    exact he
  · obtain ⟨terms, hterms, h⟩ := bind_eq_ok_iff.1 h
    obtain ⟨share, -, h⟩ := bind_eq_ok_iff.1 h
    obtain ⟨total, htotal, h⟩ := bind_eq_ok_iff.1 h
    have hterm : ∀ t ∈ terms, P t := by
      intro t ht
      obtain ⟨labels, -, ht⟩ := exists_of_mem_right (mapM_eq_ok_iff.1 hterms) ht
      split at ht
      · cases ht
        exact he
      · exact bind ht
    exact product (number share) (addAll_induction sum hterm htotal) h

end Many

/-! ### Literals -/

section Literals

variable {e : Expr}

/-- A literal is the number it has, with its labels. -/
lemma eq_literal_of_literal? {x : Literal} (h : e.literal? = some x) :
    e = literal x e.outer := by
  cases e with
  | literal y i =>
    cases h
    rfl
  | _ => cases h

/-- A zero is a literal. -/
lemma eq_literal_of_isZero (h : e.isZero = true) :
    ∃ x, e = literal x e.outer ∧ x.isZero = true := by
  cases e with
  | literal x i => exact ⟨x, rfl, h⟩
  | _ => cases h

/-- A one is a literal without labels. -/
lemma eq_literal_of_isOne (h : e.isOne = true) : ∃ x, e = literal x [] ∧ x.isOne = true := by
  cases e with
  | literal x i =>
    rw [isOne, Bool.and_eq_true, List.isEmpty_iff] at h
    exact ⟨x, by rw [h.1], h.2⟩
  | _ => cases h

end Literals

/-! ### Operands -/

/-- The operands of a node, the only one given twice. -/
def operands? : Expr → Option (Expr × Expr)
  | negate e | apply _ e | bind e _ | derivative e _ => some (e, e)
  | sum l r | difference l r | product l r | ratio l r | power l r => some (l, r)
  | literal .. | tensor .. | delta _ | epsilon _ | scalar _ => none

section Operands

variable {n l r s : Expr}

/-- Induction over the operands of nodes. -/
theorem operandsInduction {P : Expr → Prop} (leaf : ∀ n, n.operands? = none → P n)
    (node : ∀ n l r, n.operands? = some (l, r) → P l → P r → P n) (n : Expr) : P n := by
  induction n with
  | negate e ih => exact node _ e e rfl ih ih
  | apply f e ih => exact node _ e e rfl ih ih
  | bind e target ih => exact node _ e e rfl ih ih
  | derivative e along ih => exact node _ e e rfl ih ih
  | sum l r ihl ihr => exact node _ l r rfl ihl ihr
  | difference l r ihl ihr => exact node _ l r rfl ihl ihr
  | product l r ihl ihr => exact node _ l r rfl ihl ihr
  | ratio l r ihl ihr => exact node _ l r rfl ihl ihr
  | power l r ihl ihr => exact node _ l r rfl ihl ihr
  | _ => exact leaf _ rfl

/-- The only part of a leaf is the leaf. -/
lemma mem_postorder_of_leaf (h : n.operands? = none) : s ∈ n.postorder ↔ s = n := by
  cases n <;> simp_all [operands?, postorder]

/-- The parts of a node are those of its operands and itself. -/
lemma mem_postorder_of_operands (h : n.operands? = some (l, r)) :
    s ∈ n.postorder ↔ s ∈ l.postorder ∨ s ∈ r.postorder ∨ s = n := by
  cases n with
  | literal => cases h
  | tensor => cases h
  | delta => cases h
  | epsilon => cases h
  | scalar => cases h
  | _ =>
    cases h
    simp [postorder]

/-- An expression is part of itself. -/
lemma mem_postorder_self (n : Expr) : n ∈ n.postorder := by
  cases h : n.operands? with
  | none => simp [mem_postorder_of_leaf h]
  | some p => simp [mem_postorder_of_operands h]

/-- Operands of a well-formed node are well-formed. -/
lemma wellFormed_operands (h : n.operands? = some (l, r)) (hn : n.WellFormed) :
    l.WellFormed ∧ r.WellFormed := by
  cases n <;> cases h
  case negate => exact ⟨hn, hn⟩
  case apply => exact ⟨hn.1, hn.1⟩
  case bind => exact ⟨hn.1, hn.1⟩
  case derivative => exact ⟨hn.1, hn.1⟩
  all_goals exact ⟨hn.1, hn.2.1⟩

/-- Operands of an expression without marks have none. -/
lemma hasDerivative_operands (h : n.operands? = some (l, r)) (hn : n.hasDerivative = false) :
    l.hasDerivative = false ∧ r.hasDerivative = false := by
  cases n <;> cases h <;> simp_all [hasDerivative]

end Operands

end Indicial.Expr
