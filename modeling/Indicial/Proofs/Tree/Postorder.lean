import Indicial.Proofs.Tree.Entries
import Indicial.Proofs.Tree.Valid
import Mathlib.Logic.Relation

/-!
# Postorder listings

A `Shape` is an ordered tree whose nodes have as many operands as their kinds prescribe. Its postorder
listing lets every subtree occupy the places up to its root without a gap, so the places of operands
can be counted (`Shape.operands`), and the listing determines the shape (`Shape.postorder_injective`).

A checked tree is the listing of exactly one shape. The stack of the replay is a forest: its entries
are the roots of subtrees that lie end to end (`Forest`), and a step joins the last of them under a new
root (`Forest.step`). Conversely, the replay goes through on the listing of any shape, whatever is on
the stack before (`Spans.replay`), and so does the whole check when the tables of the tree fit and its
windows are given out one after the other (`Laid.validate`).
-/

namespace Indicial

/-! ### Shapes -/

/-- An ordered tree of nodes with as many operands as their kinds prescribe. -/
inductive Shape where
  | leaf (k : Kind) (arity : k.arity = .leaf)
  | unary (k : Kind) (arity : k.arity = .unary) (operand : Shape)
  | binary (k : Kind) (arity : k.arity = .binary) (left right : Shape)

namespace Shape

/-- The number of nodes. -/
def size : Shape → Nat
  | leaf .. => 1
  | unary _ _ a => a.size + 1
  | binary _ _ l r => l.size + r.size + 1

/-- The kinds of the nodes, operands before the node that uses them. -/
def postorder : Shape → List Kind
  | leaf k _ => [k]
  | unary k _ a => a.postorder ++ [k]
  | binary k _ l r => l.postorder ++ (r.postorder ++ [k])

/-- The places of the operands of each node in postorder, when the first node stands at `first`: the
root of an operand stands last among its nodes. -/
def operands : Shape → Nat → List (Int × Int)
  | leaf .., _ => [(Tree.noChild, Tree.noChild)]
  | unary _ _ a, first => a.operands first ++ [((first + a.size : Int) - 1, Tree.noChild)]
  | binary _ _ l r, first =>
    l.operands first ++ (r.operands (first + l.size) ++
      [((first + l.size : Int) - 1, (first + l.size + r.size : Int) - 1)])

/-- There are as many kinds as nodes. -/
lemma length_postorder (s : Shape) : s.postorder.length = s.size := by
  induction s with
  | leaf => rfl
  | unary k h a ih => simp [postorder, size, ih]
  | binary k h l r ihl ihr => simp [postorder, size, ihl, ihr, Nat.add_assoc]

/-- There are as many pairs of operands as nodes. -/
lemma length_operands (s : Shape) (first : Nat) : (s.operands first).length = s.size := by
  induction s generalizing first with
  | leaf => rfl
  | unary k h a ih => simp [operands, size, ih]
  | binary k h l r ihl ihr => simp [operands, size, ihl, ihr, Nat.add_assoc]

/-- A shape has a node. -/
lemma size_pos (s : Shape) : 0 < s.size := by
  cases s with
  | leaf => exact Nat.one_pos
  | unary => exact Nat.succ_pos _
  | binary => exact Nat.succ_pos _

/-- The kind of the root, which stands last. -/
def root : Shape → Kind
  | leaf k _ => k
  | unary k _ _ => k
  | binary k _ _ _ => k

/-- The last kind is that of the root. -/
lemma getLast?_postorder (s : Shape) : s.postorder.getLast? = some s.root := by
  cases s with
  | leaf => rfl
  | unary => simp [postorder, root]
  | binary => simp [postorder, root]

/-- Lists that end in the same way have roots of one arity. -/
lemma arity_eq_of_append {s s' : Shape} {xs ys : List Kind}
    (h : xs ++ s.postorder = ys ++ s'.postorder) : s.root.arity = s'.root.arity := by
  have hlast := congrArg List.getLast? h
  rw [List.getLast?_append, List.getLast?_append, getLast?_postorder, getLast?_postorder] at hlast
  exact congrArg Kind.arity (Option.some.inj hlast)

/-- A listing is read from its end: the last kind says how many operands stand before it. -/
lemma postorder_append_inj {s s' : Shape} {xs ys : List Kind}
    (h : xs ++ s.postorder = ys ++ s'.postorder) : xs = ys ∧ s = s' := by
  induction s generalizing s' xs ys with
  | leaf k hk =>
    have harity := hk.symm.trans (arity_eq_of_append h)
    cases s' with
    | leaf k' _ =>
      obtain ⟨rfl, hlast⟩ := List.append_inj' h rfl
      cases hlast
      exact ⟨rfl, rfl⟩
    | unary k' hk' => cases harity.trans hk'
    | binary k' hk' => cases harity.trans hk'
  | unary k hk a ih =>
    have harity := hk.symm.trans (arity_eq_of_append h)
    cases s' with
    | leaf k' hk' => cases harity.trans hk'
    | unary k' hk' a' =>
      rw [postorder, postorder, ← List.append_assoc, ← List.append_assoc] at h
      obtain ⟨hoperand, hlast⟩ := List.append_inj' h rfl
      cases hlast
      obtain ⟨rfl, rfl⟩ := ih hoperand
      exact ⟨rfl, rfl⟩
    | binary k' hk' => cases harity.trans hk'
  | binary k hk l r ihl ihr =>
    have harity := hk.symm.trans (arity_eq_of_append h)
    cases s' with
    | leaf k' hk' => cases harity.trans hk'
    | unary k' hk' => cases harity.trans hk'
    | binary k' hk' l' r' =>
      simp only [postorder, ← List.append_assoc] at h
      obtain ⟨hoperands, hlast⟩ := List.append_inj' h rfl
      cases hlast
      obtain ⟨hleft, rfl⟩ := ihr hoperands
      obtain ⟨rfl, rfl⟩ := ihl hleft
      exact ⟨rfl, rfl⟩

/-- A listing determines the shape. -/
lemma postorder_injective : Function.Injective postorder := by
  intro s s' h
  exact (postorder_append_inj (congrArg ([] ++ ·) h)).2

end Shape

/-- Kinds have one code each. -/
lemma Kind.ofCode?_eq_some_iff {c : UInt8} {k : Kind} : Kind.ofCode? c = some k ↔ k.code = c := by
  constructor
  · intro h
    have hfound := List.find?_some h
    exact beq_iff_eq.1 hfound
  · rintro rfl
    exact Tree.ofCode?_code k

/-- Kinds are told apart by their codes. -/
lemma Kind.code_injective : Function.Injective Kind.code := by
  intro k k' h
  exact Option.some.inj ((ofCode?_eq_some_iff.2 rfl).symm.trans (ofCode?_eq_some_iff.2 h.symm))

namespace Tree

variable {α : Type} {t : Tree α} {s : Shape} {first last i j : Nat}

/-- The arity of a node is that of its kind. -/
lemma arity_of_kind {k : Kind} (h : t.kind? i = some k) : t.arity i = k.arity := by
  rw [arity, h]

/-- Only nodes have a kind. -/
lemma lt_nodes_of_kind {k : Kind} (h : t.kind? i = some k) : i < t.nodes := by
  by_contra hi
  have hnone : t.kind? i = none := by
    rw [kind?, tag, Array.getD_eq_getD_getElem?, Array.getElem?_eq_none (not_lt.1 hi)]
    rfl
  cases hnone.symm.trans h

/-! ### The places of a subtree -/

/-- The nodes from `first` to `last` are a listing of the shape. -/
inductive Spans (t : Tree α) : Shape → Nat → Nat → Prop where
  | leaf {k i} (arity : k.arity = .leaf) :
    t.kind? i = some k →
    t.left.getD i 0 = -1 →
    Spans t (.leaf k arity) i i
  | unary {k a first c} (arity : k.arity = .unary) :
    Spans t a first c →
    t.kind? (c + 1) = some k →
    Spans t (.unary k arity a) first (c + 1)
  | binary {k l r first m c} (arity : k.arity = .binary) :
    Spans t l first m →
    Spans t r (m + 1) c →
    t.kind? (c + 1) = some k →
    (t.left.getD (c + 1) 0).toInt = m →
    Spans t (.binary k arity l r) first (c + 1)

namespace Spans

/-- A subtree has as many nodes as its shape. -/
lemma last_succ (h : t.Spans s first last) : last + 1 = first + s.size := by
  induction h with
  | leaf => rfl
  | unary _ _ _ ih => simp only [Shape.size]; omega
  | binary _ _ _ _ _ ihl ihr => simp only [Shape.size]; omega

/-- The first node of a subtree is not behind its last one. -/
lemma first_le (h : t.Spans s first last) : first ≤ last := by
  have hlast := h.last_succ
  have hpos := s.size_pos
  omega

/-- The kinds are listed in postorder. -/
lemma kinds (h : t.Spans s first last) :
    (List.range' first s.size).map t.kind? = s.postorder.map some := by
  induction h with
  | leaf _ hk => simp [Shape.size, Shape.postorder, hk]
  | unary _ ha hk ih =>
    have hlast := ha.last_succ
    rw [Shape.size, Shape.postorder, List.range'_concat, List.map_append, List.map_append, ih,
      Nat.one_mul, ← hlast]
    simp [hk]
  | @binary k l r first m c _ hl hr hk _ ihl ihr =>
    have hm := hl.last_succ
    have hc := hr.last_succ
    rw [Shape.size, Shape.postorder, List.range'_concat, Nat.one_mul, ← List.range'_append_1, ← hm,
      List.append_assoc, List.map_append, List.map_append, List.map_append, List.map_append, ihl, ihr]
    have hplace : first + (l.size + r.size) = c + 1 := by omega
    simp [hplace, hk]

/-- The operands of each node stand where the shape has them. -/
lemma children (h : t.Spans s first last) :
    (List.range' first s.size).map t.children = s.operands first := by
  induction h with
  | @leaf k i arity hk =>
    simp [Shape.size, Shape.operands, children_of_leaf ((arity_of_kind hk).trans arity)]
  | @unary k a first c arity ha hk ih =>
    have hlast := ha.last_succ
    have hroot := children_of_unary ((arity_of_kind hk).trans arity)
    rw [Shape.size, Shape.operands, List.range'_concat, List.map_append, ih, Nat.one_mul, ← hlast,
      List.map_singleton, hroot]
    congr 3
    omega
  | @binary k l r first m c arity hl hr hk hleft ihl ihr =>
    have hm := hl.last_succ
    have hc := hr.last_succ
    have hroot := children_of_binary ((arity_of_kind hk).trans arity)
    have hplace : first + (l.size + r.size) = c + 1 := by omega
    rw [Shape.size, Shape.operands, List.range'_concat, Nat.one_mul, ← List.range'_append_1,
      List.append_assoc, List.map_append, List.map_append, hplace, List.map_singleton, hroot, hleft]
    rw [hm] at ihr
    rw [ihl, ihr]
    congr 4
    · omega
    · omega

end Spans

/-- A listing with its operands in place spans the shape. -/
lemma exists_spans (hkinds : (List.range' first s.size).map t.kind? = s.postorder.map some)
    (hchildren : (List.range' first s.size).map t.children = s.operands first)
    (hleaf : ∀ i, t.arity i = .leaf → first ≤ i → i < first + s.size → t.left.getD i 0 = -1) :
    ∃ last, t.Spans s first last := by
  -- The listing of a shape is those of its operands one after the other, so the kinds and the
  -- operand slots split at the same places.
  induction s generalizing first with
  | leaf k arity =>
    have hk : t.kind? first = some k := by simpa [Shape.size, Shape.postorder] using hkinds
    have hleft := hleaf first ((arity_of_kind hk).trans arity) le_rfl (by simp [Shape.size])
    exact ⟨first, .leaf arity hk hleft⟩
  | unary k arity a ih =>
    rw [Shape.size, List.range'_concat, List.map_append, Nat.one_mul] at hkinds hchildren
    rw [Shape.postorder, List.map_append] at hkinds
    rw [Shape.operands] at hchildren
    obtain ⟨hkinds, hk⟩ := List.append_inj' hkinds (by simp)
    obtain ⟨hchildren, -⟩ := List.append_inj' hchildren (by simp)
    obtain ⟨c, hc⟩ := ih hkinds hchildren fun i harity hlow hhigh =>
      hleaf i harity hlow (by rw [Shape.size]; omega)
    rw [← hc.last_succ] at hk
    exact ⟨c + 1, .unary arity hc (by simpa using hk)⟩
  | binary k arity l r ihl ihr =>
    rw [Shape.size, List.range'_concat, Nat.one_mul, ← List.range'_append_1, List.append_assoc,
      List.map_append, List.map_append] at hkinds hchildren
    rw [Shape.postorder, List.map_append, List.map_append] at hkinds
    rw [Shape.operands] at hchildren
    obtain ⟨hlkinds, hkinds⟩ := List.append_inj hkinds (by simp [Shape.length_postorder])
    obtain ⟨hrkinds, hk⟩ := List.append_inj' hkinds (by simp)
    obtain ⟨hlchildren, hchildren⟩ := List.append_inj hchildren (by simp [Shape.length_operands])
    obtain ⟨hrchildren, hroot⟩ := List.append_inj' hchildren (by simp)
    obtain ⟨m, hm⟩ := ihl hlkinds hlchildren fun i harity hlow hhigh =>
      hleaf i harity hlow (by rw [Shape.size]; omega)
    obtain ⟨c, hc⟩ := ihr hrkinds hrchildren fun i harity hlow hhigh =>
      hleaf i harity (by omega) (by rw [Shape.size]; omega)
    have hmlast := hm.last_succ
    have hclast := hc.last_succ
    have hplace : first + (l.size + r.size) = c + 1 := by omega
    rw [hplace] at hk hroot
    have hk : t.kind? (c + 1) = some k := by simpa using hk
    rw [List.map_singleton, children_of_binary ((arity_of_kind hk).trans arity)] at hroot
    rw [← hmlast] at hc
    refine ⟨c + 1, .binary arity hm hc hk ?_⟩
    have hleft := congrArg Prod.fst (List.cons.inj hroot).1
    dsimp only at hleft
    omega

/-! ### Soundness of the replay -/

/-- The stack holds the roots of subtrees that lie end to end before place `n`, the last first. -/
inductive Forest (t : Tree α) : List Nat → Nat → Prop where
  | nil : Forest t [] 0
  | cons {s stack first last} :
    Forest t stack first →
    t.Spans s first last →
    Forest t (last :: stack) (last + 1)

/-- An allowed kind is neither a mark nor a tensor. -/
lemma exists_kind_of_isAllowed (h : t.isAllowed i = true) :
    ∃ k, t.kind? i = some k ∧ k ≠ .derivative ∧ k ≠ .tensor := by
  rw [isAllowed] at h
  cases hk : t.kind? i with
  | none =>
    rw [hk] at h
    cases h
  | some k =>
    rw [hk] at h
    refine ⟨k, rfl, ?_, ?_⟩
    all_goals
      rintro rfl
      cases h

/-- A node joins the last subtrees of a forest under a new root. -/
lemma Forest.step {stack stack' : List Nat} {n : Nat} (h : t.Forest stack n)
    (hstep : t.replayNode stack n = .ok stack') : t.Forest stack' (n + 1) := by
  obtain ⟨hallowed, rest, htaken, -, -, -, rfl⟩ := replayNode_eq_ok_iff.1 hstep
  obtain ⟨k, hk, -, -⟩ := exists_kind_of_isAllowed hallowed
  have hkind := arity_of_kind hk
  cases htaken with
  | leaf harity hleft => exact .cons h (.leaf (hkind.symm.trans harity) hk hleft)
  | unary harity _ =>
    cases h with
    | cons hforest ha => exact .cons hforest (.unary (hkind.symm.trans harity) ha hk)
  | binary harity hleft _ _ =>
    cases h with
    | cons hforest hr =>
      cases hforest with
      | cons hforest hl =>
        exact .cons hforest (.binary (hkind.symm.trans harity) hl hr hk hleft)

/-- A tree that replays leaves its stack as a forest. -/
lemma forest_of_replay {stack : List Nat} (h : t.replay = .ok stack) : t.Forest stack t.nodes :=
  foldlM_range_preserves (P := fun n stack => t.Forest stack n) .nil
    (fun _ _ _ _ hforest hstep => hforest.step hstep) h

/-- A checked tree is the listing of a shape. -/
lemma Valid.exists_spans (h : t.Valid) : ∃ s, t.Spans s 0 t.root ∧ t.nodes = s.size := by
  obtain ⟨stack, hreplay, hlength⟩ := h.replay
  have hforest := forest_of_replay hreplay
  generalize hn : t.nodes = n at hforest
  cases hforest with
  | nil => cases hlength
  | @cons s stack first last hforest hs =>
    obtain rfl : stack = [] := by simpa using hlength
    cases hforest with
    | nil =>
      have hroot : t.root = last := by rw [root, hn, Nat.add_sub_cancel]
      have hsize := hs.last_succ
      exact ⟨s, by rwa [hroot], by omega⟩

/-! ### Completeness of the replay -/

/-- The replay of a listing finishes one subtree, whatever subtrees were finished before. -/
lemma Spans.replay (h : t.Spans s first last)
    (hnode : ∀ {i stack rest}, first ≤ i → i ≤ last → t.Taken i stack rest →
      t.replayNode stack i = .ok (i :: rest)) (stack : List Nat) :
    (List.range' first s.size).foldlM t.replayNode stack = .ok (last :: stack) := by
  induction h generalizing stack with
  | @leaf k i arity hk hleft =>
    have htaken : t.Taken i stack stack := .leaf ((arity_of_kind hk).trans arity) hleft
    rw [Shape.size, List.range'_one, List.foldlM_cons, hnode le_rfl le_rfl htaken, ok_bind]
    rfl
  | @unary k a first c arity ha hk ih =>
    have hlast := ha.last_succ
    have hlow := ha.first_le
    have htaken : t.Taken (c + 1) (c :: stack) stack := .unary ((arity_of_kind hk).trans arity) rfl
    rw [Shape.size, List.range'_concat, List.foldlM_append,
      ih (fun hi hc => hnode hi (by omega)) stack, ok_bind, Nat.one_mul, ← hlast, List.foldlM_cons,
      hnode (by omega) le_rfl htaken, ok_bind]
    rfl
  | @binary k l r first m c arity hl hr hk hleft ihl ihr =>
    have hm := hl.last_succ
    have hc := hr.last_succ
    have hllow := hl.first_le
    have hrlow := hr.first_le
    have htaken : t.Taken (c + 1) (c :: m :: stack) stack :=
      .binary ((arity_of_kind hk).trans arity) hleft (by omega) rfl
    have hplace : first + (l.size + r.size) = c + 1 := by omega
    rw [Shape.size, List.range'_concat, Nat.one_mul, ← List.range'_append_1, hplace,
      List.foldlM_append, List.foldlM_append, ihl (fun hi hm => hnode hi (by omega)) stack, ok_bind,
      ← hm, ihr (fun hi hc => hnode (by omega) (by omega)) (m :: stack), ok_bind, List.foldlM_cons,
      hnode (by omega) le_rfl htaken, ok_bind]
    rfl

/-! ### Operands and subtrees -/

/-- Node `j` is an operand of node `i`. -/
def HasOperand (t : Tree α) (i j : Nat) : Prop := (t.children i).1 = j ∨ (t.children i).2 = j

/-- Node `j` belongs to the subtree of node `i`. -/
def Descends (t : Tree α) : Nat → Nat → Prop := Relation.ReflTransGen t.HasOperand

/-- Leaves have no operands. -/
lemma not_hasOperand_of_leaf (h : t.arity i = .leaf) : ¬t.HasOperand i j := by
  rw [HasOperand, children_of_leaf h, noChild]
  omega

/-- The operand of a unary node is the node before it. -/
lemma hasOperand_of_unary {c : Nat} (h : t.arity (c + 1) = .unary) : t.HasOperand (c + 1) j ↔ j = c := by
  rw [HasOperand, children_of_unary h, noChild]
  omega

/-- The operands of a binary node are its left one and the node before it. -/
lemma hasOperand_of_binary {m c : Nat} (h : t.arity (c + 1) = .binary)
    (hleft : (t.left.getD (c + 1) 0).toInt = m) : t.HasOperand (c + 1) j ↔ j = m ∨ j = c := by
  rw [HasOperand, children_of_binary h, hleft]
  omega

namespace Spans

/-- Every node of a listing is the last of its own subtree. -/
lemma exists_ending (h : t.Spans s first last) (hlow : first ≤ i) (hhigh : i ≤ last) :
    ∃ s' first', first ≤ first' ∧ t.Spans s' first' i := by
  induction h with
  | leaf arity hk hleft =>
    obtain rfl := le_antisymm hhigh hlow
    exact ⟨_, _, le_rfl, .leaf arity hk hleft⟩
  | @unary k a first c arity ha hk ih =>
    rcases Nat.le_succ_iff.1 hhigh with hc | rfl
    · exact ih hlow hc
    · exact ⟨_, first, le_rfl, .unary arity ha hk⟩
  | @binary k l r first m c arity hl hr hk hleft ihl ihr =>
    rcases Nat.le_succ_iff.1 hhigh with hc | rfl
    · rcases Nat.lt_or_ge m i with hm | hm
      · obtain ⟨s', first', hfirst, hs'⟩ := ihr hm hc
        have hllow := hl.first_le
        exact ⟨s', first', by omega, hs'⟩
      · exact ihl hlow hm
    · exact ⟨_, first, le_rfl, .binary arity hl hr hk hleft⟩

/-- The leaves of a subtree have no left operand. -/
lemma left_of_leaf (h : t.Spans s first last) (hlow : first ≤ i) (hhigh : i ≤ last)
    (hleaf : t.arity i = .leaf) : t.left.getD i 0 = -1 := by
  obtain ⟨_, _, -, hs'⟩ := h.exists_ending hlow hhigh
  cases hs' with
  | leaf _ _ hleft => exact hleft
  | unary arity _ hk => cases (hleaf.symm.trans ((arity_of_kind hk).trans arity))
  | binary arity _ _ hk _ => cases (hleaf.symm.trans ((arity_of_kind hk).trans arity))

/-- The operands of the last node of a listing belong to it. -/
lemma root_operand (h : t.Spans s first last) (hj : t.HasOperand last j) : first ≤ j ∧ j < last := by
  cases h with
  | @leaf k _ arity hk => exact absurd hj (not_hasOperand_of_leaf ((arity_of_kind hk).trans arity))
  | @unary k a _ c arity ha hk =>
    rw [hasOperand_of_unary ((arity_of_kind hk).trans arity)] at hj
    have hlow := ha.first_le
    omega
  | @binary k l r _ m c arity hl hr hk hleft =>
    rw [hasOperand_of_binary ((arity_of_kind hk).trans arity) hleft] at hj
    have hllow := hl.first_le
    have hrlow := hr.first_le
    omega

/-- The operands of nodes of a subtree are in it, before their node. -/
lemma operand (h : t.Spans s first last) (hlow : first ≤ i) (hhigh : i ≤ last)
    (hj : t.HasOperand i j) : first ≤ j ∧ j < i := by
  obtain ⟨s', first', hfirst, hs'⟩ := h.exists_ending hlow hhigh
  obtain ⟨hlow, hlt⟩ := hs'.root_operand hj
  exact ⟨hfirst.trans hlow, hlt⟩

/-- All nodes of a listing belong to the subtree of the last. -/
lemma descends (h : t.Spans s first last) (hlow : first ≤ j) (hhigh : j ≤ last) :
    t.Descends last j := by
  induction h with
  | leaf =>
    obtain rfl := le_antisymm hhigh hlow
    exact .refl
  | @unary k a first c arity ha hk ih =>
    rcases Nat.le_succ_iff.1 hhigh with hc | rfl
    · exact .head ((hasOperand_of_unary ((arity_of_kind hk).trans arity)).2 rfl) (ih hlow hc)
    · exact .refl
  | @binary k l r first m c arity hl hr hk hleft ihl ihr =>
    have hoperand {j : Nat} := hasOperand_of_binary (j := j) ((arity_of_kind hk).trans arity) hleft
    rcases Nat.le_succ_iff.1 hhigh with hc | rfl
    · rcases Nat.lt_or_ge m j with hm | hm
      · exact .head (hoperand.2 (.inr rfl)) (ihr hm hc)
      · exact .head (hoperand.2 (.inl rfl)) (ihl hlow hm)
    · exact .refl

/-- The subtree of the last node is the whole listing. -/
lemma descends_iff (h : t.Spans s first last) : t.Descends last j ↔ first ≤ j ∧ j ≤ last := by
  constructor
  · intro hj
    induction hj with
    | refl => exact ⟨h.first_le, le_rfl⟩
    | tail _ hoperand ih =>
      obtain ⟨hlow, hlt⟩ := h.operand ih.1 ih.2 hoperand
      exact ⟨hlow, by omega⟩
  · rintro ⟨hlow, hhigh⟩
    exact h.descends hlow hhigh

/-- Every node of a subtree but the last has a parent in it. -/
lemma exists_parent (h : t.Spans s first last) (hlow : first ≤ j) (hhigh : j < last) :
    ∃ i, i ≤ last ∧ t.HasOperand i j := by
  induction h with
  | leaf => omega
  | @unary k a first c arity ha hk ih =>
    rcases Nat.lt_or_ge j c with hc | hc
    · obtain ⟨i, hi, hoperand⟩ := ih hlow hc
      exact ⟨i, by omega, hoperand⟩
    · refine ⟨c + 1, le_rfl, (hasOperand_of_unary ((arity_of_kind hk).trans arity)).2 ?_⟩
      omega
  | @binary k l r first m c arity hl hr hk hleft ihl ihr =>
    have hoperand {j : Nat} := hasOperand_of_binary (j := j) ((arity_of_kind hk).trans arity) hleft
    have hrlow := hr.first_le
    rcases Nat.lt_trichotomy j m with hm | rfl | hm
    · obtain ⟨i, hi, hij⟩ := ihl hlow hm
      exact ⟨i, by omega, hij⟩
    · exact ⟨c + 1, le_rfl, hoperand.2 (.inl rfl)⟩
    · rcases Nat.lt_or_ge j c with hc | hc
      · obtain ⟨i, hi, hij⟩ := ihr hm hc
        exact ⟨i, by omega, hij⟩
      · exact ⟨c + 1, le_rfl, hoperand.2 (.inr (by omega))⟩

/-- No node is an operand twice: nodes of one operand have their operands in it, and the root has the
roots of its operands, which no node before it can have. -/
lemma parent_unique {i' : Nat} (h : t.Spans s first last) (hlow : first ≤ i) (hhigh : i ≤ last)
    (hlow' : first ≤ i') (hhigh' : i' ≤ last) (hi : t.HasOperand i j) (hi' : t.HasOperand i' j) :
    i = i' := by
  induction h with
  | leaf => omega
  | @unary k a first c arity ha hk ih =>
    have hroot {j : Nat} := hasOperand_of_unary (j := j) ((arity_of_kind hk).trans arity)
    rcases Nat.le_succ_iff.1 hhigh with hc | rfl <;> rcases Nat.le_succ_iff.1 hhigh' with hc' | rfl
    · exact ih hlow hc hlow' hc'
    · have hlt := ha.operand hlow hc hi
      rw [hroot] at hi'
      omega
    · have hlt := ha.operand hlow' hc' hi'
      rw [hroot] at hi
      omega
    · rfl
  | @binary k l r first m c arity hl hr hk hleft ihl ihr =>
    have hroot {j : Nat} := hasOperand_of_binary (j := j) ((arity_of_kind hk).trans arity) hleft
    -- Where the operand of a node lies tells the part that the node is in.
    have hpart {i : Nat} (hlow : first ≤ i) (hhigh : i ≤ c + 1) (hij : t.HasOperand i j) :
        i ≤ m ∧ j < m ∨ (m < i ∧ i ≤ c ∧ m < j ∧ j < c) ∨ i = c + 1 ∧ (j = m ∨ j = c) := by
      rcases Nat.le_succ_iff.1 hhigh with hc | rfl
      · rcases Nat.lt_or_ge m i with hm | hm
        · have hlt := hr.operand hm hc hij
          omega
        · have hlt := hl.operand hlow hm hij
          omega
      · exact .inr (.inr ⟨rfl, hroot.1 hij⟩)
    rcases hpart hlow hhigh hi with hm | hm | hm <;> rcases hpart hlow' hhigh' hi' with hm' | hm' | hm'
    · exact ihl hlow hm.1 hlow' hm'.1
    · omega
    · omega
    · omega
    · exact ihr hm.1 hm.2.1 hm'.1 hm'.2.1
    · omega
    · omega
    · omega
    · omega

end Spans

/-! ### Trees that are accepted -/

/-- Windows are given out from slot zero on, each where the one before it ends. -/
structure WindowsTile (t : Tree α) : Prop where
  first : (t.offset 0).toInt = 0
  next : ∀ i, i + 1 < t.nodes → (t.offset (i + 1)).toInt = (t.offset i).toInt + t.components i
  last : t.depth.toInt = (t.offset t.root).toInt + t.components t.root

/-- Windows begin in the order of the nodes. -/
lemma WindowsTile.offset_le (h : t.WindowsTile) (hij : i ≤ j) (hj : j < t.nodes) :
    (t.offset i).toInt ≤ (t.offset j).toInt := by
  induction j, hij using Nat.le_induction with
  | base => exact le_rfl
  | succ j hij ih =>
    have hprev := ih (by omega)
    have hnext := h.next j hj
    omega

/-- Windows end where later ones begin, or before. -/
lemma WindowsTile.end_le (h : t.WindowsTile) (hij : i < j) (hj : j < t.nodes) :
    (t.offset i).toInt + t.components i ≤ (t.offset j).toInt := by
  rw [← h.next i (by omega)]
  exact h.offset_le hij hj

/-- The tree lists the shape, its operands are recorded where they stand, every table has a row for
each node, and windows are given out one after the other. -/
structure Laid (t : Tree α) (s : Shape) : Prop where
  dim : 1 ≤ t.dim.toInt ∧ t.dim.toInt ≤ 16
  tags : t.tags.toList = s.postorder.map Kind.code
  allowed : ∀ k ∈ s.postorder, k ≠ .derivative ∧ k ≠ .tensor
  children : (List.range t.nodes).map t.children = s.operands 0
  leaf : ∀ i < t.nodes, t.arity i = .leaf → t.left.getD i 0 = -1
  left : t.left.size = t.nodes
  values : t.values.size = t.nodes
  funcs : t.funcs.size = t.nodes
  offsets : t.offsets.size = t.nodes
  outer : t.outer.Covers t.nodes
  inner : t.inner.Covers t.nodes
  binding : t.binding.Covers t.nodes
  ids : t.ids.Covers t.nodes
  labels : ∀ i < t.nodes, (t.outer.row i).length ≤ Index.capacity ∧
    (t.inner.row i).length ≤ Index.capacity ∧ (t.binding.row i).length ≤ Index.capacity
  windows : t.WindowsTile

/-- The kinds of the nodes are those of a list of tags. -/
lemma map_kind?_of_tags {ks : List Kind} (h : t.tags.toList = ks.map Kind.code) :
    (List.range t.nodes).map t.kind? = ks.map some := by
  have hnodes : t.nodes = ks.length := by rw [nodes, ← Array.length_toList, h, List.length_map]
  refine List.ext_getElem (by simp [hnodes]) fun i hi hi' => ?_
  have hlt : i < t.tags.toList.length := by simpa [nodes] using hi
  have htag : t.tag i = t.tags.toList[i] := by
    rw [tag, Array.getD_eq_getD_getElem?, ← Array.getElem?_toList, List.getElem?_eq_getElem hlt,
      Option.getD_some]
  simp only [List.getElem_map, List.getElem_range, kind?, htag, h, ofCode?_code]

namespace Laid

/-- A listing has as many nodes as its shape. -/
lemma nodes_eq (h : t.Laid s) : t.nodes = s.size := by
  rw [nodes, ← Array.length_toList, h.tags, List.length_map, Shape.length_postorder]

/-- The whole tree is one subtree. -/
lemma spans (h : t.Laid s) : t.Spans s 0 t.root := by
  have hkinds := map_kind?_of_tags h.tags
  have hchildren := h.children
  rw [List.range_eq_range', h.nodes_eq] at hkinds hchildren
  obtain ⟨last, hs⟩ := Tree.exists_spans hkinds hchildren fun i harity _ hi =>
    h.leaf i (by rw [h.nodes_eq]; omega) harity
  have hlast := hs.last_succ
  obtain rfl : last = t.root := by
    rw [root, h.nodes_eq]
    omega
  exact hs

/-- The size of a node is the word of its components. -/
lemma size_eq (h : t.Laid s) (hi : i < t.nodes) : t.size i = Int64.ofNat (t.components i) :=
  size_eq_of_covers (Int.le_trans (by decide) h.dim.1) h.outer hi (h.labels i hi).1

/-- A node has at most sixteen to the eighth components. -/
lemma components_le (h : t.Laid s) (hi : i < t.nodes) : t.components i ≤ 16 ^ 8 := by
  have hdim := h.dim.2
  exact Layout.components_le (by omega) (h.labels i hi).1

/-- The window of a node ends behind its components. -/
lemma windowEnd_eq (h : t.Laid s) (hi : i < t.nodes) :
    t.windowEnd i = (t.offset i).toInt + t.components i := by
  rw [windowEnd, h.size_eq hi,
    Int64.toInt_ofNat_of_lt ((h.components_le hi).trans_lt (by decide))]

/-- The watermark behind a window is where it ends. -/
lemma toInt_watermark (h : t.Laid s) (hi : i < t.nodes)
    (hlt : (t.offset i).toInt + t.components i < 2 ^ 31) :
    (t.watermark i).toInt = (t.offset i).toInt + t.components i := by
  have hend := h.windowEnd_eq hi
  have hsize : 0 ≤ (t.size i).toInt := by
    rw [windowEnd] at hend
    omega
  rw [Tree.toInt_watermark hsize (by omega), hend]

/-- The window check passes for an operand. -/
lemma validateWindow (h : t.Laid s) (hji : j < i) (hi : i < t.nodes) :
    t.validateWindow i j = .ok () := by
  have hle := h.components_le (show j < t.nodes by omega)
  have hsize : (t.size j).toInt = t.components j := by
    rw [h.size_eq (by omega), Int64.toInt_ofNat_of_lt (hle.trans_lt (by decide))]
  have hwindow := h.windows.end_le hji hi
  rw [validateWindow_eq_ok_iff (by omega) (by omega), windowEnd, hsize]
  exact hwindow

/-- All kinds are allowed. -/
lemma isAllowed (h : t.Laid s) (hi : i < t.nodes) : t.isAllowed i = true := by
  obtain ⟨k, hk, hkind⟩ : ∃ k ∈ s.postorder, t.kind? i = some k := by
    have hmem : t.kind? i ∈ s.postorder.map some := by
      rw [← map_kind?_of_tags h.tags]
      exact List.mem_map_of_mem (List.mem_range.2 hi)
    obtain ⟨k, hk, hkind⟩ := List.mem_map.1 hmem
    exact ⟨k, hk, hkind.symm⟩
  obtain ⟨hderivative, htensor⟩ := h.allowed k hk
  rw [Tree.isAllowed, hkind]
  cases k with
  | derivative => exact absurd rfl hderivative
  | tensor => exact absurd rfl htensor
  | _ => rfl

/-- A node whose operands are the last finished subtrees passes the checks of the replay. -/
lemma replayNode (h : t.Laid s) (hi : i < t.nodes) {stack rest : List Nat}
    (htaken : t.Taken i stack rest) : t.replayNode stack i = .ok (i :: rest) := by
  have hrising : 0 < i → t.watermark (i - 1) ≤ t.offset i := by
    intro hpos
    have hend := h.windows.end_le (show i - 1 < i by omega) hi
    have hlt := (t.offset i).toInt_lt
    rw [Int32.le_iff_toInt_le, h.toInt_watermark (by omega) (by omega)]
    exact hend
  refine replayNode_eq_ok_iff.2 ⟨h.isAllowed hi, rest, htaken, ?_, ?_, hrising, rfl⟩
  · cases htaken with
    | leaf harity => rw [children_of_leaf harity, Tree.validateWindow, if_pos rfl]
    | @unary c _ harity hc =>
      rw [children_of_unary harity, show (i : Int) - 1 = c by omega]
      exact h.validateWindow (by omega) hi
    | binary harity hl hlr hr =>
      rw [children_of_binary harity, hl]
      exact h.validateWindow (by omega) hi
  · cases htaken with
    | leaf harity => rw [children_of_leaf harity, Tree.validateWindow, if_pos rfl]
    | unary harity => rw [children_of_unary harity, Tree.validateWindow, if_pos rfl]
    | @binary l r _ harity hl hlr hr =>
      rw [children_of_binary harity, show (i : Int) - 1 = r by omega]
      exact h.validateWindow (by omega) hi

/-- Replaying the tree leaves its root alone. -/
lemma replay (h : t.Laid s) : t.replay = .ok [t.root] := by
  have hpos := s.size_pos
  have hnodes := h.nodes_eq
  rw [Tree.replay, List.range_eq_range', hnodes]
  exact h.spans.replay (fun _ hi => h.replayNode (by rw [root] at hi; omega)) []

/-- A listing that is laid out passes every check. -/
theorem validate (h : t.Laid s) : t.validate = .ok () := by
  have hpos : 0 < t.nodes := h.nodes_eq ▸ s.size_pos
  have hroot : t.root < t.nodes := by
    rw [root]
    omega
  have hdepth : t.depth = t.watermark t.root := by
    apply Int32.toInt_inj.1
    have hlast := h.windows.last
    have hlt := t.depth.toInt_lt
    rw [h.toInt_watermark hroot (by omega), hlast]
  have hdim : ¬(t.dim < 1 || maxDim < t.dim) := by
    simp only [Bool.or_eq_true, decide_eq_true_eq, not_or, Int64.lt_iff_toInt_lt, not_lt]
    exact h.dim
  have hsizes : ¬(t.left.size ≠ t.nodes || t.values.size ≠ t.nodes || t.funcs.size ≠ t.nodes ||
      t.offsets.size ≠ t.nodes) := by
    simp [h.left, h.values, h.funcs, h.offsets]
  refine guard_eq_ok_iff.2 ⟨by omega, guard_eq_ok_iff.2 ⟨hdim, guard_eq_ok_iff.2 ⟨hsizes, ?_⟩⟩⟩
  rw [validateLabels_of_covers _ hpos h.outer fun i hi => (h.labels i hi).1, ok_bind,
    validateLabels_of_covers _ hpos h.inner fun i hi => (h.labels i hi).2.1, ok_bind,
    validateLabels_of_covers _ hpos h.binding fun i hi => (h.labels i hi).2.2, ok_bind,
    h.ids.validate _ hpos, ok_bind, h.replay, ok_bind]
  refine guard_eq_ok_iff.2 ⟨by simp, ?_⟩
  rw [if_neg (not_not.2 hdepth)]
  rfl

end Laid

/-! ### Exactly the postorder trees -/

/-- The tags of a tree are the codes of its shape in postorder. -/
lemma Spans.tags (h : t.Spans s 0 t.root) (hnodes : t.nodes = s.size) :
    t.tags.toList = s.postorder.map Kind.code := by
  have hkinds := h.kinds
  rw [← hnodes, ← List.range_eq_range'] at hkinds
  refine List.ext_getElem (by simp [Shape.length_postorder, ← hnodes, nodes]) fun i hi hi' => ?_
  have hlt : i < s.postorder.length := by simpa using hi'
  have hkind : t.kind? i = some s.postorder[i] := by
    have hget := congrArg (fun l => l[i]?) hkinds
    have hrange : i < t.nodes := by simpa [nodes] using hi
    simpa [hrange, hlt] using hget
  rw [kind?, Kind.ofCode?_eq_some_iff, tag, Array.getD_eq_getD_getElem?, ← Array.getElem?_toList,
    List.getElem?_eq_getElem hi, Option.getD_some] at hkind
  rw [List.getElem_map, hkind]

/-- Only nodes have operands. -/
lemma lt_nodes_of_hasOperand (h : t.HasOperand i j) : i < t.nodes := by
  by_contra hi
  have hkind : t.kind? i = none := by
    cases hk : t.kind? i with
    | none => rfl
    | some k => exact absurd (lt_nodes_of_kind hk) hi
  exact not_hasOperand_of_leaf (by rw [arity, hkind]) h

/-- The check accepts postorder listings: an accepted tree lists exactly one shape, the operands of
its nodes stand where the shape has them, so that subtrees occupy the places up to their root and every
node but the root is an operand of exactly one node. Conversely every listing that is laid out is
accepted. -/
theorem validate_recognises_postorder (t : Tree α) :
    (t.validate = .ok () →
      (∃! s : Shape, t.tags.toList = s.postorder.map Kind.code) ∧
      (∀ s : Shape, t.tags.toList = s.postorder.map Kind.code →
        (List.range t.nodes).map t.children = s.operands 0) ∧
      (∀ i < t.nodes, ∃ first, ∀ j, t.Descends i j ↔ first ≤ j ∧ j ≤ i) ∧
      (∀ j < t.nodes, j ≠ t.root → ∃! i, t.HasOperand i j)) ∧
    ∀ s : Shape, t.Laid s → t.validate = .ok () := by
  refine ⟨fun hvalidate => ?_, fun s hs => hs.validate⟩
  have hvalid := valid_of_validate hvalidate
  have hpos := hvalid.nodes_pos
  have hroot : ∀ {i}, i < t.nodes → i ≤ t.root := by
    intro i hi
    rw [root]
    omega
  obtain ⟨s, hs, hnodes⟩ := hvalid.exists_spans
  have htags := hs.tags hnodes
  -- The tags alone determine the shape: a listing in postorder is read in one way only.
  have hunique : ∀ {s' : Shape}, t.tags.toList = s'.postorder.map Kind.code → s' = s := by
    intro s' hs'
    apply Shape.postorder_injective
    exact List.map_injective_iff.2 Kind.code_injective (hs'.symm.trans htags)
  refine ⟨⟨s, htags, fun s' => hunique⟩, fun s' hs' => ?_, fun i hi => ?_, fun j hj hne => ?_⟩
  · rw [hunique hs', ← hs.children, ← hnodes, List.range_eq_range']
  · obtain ⟨_, first, -, hi⟩ := hs.exists_ending (Nat.zero_le i) (hroot hi)
    exact ⟨first, fun j => hi.descends_iff⟩
  · have hlt : j < t.root := lt_of_le_of_ne (hroot hj) hne
    obtain ⟨i, -, hij⟩ := hs.exists_parent (Nat.zero_le j) hlt
    refine ⟨i, hij, fun i' hij' => ?_⟩
    exact hs.parent_unique (Nat.zero_le _) (hroot (lt_nodes_of_hasOperand hij')) (Nat.zero_le _)
      (hroot (lt_nodes_of_hasOperand hij)) hij' hij

/-- The listing of `-(a(i) + b(i))` in the plane. -/
def planeSum : Tree Nat where
  dim := 2
  tags := #[14, 14, 1, 7]
  left := #[-1, -1, 0, -1]
  outer := ⟨#[0, 1, 2, 3, 4], #[105, 105, 105, 105]⟩
  inner := ⟨#[0, 0, 0, 0, 0], #[]⟩
  binding := ⟨#[0, 1, 2, 2, 2], #[105, 105]⟩
  ids := ⟨#[0, 2, 4, 4, 4], #[0, 1, 2, 3]⟩
  values := #[0, 0, 0, 0]
  funcs := #[0, 0, 0, 0]
  offsets := #[0, 2, 4, 6]
  depth := 8

/-- The shape of `-(a(i) + b(i))`. -/
def planeShape : Shape :=
  .unary .negate rfl (.binary .sum rfl (.leaf .scalar rfl) (.leaf .scalar rfl))

/-- The tree is laid out in postorder. -/
lemma planeSum_laid : planeSum.Laid planeShape where
  dim := by decide
  tags := by decide
  allowed := by decide
  children := by decide
  leaf := by decide
  left := by decide
  values := by decide
  funcs := by decide
  offsets := by decide
  outer := ⟨by decide, by decide, by decide, by decide⟩
  inner := ⟨by decide, by decide, by decide, by decide⟩
  binding := ⟨by decide, by decide, by decide, by decide⟩
  ids := ⟨by decide, by decide, by decide, by decide⟩
  labels := by decide
  windows := by
    refine ⟨by decide, fun i hi => ?_, by decide⟩
    have hcases : i = 0 ∨ i = 1 ∨ i = 2 := by
      rw [show planeSum.nodes = 4 from rfl] at hi
      omega
    rcases hcases with rfl | rfl | rfl <;> decide

/-- The checks accept the tree, which has one shape and one parent for each node but the root. -/
theorem planeSum_postorder :
    planeSum.validate = .ok () ∧ (∃! s : Shape, planeSum.tags.toList = s.postorder.map Kind.code) ∧
      ∀ j < planeSum.nodes, j ≠ planeSum.root → ∃! i, planeSum.HasOperand i j := by
  have hvalidate := (validate_recognises_postorder planeSum).2 planeShape planeSum_laid
  obtain ⟨hshape, -, -, hparent⟩ := (validate_recognises_postorder planeSum).1 hvalidate
  exact ⟨hvalidate, hshape, hparent⟩

end Tree

end Indicial
