import Indicial.Proofs.Tree.Rows
import Indicial.Tree.Basic

/-!
# Checked trees

What is known of any tree that passes `Tree.validate`, wherever it came from. Its tables have one entry
or row for each node (`Valid`), every node has operands before it whose windows end where its own
begins or earlier (`Valid.operands`), and since each node but the root is an operand of another, all
windows end where that of the root ends or earlier (`Valid.windowEnd_le_root`).

Offsets are 32-bit words. None of the checks keeps the first of them from being negative or the end of
the root window from wrapping around, so both remain open here.
-/

namespace Indicial

variable {α : Type}

namespace Tree

variable {t : Tree α} {i j : Nat}

/-! ### What is checked -/

/-- The checks that a tree passes. -/
structure Valid (t : Tree α) : Prop where
  nodes_pos : 0 < t.nodes
  dim : 1 ≤ t.dim.toInt ∧ t.dim.toInt ≤ 16
  left : t.left.size = t.nodes
  values : t.values.size = t.nodes
  funcs : t.funcs.size = t.nodes
  offsets : t.offsets.size = t.nodes
  outer : t.outer.Covers t.nodes
  rank : ∀ i < t.nodes, (t.outer.row i).length ≤ Index.capacity
  inner : t.inner.Covers t.nodes
  binding : t.binding.Covers t.nodes
  bound : ∀ i < t.nodes, (t.binding.row i).length ≤ Index.capacity
  ids : t.ids.Covers t.nodes
  replay : ∃ stack, t.replay = .ok stack ∧ stack.length = 1
  depth : t.depth = t.watermark t.root

/-- Checked rows of labels are covered, and each fits an index. -/
lemma labels_of_validate {c : Rows UInt8} {table : String} {n : Nat} (hn : 0 < n)
    (h : validateLabels c table n = .ok ()) :
    c.Covers n ∧ ∀ i < n, (c.row i).length ≤ Index.capacity := by
  rw [validateLabels] at h
  obtain ⟨⟨⟩, hrows, h⟩ := bind_eq_ok_iff.1 h
  refine ⟨Rows.covers_of_validate hrows hn, fun i hi => ?_⟩
  split at h
  case h_1 => cases h
  case h_2 hnone =>
    have hshort := List.find?_eq_none.1 hnone i (List.mem_range.2 hi)
    simpa using hshort

/-- Covered rows of labels that fit an index pass the check. -/
lemma validateLabels_of_covers {c : Rows UInt8} {n : Nat} (table : String) (hn : 0 < n)
    (hrows : c.Covers n) (hshort : ∀ i < n, (c.row i).length ≤ Index.capacity) :
    validateLabels c table n = .ok () := by
  have hnone : ((List.range n).find? fun i => Index.capacity < (c.row i).length) = none := by
    refine List.find?_eq_none.2 fun i hi => ?_
    rw [decide_eq_true_eq, not_lt]
    exact hshort i (List.mem_range.1 hi)
  rw [validateLabels, hrows.validate table hn, ok_bind, hnone]

/-- A tree that passes its checks is valid. -/
theorem valid_of_validate (h : t.validate = .ok ()) : t.Valid := by
  obtain ⟨hnodes, h⟩ := guard_eq_ok h
  obtain ⟨hdim, h⟩ := guard_eq_ok h
  obtain ⟨hsizes, h⟩ := guard_eq_ok h
  obtain ⟨⟨⟩, houter, h⟩ := bind_eq_ok_iff.1 h
  obtain ⟨⟨⟩, hinner, h⟩ := bind_eq_ok_iff.1 h
  obtain ⟨⟨⟩, hbinding, h⟩ := bind_eq_ok_iff.1 h
  obtain ⟨⟨⟩, hids, h⟩ := bind_eq_ok_iff.1 h
  obtain ⟨stack, hreplay, h⟩ := bind_eq_ok_iff.1 h
  obtain ⟨hstack, h⟩ := guard_eq_ok h
  have hdepth : ¬t.depth ≠ t.watermark t.root := by
    intro hne
    rw [if_pos hne] at h
    cases h
  have hpos : 0 < t.nodes := Nat.pos_of_ne_zero hnodes
  obtain ⟨houter, hrank⟩ := labels_of_validate hpos houter
  obtain ⟨hinner, -⟩ := labels_of_validate hpos hinner
  obtain ⟨hbinding, hbound⟩ := labels_of_validate hpos hbinding
  simp only [Bool.or_eq_true, decide_eq_true_eq, not_or, Int64.lt_iff_toInt_lt, not_lt] at hdim
  simp only [Bool.or_eq_true, decide_eq_true_eq, not_or, not_not] at hsizes
  obtain ⟨⟨⟨hleft, hvalues⟩, hfuncs⟩, hoffsets⟩ := hsizes
  exact {
    nodes_pos := hpos
    dim := hdim
    left := hleft
    values := hvalues
    funcs := hfuncs
    offsets := hoffsets
    outer := houter
    rank := hrank
    inner := hinner
    binding := hbinding
    bound := hbound
    ids := Rows.covers_of_validate hids hpos
    replay := ⟨stack, hreplay, not_not.1 hstack⟩
    depth := not_not.1 hdepth }

/-- The root is a node. -/
lemma Valid.root_lt (h : t.Valid) : t.root < t.nodes := Nat.sub_lt h.nodes_pos Nat.one_pos

/-! ### Windows -/

/-- The length of a node's window, as a true number. -/
def components (t : Tree α) (i : Nat) : Nat := t.dim.toInt.toNat ^ (t.outer.row i).length

/-- A node has at most sixteen to the eighth components. -/
lemma Valid.components_le (h : t.Valid) (hi : i < t.nodes) : t.components i ≤ 16 ^ 8 := by
  have hdim : t.dim.toInt.toNat ≤ 16 := by
    have := h.dim.2
    omega
  exact Layout.components_le hdim (h.rank i hi)

/-- Every node has a component. -/
lemma Valid.components_pos (h : t.Valid) (i : Nat) : 0 < t.components i := by
  have hdim := h.dim.1
  exact Nat.pow_pos (by omega)

/-- A window of at most eight axes has the length that the labels say. -/
lemma size_eq_of_covers {n : Nat} (hdim : 0 ≤ t.dim.toInt) (houter : t.outer.Covers n) (hi : i < n)
    (hrank : (t.outer.row i).length ≤ Index.capacity) : t.size i = Int64.ofNat (t.components i) := by
  rw [size, houter.length_eq hi, ← ofNat_toNat_toInt hdim,
    Layout.power_ofNat _ (hrank.trans_lt (by decide)), components]

/-- The size of a node is the word of its components. -/
lemma Valid.size_eq (h : t.Valid) (hi : i < t.nodes) :
    t.size i = Int64.ofNat (t.components i) :=
  size_eq_of_covers (Int.le_trans (by decide) h.dim.1) h.outer hi (h.rank i hi)

/-- The slot after a node's window, as a true number. -/
def windowEnd (t : Tree α) (i : Nat) : Int := (t.offset i).toInt + (t.size i).toInt

/-- Sizes are positive and at most `2 ^ 32`. -/
lemma Valid.size_bounds (h : t.Valid) (hi : i < t.nodes) :
    1 ≤ (t.size i).toInt ∧ (t.size i).toInt ≤ 2 ^ 32 := by
  have hlow := h.components_pos i
  have hhigh := h.components_le hi
  rw [h.size_eq hi, Int64.toInt_ofNat_of_lt (hhigh.trans_lt (by decide))]
  constructor
  · exact_mod_cast hlow
  · exact_mod_cast hhigh

/-- The window of a node ends behind its components. -/
lemma Valid.windowEnd_eq_add (h : t.Valid) (hi : i < t.nodes) :
    t.windowEnd i = (t.offset i).toInt + t.components i := by
  rw [windowEnd, h.size_eq hi,
    Int64.toInt_ofNat_of_lt ((h.components_le hi).trans_lt (by decide))]

/-- The slot after a window is the word of its true end, if that is one. -/
lemma toInt_watermark (hsize : 0 ≤ (t.size i).toInt) (hlt : t.windowEnd i < 2 ^ 31) :
    (t.watermark i).toInt = t.windowEnd i := by
  have hlow := (t.offset i).le_toInt
  rw [windowEnd] at hlt ⊢
  rw [watermark, Int32.toInt_add, Int64.toInt_toInt32, Int.add_bmod_bmod]
  exact Int.bmod_eq_of_le (by omega) (by omega)

/-- The window of an operand is found to end in time exactly when it does. -/
lemma validateWindow_eq_ok_iff (hlow : 0 ≤ (t.size j).toInt) (hhigh : (t.size j).toInt ≤ 2 ^ 32) :
    t.validateWindow i j = .ok () ↔ t.windowEnd j ≤ (t.offset i).toInt := by
  have hle := (t.offset j).le_toInt
  have hlt := (t.offset j).toInt_lt
  have hend : ((t.offset j).toInt64 + t.size j).toInt = t.windowEnd j := by
    rw [toInt_add_of_lt, Int32.toInt_toInt64, windowEnd]
    all_goals
      rw [Int32.toInt_toInt64]
      omega
  rw [validateWindow, if_neg (by rw [noChild]; omega), Int.toNat_natCast]
  split
  case isTrue hover =>
    rw [Int64.lt_iff_toInt_lt, hend, Int32.toInt_toInt64] at hover
    simpa using hover
  case isFalse hover =>
    rw [Int64.lt_iff_toInt_lt, hend, Int32.toInt_toInt64, not_lt] at hover
    simpa using hover

/-- The window of a checked operand ends before its node begins. -/
lemma Valid.le_of_validateWindow (h : t.Valid) (hj : j < t.nodes)
    (hwindow : t.validateWindow i j = .ok ()) : t.windowEnd j ≤ (t.offset i).toInt := by
  obtain ⟨hlow, hhigh⟩ := h.size_bounds hj
  exact (validateWindow_eq_ok_iff (by omega) hhigh).1 hwindow

/-! ### The order of nodes -/

/-- The operands of a node stand before it, and their windows end where its own begins or before. -/
inductive Operands (t : Tree α) (i : Nat) : Prop where
  | leaf (harity : t.arity i = .leaf)
  | unary (c : Nat) (harity : t.arity i = .unary) (hchildren : t.children i = ((c : Int), noChild))
    (hc : c < i) (hend : t.windowEnd c ≤ (t.offset i).toInt)
  | binary (l r : Nat) (harity : t.arity i = .binary) (hchildren : t.children i = ((l : Int), (r : Int)))
    (hl : l < i) (hr : r < i) (hlend : t.windowEnd l ≤ (t.offset i).toInt)
    (hrend : t.windowEnd r ≤ (t.offset i).toInt)

/-- The last finished subtrees are the operands of node `i`, and the others remain. -/
inductive Taken (t : Tree α) (i : Nat) : List Nat → List Nat → Prop where
  | leaf {stack} : t.arity i = .leaf → t.left.getD i 0 = -1 → Taken t i stack stack
  | unary {c rest} : t.arity i = .unary → c + 1 = i → Taken t i (c :: rest) rest
  | binary {l r : Nat} {rest} : t.arity i = .binary → (t.left.getD i 0).toInt = l → l < r → r + 1 = i →
    Taken t i (r :: l :: rest) rest

/-- A leaf has no children. -/
lemma children_of_leaf (h : t.arity i = .leaf) : t.children i = (noChild, noChild) := by
  rw [children, h]

/-- The child of a unary node is the node before it. -/
lemma children_of_unary (h : t.arity i = .unary) : t.children i = ((i : Int) - 1, noChild) := by
  rw [children, h]

/-- The children of a binary node are its left one and the node before it. -/
lemma children_of_binary (h : t.arity i = .binary) :
    t.children i = ((t.left.getD i 0).toInt, (i : Int) - 1) := by
  rw [children, h]

/-- What is taken off the stack are the operands of the node. -/
lemma taken_of_takeOperands {stack rest : List Nat} (h : t.takeOperands i stack = .ok rest) :
    t.Taken i stack rest := by
  rw [takeOperands] at h
  -- As many entries come off the stack as the node has operands, the right one first.
  cases harity : t.arity i with
  | leaf =>
    rw [harity] at h
    dsimp only at h
    split at h
    case isTrue => cases h
    case isFalse hleft =>
      cases h
      exact .leaf harity (not_not.1 hleft)
  | unary =>
    rw [harity, children_of_unary harity] at h
    cases stack with
    | nil => cases h
    | cons c stack =>
      dsimp only at h
      split at h
      case isTrue => cases h
      case isFalse hc =>
        cases h
        exact .unary harity (by omega)
  | binary =>
    rw [harity, children_of_binary harity] at h
    match stack with
    | [] => cases h
    | [r] => cases h
    | r :: l :: stack =>
      dsimp only at h
      split at h
      case isTrue => cases h
      case isFalse hsame =>
        split at h
        case isFalse => cases h
        case isTrue horder =>
          cases h
          simp only [Bool.or_eq_true, decide_eq_true_eq, not_or, not_not] at hsame
          simp only [Bool.and_eq_true, decide_eq_true_eq] at horder
          exact .binary harity hsame.2.symm (by omega) (by omega)

/-- The operands of a node can be taken off the stack. -/
lemma Taken.takeOperands {stack rest : List Nat} (h : t.Taken i stack rest) :
    t.takeOperands i stack = .ok rest := by
  cases h with
  | leaf harity hleft => simp only [Tree.takeOperands, harity, hleft, ne_eq, not_true, if_false]
  | unary harity hc =>
    simp only [Tree.takeOperands, harity, children_of_unary harity]
    rw [if_neg (by omega)]
  | binary harity hl hlr hr =>
    simp only [Tree.takeOperands, harity, children_of_binary harity]
    rw [if_neg (by simp only [Bool.or_eq_true, decide_eq_true_eq]; omega),
      if_pos (by simp only [Bool.and_eq_true, decide_eq_true_eq]; omega)]

/-- One step of the replay: the node is allowed, it takes the place of its operands, and its window
begins where theirs and that of the node before it have ended. -/
lemma replayNode_eq_ok_iff {stack stack' : List Nat} :
    t.replayNode stack i = .ok stack' ↔
      t.isAllowed i = true ∧ ∃ rest, t.Taken i stack rest ∧
        t.validateWindow i (t.children i).1 = .ok () ∧ t.validateWindow i (t.children i).2 = .ok () ∧
        (0 < i → t.watermark (i - 1) ≤ t.offset i) ∧ stack' = i :: rest := by
  constructor
  · intro h
    obtain ⟨hallowed, h⟩ := guard_eq_ok h
    obtain ⟨rest, htake, h⟩ := bind_eq_ok_iff.1 h
    dsimp only at h
    obtain ⟨⟨⟩, hleft, h⟩ := bind_eq_ok_iff.1 h
    obtain ⟨⟨⟩, hright, h⟩ := bind_eq_ok_iff.1 h
    obtain ⟨hrising, h⟩ := guard_eq_ok h
    cases h
    refine ⟨by simpa using hallowed, rest, taken_of_takeOperands htake, hleft, hright, fun hi => ?_, rfl⟩
    simpa [hi] using hrising
  · rintro ⟨hallowed, rest, htaken, hleft, hright, hrising, rfl⟩
    refine guard_eq_ok_iff.2 ⟨by simp [hallowed], bind_eq_ok_iff.2 ⟨rest, htaken.takeOperands, ?_⟩⟩
    refine bind_eq_ok_iff.2 ⟨(), hleft, bind_eq_ok_iff.2 ⟨(), hright, ?_⟩⟩
    refine guard_eq_ok_iff.2 ⟨?_, rfl⟩
    simpa using hrising

/-- What one step of the replay finds: the node is allowed, its operands are the last of the finished
subtrees, and it takes their place. -/
lemma Valid.replayNode_eq_ok (h : t.Valid) {stack stack' : List Nat} (hi : i < t.nodes)
    (hstep : t.replayNode stack i = .ok stack') :
    t.isAllowed i = true ∧ t.Operands i ∧ ∃ taken rest, stack = taken ++ rest ∧ stack' = i :: rest ∧
      ∀ j ∈ taken, j < i ∧ t.windowEnd j ≤ (t.offset i).toInt := by
  obtain ⟨hallowed, rest, htaken, hleft, hright, -, rfl⟩ := replayNode_eq_ok_iff.1 hstep
  refine ⟨hallowed, ?_⟩
  cases htaken with
  | leaf harity => exact ⟨.leaf harity, [], stack, rfl, rfl, nofun⟩
  | @unary c _ harity hc =>
    have hchildren : t.children i = ((c : Int), noChild) := by
      rw [children_of_unary harity, ← hc]
      simp
    rw [hchildren] at hleft
    have hend := h.le_of_validateWindow (by omega) hleft
    exact ⟨.unary c harity hchildren (by omega) hend, [c], _, rfl, rfl,
      List.forall_mem_singleton.2 ⟨by omega, hend⟩⟩
  | @binary l r _ harity hl hlr hr =>
    have hchildren : t.children i = ((l : Int), (r : Int)) := by
      rw [children_of_binary harity, hl, ← hr]
      simp
    rw [hchildren] at hleft hright
    have hlend := h.le_of_validateWindow (by omega) hleft
    have hrend := h.le_of_validateWindow (by omega) hright
    refine ⟨.binary l r harity hchildren (by omega) (by omega) hlend hrend, [r, l], _, rfl, rfl, ?_⟩
    rw [List.forall_mem_cons, List.forall_mem_singleton]
    exact ⟨⟨by omega, hrend⟩, by omega, hlend⟩

/-- What the replay has found of the first `n` nodes: each of them is a finished subtree or an operand
of a later one. -/
structure Replayed (t : Tree α) (n : Nat) (stack : List Nat) : Prop where
  allowed : ∀ i < n, t.isAllowed i = true
  operands : ∀ i < n, t.Operands i
  covered : ∀ j < n, j ∈ stack ∨ ∃ i < n, j < i ∧ t.windowEnd j ≤ (t.offset i).toInt
  last : ∀ m, n = m + 1 → ∃ rest, stack = m :: rest

/-- One more node is replayed by taking its operands and putting it down. -/
lemma Valid.replayed_succ (h : t.Valid) {n : Nat} (hn : n < t.nodes) {before after : List Nat}
    (hprev : t.Replayed n before) (hstep : t.replayNode before n = .ok after) :
    t.Replayed (n + 1) after := by
  obtain ⟨hallowed, hoperands, taken, rest, rfl, rfl, htaken⟩ := h.replayNode_eq_ok hn hstep
  refine ⟨?_, ?_, fun j hj => ?_, fun m hm => ⟨rest, by rw [Nat.succ.inj hm]⟩⟩
  · exact Nat.forall_lt_succ_right.2 ⟨hprev.allowed, hallowed⟩
  · exact Nat.forall_lt_succ_right.2 ⟨hprev.operands, hoperands⟩
  · rcases Nat.lt_succ_iff_lt_or_eq.1 hj with hlt | rfl
    · rcases hprev.covered j hlt with hmem | ⟨i, hi, hji, hwindow⟩
      · rcases List.mem_append.1 hmem with hmem | hmem
        · exact .inr ⟨n, by omega, (htaken j hmem).1, (htaken j hmem).2⟩
        · exact .inl (List.mem_cons_of_mem _ hmem)
      · exact .inr ⟨i, by omega, hji, hwindow⟩
    · exact .inl List.mem_cons_self

/-- All nodes have been replayed when the stack is left. -/
lemma Valid.replayed (h : t.Valid) {stack : List Nat} (hrun : t.replay = .ok stack) :
    t.Replayed t.nodes stack :=
  foldlM_range_preserves (P := t.Replayed) ⟨nofun, nofun, nofun, nofun⟩
    (fun _ hk _ _ hprev hstep => h.replayed_succ hk hprev hstep) hrun

/-- The operands of a node come before it, with windows below its own. -/
theorem Valid.operands (h : t.Valid) (hi : i < t.nodes) : t.Operands i := by
  obtain ⟨stack, hreplay, -⟩ := h.replay
  exact (h.replayed hreplay).operands i hi

/-- Above the window of a node that is not the root begins that of a later one. -/
lemma Valid.exists_above (h : t.Valid) (hi : i < t.nodes) (hne : i ≠ t.root) :
    ∃ p < t.nodes, i < p ∧ t.windowEnd i ≤ (t.offset p).toInt := by
  obtain ⟨stack, hreplay, hlength⟩ := h.replay
  have hfound := h.replayed hreplay
  have hpos := h.nodes_pos
  obtain ⟨rest, rfl⟩ := hfound.last t.root (by rw [root]; omega)
  obtain rfl : rest = [] := by simpa using hlength
  rcases hfound.covered i hi with hmem | habove
  · exact absurd (List.mem_singleton.1 hmem) hne
  · exact habove

/-- Windows follow each other. That of a node below the root ends at a word, so comparing words with its
watermark compares with its true end. -/
theorem Valid.windowEnd_le (h : t.Valid) (hij : i < j) (hj : j < t.nodes) :
    t.windowEnd i ≤ (t.offset j).toInt := by
  have hnext : ∀ k, k + 1 < t.nodes → t.windowEnd k ≤ (t.offset (k + 1)).toInt := by
    intro k hk
    obtain ⟨stack, hreplay, -⟩ := h.replay
    obtain ⟨before, after, hstep⟩ := exists_round_of_foldlM hreplay (List.mem_range.2 hk)
    obtain ⟨-, -, -, -, -, hrising, -⟩ := replayNode_eq_ok_iff.1 hstep
    obtain ⟨p, -, -, habove⟩ := h.exists_above (i := k) (by omega) (by rw [root]; omega)
    have hword := (t.offset p).toInt_lt
    have hsize := (h.size_bounds (i := k) (by omega)).1
    rw [← toInt_watermark (by omega) (by omega), ← Int32.le_iff_toInt_le]
    exact hrising (Nat.succ_pos k)
  induction j, hij using Nat.le_induction with
  | base => exact hnext i hj
  | succ j hij ih =>
    have hbefore := ih (by omega)
    have hlast := hnext j hj
    have hsize := (h.size_bounds (i := j) (by omega)).1
    rw [windowEnd.eq_1 t j] at hlast
    omega

/-- All windows end where the window of the root ends or before. -/
theorem Valid.windowEnd_le_root (h : t.Valid) (hi : i < t.nodes) :
    t.windowEnd i ≤ t.windowEnd t.root := by
  -- From a node to the one it is an operand of, up to the root.
  induction hd : t.nodes - i using Nat.strong_induction_on generalizing i with
  | _ d ih =>
    by_cases hroot : i = t.root
    · rw [hroot]
    · obtain ⟨p, hp, hip, hwindow⟩ := h.exists_above hi hroot
      have hup := ih (t.nodes - p) (by omega) hp rfl
      have hsize := (h.size_bounds hp).1
      rw [windowEnd.eq_1 t p] at hup
      omega

end Tree

end Indicial
