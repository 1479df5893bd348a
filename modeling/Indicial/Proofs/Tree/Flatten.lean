import Indicial.Proofs.Expr.WellFormed
import Indicial.Proofs.Tree.Entries

/-!
# What flattening writes

`Expr.Emitted w n base es` follows the recursion of `Expr.emit`: an expression without operands is
one entry, and otherwise the entries of the operands come first and that of the root last. The left
operand of a binary node is recorded by the place of its root, so the entries depend on where the
expression begins.

What is written are these entries (`emit_emitted`), and if there are any, they are written
(`Emitted.emit_eq_ok`), one for each node in postorder. Flattening succeeds with a checked tree of the
entries that are emitted from place zero on (`flatten_eq_ok`), and that tree gives them back
(`flatten_holds`).
-/

namespace Indicial.Expr

variable {α : Type} {w : Lowering α} {n l r e : Expr} {t t' : Tree α}

/-- The entry of the root of an expression. -/
def rootEntry (w : Lowering α) (n : Expr) (left : Int32) : Except Fault (Tree.Entry α) := do
  let s ← slot w n
  let inner ← n.inner
  return ⟨s.kind, left, n.outer, inner, s.binding, s.ids, s.value, s.func⟩

/-- Writing a node adds its entry. -/
lemma emitRoot_eq_ok {left : Int32} (h : emitRoot w n left t = .ok t') :
    ∃ x, rootEntry w n left = .ok x ∧ t' = t.add x := by
  obtain ⟨s, hs, h⟩ := bind_eq_ok_iff.1 h
  obtain ⟨inner, hinner, h⟩ := bind_eq_ok_iff.1 h
  cases h
  refine ⟨⟨s.kind, left, n.outer, inner, s.binding, s.ids, s.value, s.func⟩, ?_, rfl⟩
  rw [rootEntry, hs, ok_bind, hinner, ok_bind, pure_eq_ok]

/-- An entry has the free labels of its node. -/
lemma rootEntry_outer {left : Int32} {x : Tree.Entry α} (h : rootEntry w n left = .ok x) :
    x.outer = n.outer := by
  obtain ⟨s, -, h⟩ := bind_eq_ok_iff.1 h
  obtain ⟨inner, -, h⟩ := bind_eq_ok_iff.1 h
  cases h
  rfl

/-- The entries of an expression, the first of which stands at place `base`. -/
inductive Emitted (w : Lowering α) : Expr → Nat → List (Tree.Entry α) → Prop where
  | leaf {n base x} :
    n.operands? = none →
    rootEntry w n (-1) = .ok x →
    Emitted w n base [x]
  | unary {n e base es x} :
    n.operands? = some (e, e) →
    n.kind.arity = .unary →
    Emitted w e base es →
    rootEntry w n (-1) = .ok x →
    Emitted w n base (es ++ [x])
  | binary {n l r base ls rs x} :
    n.operands? = some (l, r) →
    n.kind.arity = .binary →
    Emitted w l base ls →
    Emitted w r (base + ls.length) rs →
    rootEntry w n (Int32.ofNat (base + ls.length - 1)) = .ok x →
    Emitted w n base (ls ++ rs ++ [x])

/-- The last entry is that of the root. -/
lemma Emitted.exists_root {base : Nat} {es : List (Tree.Entry α)} (h : Emitted w n base es) :
    0 < es.length ∧ ∃ x, es[es.length - 1]? = some x ∧ x.outer = n.outer := by
  cases h with
  | leaf _ hx => exact ⟨by simp, _, by simp, rootEntry_outer hx⟩
  | unary _ _ _ hx => exact ⟨by simp, _, by simp, rootEntry_outer hx⟩
  | binary _ _ _ _ hx => exact ⟨by simp, _, by simp, rootEntry_outer hx⟩

/-! ### Nodes and entries -/

/-- A node with operands is unary, with one operand twice, or binary. -/
lemma arity_of_operands (h : n.operands? = some (l, r)) :
    (l = r ∧ n.kind.arity = .unary) ∨ n.kind.arity = .binary := by
  cases n with
  | negate | apply | bind | derivative =>
    cases h
    exact .inl ⟨rfl, rfl⟩
  | sum | difference | product | ratio | power => exact .inr rfl
  | literal | tensor | delta | epsilon | scalar => cases h

/-- Induction over the operands of nodes, by how many they are. -/
theorem arityInduction {P : Expr → Prop} (leaf : ∀ n, n.operands? = none → P n)
    (unary : ∀ n e, n.operands? = some (e, e) → n.kind.arity = .unary → P e → P n)
    (binary : ∀ n l r, n.operands? = some (l, r) → n.kind.arity = .binary → P l → P r → P n)
    (n : Expr) : P n := by
  induction n using operandsInduction with
  | leaf n hops => exact leaf n hops
  | node n l r hops ihl ihr =>
    rcases arity_of_operands hops with ⟨rfl, harity⟩ | harity
    · exact unary n l hops harity ihl
    · exact binary n l r hops harity ihl ihr

/-- The postorder of a leaf is the leaf. -/
lemma postorder_of_leaf (h : n.operands? = none) : n.postorder = [n] := by
  cases n <;> simp_all [operands?, postorder]

/-- The postorder of a unary node is that of its operand and the node. -/
lemma postorder_of_unary (h : n.operands? = some (e, e)) (harity : n.kind.arity = .unary) :
    n.postorder = e.postorder ++ [n] := by
  cases n <;> cases h <;> first | rfl | cases harity

/-- The postorder of a binary node is that of both operands and the node. -/
lemma postorder_of_binary (h : n.operands? = some (l, r)) (harity : n.kind.arity = .binary) :
    n.postorder = l.postorder ++ r.postorder ++ [n] := by
  cases n <;> cases h <;> first | rfl | cases harity

/-- What passes on to operands holds of all nodes. -/
lemma of_mem_postorder {P : Expr → Prop} {m : Expr}
    (hP : ∀ {n l r : Expr}, n.operands? = some (l, r) → P n → P l ∧ P r) (hn : P n)
    (hm : m ∈ n.postorder) : P m := by
  induction n using operandsInduction with
  | leaf n hops =>
    rw [(mem_postorder_of_leaf hops).1 hm]
    exact hn
  | node n l r hops ihl ihr =>
    obtain ⟨hl, hr⟩ := hP hops hn
    rcases (mem_postorder_of_operands hops).1 hm with hm | hm | rfl
    · exact ihl hl hm
    · exact ihr hr hm
    · exact hn

/-- Parts of a well-formed expression are well-formed. -/
lemma wellFormed_of_mem_postorder {m : Expr} (hn : n.WellFormed) (hm : m ∈ n.postorder) :
    m.WellFormed :=
  of_mem_postorder wellFormed_operands hn hm

/-- Parts of an expression without marks have none. -/
lemma hasDerivative_of_mem_postorder {m : Expr} (hn : n.hasDerivative = false)
    (hm : m ∈ n.postorder) : m.hasDerivative = false :=
  of_mem_postorder hasDerivative_operands hn hm

/-- There are as many parts as the size says. -/
lemma length_postorder (n : Expr) : n.postorder.length = n.size := by
  induction n with
  | sum l r ihl ihr | difference l r ihl ihr | product l r ihl ihr | ratio l r ihl ihr
  | power l r ihl ihr => simp [postorder, size, ihl, ihr, Nat.add_assoc]
  | negate e ih | apply f e ih | bind e target ih | derivative e along ih =>
    simp [postorder, size, ih]
  | _ => rfl

/-- There is one entry for each node, in the same order. -/
lemma Emitted.forall₂_postorder {base : Nat} {es : List (Tree.Entry α)} (h : Emitted w n base es) :
    List.Forall₂ (fun m x => ∃ left, rootEntry w m left = .ok x) n.postorder es := by
  induction h with
  | leaf hops hx =>
    rw [postorder_of_leaf hops]
    exact .cons ⟨_, hx⟩ .nil
  | unary hops harity _ hx ih =>
    rw [postorder_of_unary hops harity]
    exact List.rel_append ih (.cons ⟨_, hx⟩ .nil)
  | binary hops harity _ _ hx ihl ihr =>
    rw [postorder_of_binary hops harity]
    exact List.rel_append (List.rel_append ihl ihr) (.cons ⟨_, hx⟩ .nil)

/-! ### Running the recursion -/

/-- There is one node more for each entry that is added. -/
lemma nodes_foldl_add (t : Tree α) (es : List (Tree.Entry α)) :
    (es.foldl Tree.add t).nodes = t.nodes + es.length := by
  induction es generalizing t with
  | nil => rfl
  | cons x es ih =>
    rw [List.foldl_cons, ih, List.length_cons]
    have hone : (t.add x).nodes = t.nodes + 1 := by simp [Tree.add, Tree.push, Tree.nodes]
    omega

/-- Writing a leaf writes its node. -/
lemma emit_of_leaf (h : n.operands? = none) : emit w n t = emitRoot w n (-1) t := by
  cases n with
  | literal => rfl
  | tensor => rfl
  | delta => rfl
  | epsilon => rfl
  | scalar => rfl
  | _ => cases h

/-- Writing a unary node writes its operand first. -/
lemma emit_of_unary (h : n.operands? = some (e, e)) (harity : n.kind.arity = .unary) :
    emit w n t = (do emitRoot w n (-1) (← emit w e t)) := by
  cases n <;> cases h <;> first | rfl | cases harity

/-- Writing a binary node writes its operands first. -/
lemma emit_of_binary (h : n.operands? = some (l, r)) (harity : n.kind.arity = .binary) :
    emit w n t = emitBinary w n (emit w l) (emit w r) t := by
  cases n <;> cases h <;> first | rfl | cases harity

/-- An expression is written as its entries. -/
theorem emit_emitted (h : emit w n t = .ok t') :
    ∃ es, Emitted w n t.nodes es ∧ t' = es.foldl Tree.add t := by
  induction n using arityInduction generalizing t t' with
  | leaf n hops =>
    rw [emit_of_leaf hops] at h
    obtain ⟨x, hx, rfl⟩ := emitRoot_eq_ok h
    exact ⟨[x], .leaf hops hx, rfl⟩
  | unary n e hops harity ih =>
    rw [emit_of_unary hops harity] at h
    obtain ⟨t₁, he, h⟩ := bind_eq_ok_iff.1 h
    obtain ⟨es, hes, rfl⟩ := ih he
    obtain ⟨x, hx, rfl⟩ := emitRoot_eq_ok h
    exact ⟨es ++ [x], .unary hops harity hes hx, by simp⟩
  | binary n l r hops harity ihl ihr =>
    rw [emit_of_binary hops harity] at h
    obtain ⟨t₁, hl, h⟩ := bind_eq_ok_iff.1 h
    obtain ⟨t₂, hr, h⟩ := bind_eq_ok_iff.1 h
    obtain ⟨ls, hls, rfl⟩ := ihl hl
    obtain ⟨rs, hrs, rfl⟩ := ihr hr
    obtain ⟨x, hx, rfl⟩ := emitRoot_eq_ok h
    -- The right operand is written behind the left one, and the root is told where that one ends.
    rw [nodes_foldl_add] at hrs
    rw [Tree.root, nodes_foldl_add] at hx
    exact ⟨ls ++ rs ++ [x], .binary hops harity hls hrs hx, by simp⟩

/-- A node is written when it has an entry. -/
lemma emitRoot_of_rootEntry {left : Int32} {x : Tree.Entry α} (h : rootEntry w n left = .ok x) :
    emitRoot w n left t = .ok (t.add x) := by
  obtain ⟨s, hs, h⟩ := bind_eq_ok_iff.1 h
  obtain ⟨inner, hinner, h⟩ := bind_eq_ok_iff.1 h
  cases h
  rw [emitRoot, hs, ok_bind, hinner, ok_bind]
  rfl

/-- The entries of an expression are written, whatever stands before them. -/
lemma Emitted.emit_eq_ok {base : Nat} {es : List (Tree.Entry α)} (h : Emitted w n base es)
    (hbase : t.nodes = base) : emit w n t = .ok (es.foldl Tree.add t) := by
  induction h generalizing t with
  | leaf hops hx =>
    rw [emit_of_leaf hops, emitRoot_of_rootEntry hx]
    rfl
  | unary hops harity _ hx ih =>
    rw [emit_of_unary hops harity, ih hbase, ok_bind, emitRoot_of_rootEntry hx]
    simp
  | @binary n l r base ls rs x hops harity hls _ hx ihl ihr =>
    have hplace : (ls.foldl Tree.add t).nodes = base + ls.length := by rw [nodes_foldl_add, hbase]
    rw [emit_of_binary hops harity, emitBinary, ihl hbase, ok_bind, ihr hplace, ok_bind, Tree.root,
      hplace, emitRoot_of_rootEntry hx]
    simp

/-- Flattening gives the checked tree of the entries of the expression. -/
theorem flatten_eq_ok (h : flatten w n = .ok t) :
    t.validate = .ok () ∧ ∃ es, Emitted w n 0 es ∧ t = Tree.ofEntries w.dim es := by
  obtain ⟨t', hemit, h⟩ := bind_eq_ok_iff.1 h
  split at h
  · rename_i hvalid
    cases h
    exact ⟨hvalid, emit_emitted hemit⟩
  · cases h

/-- Flattening succeeds in dimensions from one to sixteen only. -/
lemma dim_of_flatten (h : flatten w n = .ok t) :
    w.dim = Int64.ofNat w.dim.toInt.toNat ∧ 0 < w.dim.toInt.toNat ∧ w.dim.toInt.toNat ≤ 16 := by
  obtain ⟨hvalid, es, -, rfl⟩ := flatten_eq_ok h
  obtain ⟨hone, hle⟩ := (Tree.valid_of_validate hvalid).dim
  have hdim : (Tree.ofEntries w.dim es).dim = w.dim := by rw [Tree.ofEntries_eq]
  rw [hdim] at hone hle
  exact ⟨(ofNat_toNat_toInt (by omega)).symm, by omega, by omega⟩

/-- A tree that was written and passes its checks is flattened. -/
lemma flatten_of_emit (hemit : emit w n (Tree.empty w.dim) = .ok t) (hvalid : t.validate = .ok ()) :
    flatten w n = .ok t := by
  rw [flatten, hemit, ok_bind]
  simp only [hvalid]
  rfl

/-- The tree of an expression gives back its entries, in the dimension it was flattened for. -/
theorem flatten_holds {D : Nat} (h : flatten w n = .ok t) (hdim : w.dim = Int64.ofNat D)
    (hD : D < 2 ^ 63) :
    t.validate = .ok () ∧ 0 < D ∧ D ≤ 16 ∧
      ∃ es, Emitted w n 0 es ∧ t.Holds D es ∧ ∀ x ∈ es, x.outer.length ≤ Index.capacity := by
  obtain ⟨hvalid, es, hemitted, rfl⟩ := flatten_eq_ok h
  obtain ⟨D', hpos, hle, hrank, hholds⟩ := Tree.holds_of_validate hvalid
  obtain rfl : D = D' := by
    have hsame : Int64.ofNat D = Int64.ofNat D' := by
      rw [← hdim, ← hholds.dim, Tree.ofEntries_eq]
    have hback := congrArg (fun x => x.toInt.toNat) hsame
    simpa only [toNat_toInt_ofNat hD, toNat_toInt_ofNat (show D' < 2 ^ 63 by omega)] using hback
  exact ⟨hvalid, hpos, hle, es, hemitted, hholds, hrank⟩

end Indicial.Expr
