import Indicial.Proofs.Catalog
import Indicial.Proofs.Expr.Component
import Indicial.Proofs.Tree.Flatten
import Indicial.Proofs.Tree.Postorder
import Mathlib.Algebra.Group.Action.Defs
import Mathlib.Algebra.Order.BigOperators.Group.List

/-!
# Flattening is faithful

`Flattenable` collects what flattening asks of an expression. Then all its nodes are written
(`Flattenable.exists_emitted`), each entry describes its node (`Describes`), and following the operands
from the root of the tree gives the expression back (`Spells`). The windows of the nodes tile the
storage (`WindowsTile`).

What is left to go wrong are the offsets of the tables, which are words of 32 bits: the tree passes its
checks exactly when no table has `2 ^ 31` entries (`flatten_faithful`). Short windows do not see to it,
as a leaf that contracts labels reads more scalars than its window has slots (`flatten_overflows`).
-/

namespace Indicial

open Odometer Indicial.Valuation

variable {α : Type}

/-! ### Tables -/

namespace Tree

variable {t : Tree α} {D : Nat} {es : List (Entry α)} {i : Nat}

/-- The window of an entry begins behind those before it. -/
lemma Holds.offset_eq (h : t.Holds D es) (hsum : below D es es.length < 2 ^ 31) (hi : i < es.length) :
    (t.offset i).toInt = below D es i := by
  have hle : below D es i ≤ below D es es.length := below_mono hi.le
  rw [h.offset (List.getElem?_eq_getElem hi), toInt32_ofNat_of_lt (by omega)]

/-- A node has as many components as its labels have assignments. -/
lemma Holds.components_eq (h : t.Holds D es) (hD : D < 2 ^ 63) (hi : i < es.length) :
    t.components i = D ^ es[i].outer.length := by
  rw [components, h.dim, toNat_toInt_ofNat hD, h.outer (List.getElem?_eq_getElem hi)]

/-- The windows of entries tile the storage. -/
lemma Holds.windowsTile (h : t.Holds D es) (hD : D < 2 ^ 63) (hne : 0 < es.length)
    (hsum : below D es es.length < 2 ^ 31) : t.WindowsTile := by
  have hsucc : ∀ {i} (hi : i < es.length), below D es (i + 1) = below D es i + t.components i := by
    intro i hi
    rw [h.components_eq hD hi, below_succ (List.getElem?_eq_getElem hi)]
  constructor
  · rw [h.offset_eq hsum hne]
    rfl
  · intro i hi
    rw [h.nodes] at hi
    rw [h.offset_eq hsum hi, h.offset_eq hsum (by omega), hsucc (by omega)]
    exact Int.natCast_add _ _
  · have hroot : t.root + 1 = es.length := by
      rw [root, h.nodes]
      omega
    have hlast := hsucc (show t.root < es.length by omega)
    rw [hroot] at hlast
    rw [h.offset_eq hsum (by omega), h.depth, toInt32_ofNat_of_lt hsum, hlast]
    exact Int.natCast_add _ _

/-- Every slot below the depth is in the window of exactly one node. -/
lemma WindowsTile.existsUnique (h : t.WindowsTile) (hpos : 0 < t.nodes) {q : Int} (hlow : 0 ≤ q)
    (hhigh : q < t.depth.toInt) :
    ∃! i, i < t.nodes ∧ (t.offset i).toInt ≤ q ∧ q < (t.offset i).toInt + t.components i := by
  have hexists : ∀ n < t.nodes, q < (t.offset n).toInt + t.components n →
      ∃ i < t.nodes, (t.offset i).toInt ≤ q ∧ q < (t.offset i).toInt + t.components i := by
    intro n hn hq
    induction n with
    | zero => exact ⟨0, hn, h.first.trans_le hlow, hq⟩
    | succ n ih =>
      rcases le_or_gt (t.offset (n + 1)).toInt q with hle | hlt
      · exact ⟨n + 1, hn, hle, hq⟩
      · rw [h.next n hn] at hlt
        exact ih (by omega) hlt
  have hroot : t.root < t.nodes := by
    rw [root]
    omega
  obtain ⟨i, hi, hfirst, hlast⟩ := hexists t.root hroot (h.last ▸ hhigh)
  refine ⟨i, ⟨hi, hfirst, hlast⟩, ?_⟩
  rintro j ⟨hj, hjfirst, hjlast⟩
  rcases Nat.lt_trichotomy j i with hji | rfl | hij
  · have hend := h.end_le hji hi
    omega
  · rfl
  · have hend := h.end_le hij hj
    omega

end Tree

namespace Expr

variable {w : Lowering α} {D : Nat} {n m : Expr} {left : Int32} {x : Tree.Entry α}

/-! ### What an entry has to say -/

/-- The scalars that a node reads itself, in row-major order of its distinct labels. -/
def ownScalars (constant : Constancy) (D : Nat) : Expr → List ScalarRef
  | tensor symbol labels =>
    (List.range (D ^ (Index.unique labels).length)).map fun k =>
      .ofValues symbol
        (labels.map (ofDigits (Index.unique labels) (digits D (Index.unique labels).length k)))
        (constant symbol)
  | scalar ref => [ref]
  | _ => []

/-- The kind of a node in a tree: leaves that read scalars are told apart by constancy only. -/
def storedKind (constant : Constancy) : Expr → Kind
  | tensor symbol _ => scalarKind (constant symbol)
  | scalar ref => scalarKind ref.constant
  | n => n.kind

/-- The byte of the function that a node applies, if it does. -/
def storedFunc : Expr → UInt8
  | apply f _ => f.code
  | _ => 0

/-- The entry has the kind, labels, number and function of the node, and its ids are those of the
scalars that the node reads. -/
structure Describes (w : Lowering α) (D : Nat) (x : Tree.Entry α) (m : Expr) : Prop where
  kind : x.kind = m.storedKind w.constant
  outer : x.outer = m.outer
  inner : m.inner = .ok x.inner
  binding : x.binding = m.index
  value : x.value = w.value (m.literal?.getD (Literal.ofInt 0))
  func : x.func = m.storedFunc
  ids : List.Forall₂ w.catalog.Resolves (m.ownScalars w.constant D) x.ids

/-- What flattening asks of an expression: the builders made it and no derivative is left in it,
denominators are scalars, Levi-Civita symbols have as many labels as there are dimensions, the labels
of two factors fit an index, the catalog has all scalars that are read, and the windows of all nodes
together are addressed by 32 bits. -/
structure Flattenable (w : Lowering α) (D : Nat) (n : Expr) : Prop where
  built : Built n
  unmarked : n.hasDerivative = false
  dim : w.dim = Int64.ofNat D
  one_le : 1 ≤ D
  le : D ≤ 16
  denominators : ∀ l r, ratio l r ∈ n.postorder → r.rank = 0
  epsilons : ∀ labels, epsilon labels ∈ n.postorder → labels.length = D
  factors : ∀ l r, product l r ∈ n.postorder ∨ ratio l r ∈ n.postorder →
    (l.outer ++ r.outer).length ≤ Index.capacity
  scalars : ∀ m ∈ n.postorder, ∀ r ∈ m.ownScalars w.constant D, r ∈ w.catalog.tableOf r
  windows : (n.postorder.map fun m => D ^ m.rank).sum < 2 ^ 31

/-- A tensor reads its components in row-major order. -/
lemma ownScalars_tensor {symbol : Tensor} {labels : Index} (hD : 1 ≤ D) (hD' : D ≤ 16)
    (hdim : w.dim = Int64.ofNat D) (hm : (tensor symbol labels).WellFormed) :
    leafReferences w.constant w.dim (tensor symbol labels)
      = .ok ((tensor symbol labels).ownScalars w.constant D) := by
  rw [hdim, leafReferences_eq_ok hD (by omega) hm.1 hm.2, ownScalars]

/-- A leaf without directions of derivatives reads different scalars under different assignments. -/
lemma nodup_ownScalars {constant : Constancy} (hD : 0 < D) (hD' : D ≤ 256) {symbol : Tensor}
    {labels : Index} (horder : labels.length = symbol.order) :
    ((tensor symbol labels).ownScalars constant D).Nodup := by
  refine List.Nodup.map_on (fun k hk k' hk' h => ?_) List.nodup_range
  rw [List.mem_range] at hk hk'
  -- The numbers of the labels are below 256, so the component gives them back.
  have hback : ∀ {k}, k < D ^ (Index.unique labels).length →
      (((labels.map (ofDigits (Index.unique labels) (digits D (Index.unique labels).length k))).take
        symbol.order).map Nat.toUInt8).map UInt8.toNat
        = labels.map (ofDigits (Index.unique labels) (digits D (Index.unique labels).length k)) := by
    intro k hk
    rw [← horder, List.take_of_length_le (by simp), List.map_map]
    refine (List.map_congr_left fun x hx => ?_).trans (List.map_id _)
    obtain ⟨c, -, rfl⟩ := List.mem_map.1 hx
    have hlt : ofDigits (Index.unique labels) (digits D (Index.unique labels).length k) c < D :=
      ofDigits_lt hD (digits_lt hk) c
    simp
    omega
  have hvalues := congrArg (fun r => r.component.values.map UInt8.toNat) h
  simp only [ScalarRef.ofValues] at hvalues
  rw [hback hk, hback hk', List.map_inj_left] at hvalues
  have hdigits : ∀ k, (Index.unique labels).map (ofDigits (Index.unique labels)
      (digits D (Index.unique labels).length k)) = digits D (Index.unique labels).length k := fun k =>
    map_ofDigits (Index.nodup_unique labels) (length_digits ..)
  rw [← place_digits hk, ← place_digits hk', ← hdigits k, ← hdigits k']
  congr 1
  exact List.map_congr_left fun c hc => hvalues c (Index.mem_unique.1 hc)

/-- An entry that is written describes its node. -/
lemma describes_of_rootEntry (hD : 1 ≤ D) (hD' : D ≤ 16) (hdim : w.dim = Int64.ofNat D)
    (hm : m.WellFormed) (h : rootEntry w m left = .ok x) : x.left = left ∧ Describes w D x m := by
  obtain ⟨s, hslot, h⟩ := bind_eq_ok_iff.1 h
  obtain ⟨inner, hinner, h⟩ := bind_eq_ok_iff.1 h
  cases h
  refine ⟨rfl, ?_⟩
  have hresolves : ∀ {rs ks}, rs.mapM w.catalog.id = .ok ks →
      List.Forall₂ w.catalog.Resolves rs (ks.map Int32.ofNat) := by
    intro rs ks hks
    rw [List.forall₂_map_right_iff]
    exact (mapM_eq_ok_iff.1 hks).imp fun r k hk =>
      Catalog.resolves_of_lookup? (Catalog.id_eq_ok_iff.1 hk)
  cases m with
  | tensor symbol labels =>
    rw [slot, ownScalars_tensor hD hD' hdim hm, ok_bind] at hslot
    obtain ⟨ks, hks, hslot⟩ := bind_eq_ok_iff.1 hslot
    cases hslot
    exact ⟨rfl, rfl, hinner, rfl, rfl, rfl, hresolves hks⟩
  | scalar ref =>
    obtain ⟨k, hk, hslot⟩ := bind_eq_ok_iff.1 hslot
    cases hslot
    exact ⟨rfl, rfl, hinner, rfl, rfl, rfl, hresolves (mapM_eq_ok_iff.2 (.cons hk .nil))⟩
  | ratio l r =>
    rw [slot] at hslot
    split at hslot
    case isTrue =>
      cases hslot
      exact ⟨rfl, rfl, hinner, rfl, rfl, rfl, .nil⟩
    case isFalse => cases hslot
  | epsilon labels =>
    rw [slot] at hslot
    split at hslot
    case isTrue =>
      cases hslot
      exact ⟨rfl, rfl, hinner, rfl, rfl, rfl, .nil⟩
    case isFalse => cases hslot
  | derivative e along => cases hslot
  | sum | difference | product | power | negate | apply | bind | delta | literal =>
    cases hslot
    exact ⟨rfl, rfl, hinner, rfl, rfl, rfl, .nil⟩

/-! ### Everything is written -/

namespace Flattenable

/-- No check fails at a node. -/
lemma exists_slot (h : Flattenable w D n) (hm : m ∈ n.postorder) : ∃ s, slot w m = .ok s := by
  have hwf := wellFormed_of_mem_postorder h.built.wellFormed hm
  have hid : ∀ {r}, r ∈ m.ownScalars w.constant D → ∃ k, w.catalog.id r = .ok k := by
    intro r hr
    obtain ⟨k, hk⟩ := Catalog.exists_lookup? (h.scalars m hm r hr)
    exact ⟨k, Catalog.id_eq_ok_iff.2 hk⟩
  cases m with
  | tensor symbol labels =>
    obtain ⟨ks, hks⟩ := exists_mapM_eq_ok fun r hr => hid hr
    rw [slot, ownScalars_tensor h.one_le h.le h.dim hwf, ok_bind, hks, ok_bind]
    exact ⟨_, rfl⟩
  | scalar ref =>
    obtain ⟨k, hk⟩ := hid (List.mem_singleton_self ref)
    rw [slot, hk, ok_bind]
    exact ⟨_, rfl⟩
  | ratio l r =>
    rw [slot, if_pos (h.denominators l r hm)]
    exact ⟨_, rfl⟩
  | epsilon labels =>
    have hlabels : (labels.length : Int) = w.dim.toInt := by
      have hle := h.le
      rw [h.epsilons labels hm, h.dim, Int64.toInt_ofNat_of_lt (by omega)]
    rw [slot, if_pos hlabels]
    exact ⟨_, rfl⟩
  | derivative e along => cases hasDerivative_of_mem_postorder h.unmarked hm
  | _ => exact ⟨_, rfl⟩

/-- The inner labels of a node fit an index. -/
lemma exists_inner (h : Flattenable w D n) (hm : m ∈ n.postorder) : ∃ inner, m.inner = .ok inner := by
  cases m with
  | product l r =>
    rw [inner, Index.concat_eq_ok (h.factors l r (.inl hm)), map_ok]
    exact ⟨_, rfl⟩
  | ratio l r =>
    rw [inner, Index.concat_eq_ok (h.factors l r (.inr hm)), map_ok]
    exact ⟨_, rfl⟩
  | _ => exact ⟨_, rfl⟩

/-- Every node has an entry. -/
lemma exists_rootEntry (h : Flattenable w D n) (hm : m ∈ n.postorder) (left : Int32) :
    ∃ x, rootEntry w m left = .ok x := by
  obtain ⟨s, hs⟩ := h.exists_slot hm
  obtain ⟨inner, hinner⟩ := h.exists_inner hm
  rw [rootEntry, hs, ok_bind, hinner, ok_bind]
  exact ⟨_, rfl⟩

end Flattenable

/-- An expression has entries when each of its nodes does. -/
lemma exists_emitted (h : ∀ m ∈ n.postorder, ∀ left, ∃ x, rootEntry w m left = .ok x) (base : Nat) :
    ∃ es, Emitted w n base es := by
  induction n using arityInduction generalizing base with
  | leaf n hops =>
    obtain ⟨x, hx⟩ := h n (mem_postorder_self n) (-1)
    exact ⟨[x], .leaf hops hx⟩
  | unary n e hops harity ih =>
    obtain ⟨es, hes⟩ := ih (fun m hm => h m ((mem_postorder_of_operands hops).2 (.inl hm))) base
    obtain ⟨x, hx⟩ := h n (mem_postorder_self n) (-1)
    exact ⟨es ++ [x], .unary hops harity hes hx⟩
  | binary n l r hops harity ihl ihr =>
    obtain ⟨ls, hls⟩ := ihl (fun m hm => h m ((mem_postorder_of_operands hops).2 (.inl hm))) base
    obtain ⟨rs, hrs⟩ :=
      ihr (fun m hm => h m ((mem_postorder_of_operands hops).2 (.inr (.inl hm)))) (base + ls.length)
    obtain ⟨x, hx⟩ := h n (mem_postorder_self n) (Int32.ofNat (base + ls.length - 1))
    exact ⟨ls ++ rs ++ [x], .binary hops harity hls hrs hx⟩

/-! ### Reading the expression back -/

/-- Following the operands from node `i` gives the expression, node by node. -/
inductive Spells (w : Lowering α) (D : Nat) (t : Tree α) : Nat → Expr → Prop where
  | leaf {n i x} :
    n.operands? = none →
    t.children i = (Tree.noChild, Tree.noChild) →
    t.record? i = some x → Describes w D x n →
    Spells w D t i n
  | unary {n e x} {i c : Nat} :
    n.operands? = some (e, e) →
    n.kind.arity = .unary →
    t.children i = ((c : Int), Tree.noChild) →
    t.record? i = some x → Describes w D x n →
    Spells w D t c e →
    Spells w D t i n
  | binary {n l r x} {i a b : Nat} :
    n.operands? = some (l, r) →
    n.kind.arity = .binary →
    t.children i = ((a : Int), (b : Int)) →
    t.record? i = some x → Describes w D x n →
    Spells w D t a l →
    Spells w D t b r →
    Spells w D t i n

/-- Stored kinds have the arity of the node. -/
lemma arity_storedKind (n : Expr) (constant : Constancy) :
    (n.storedKind constant).arity = n.kind.arity := by
  cases n with
  | tensor symbol labels =>
    rw [storedKind, scalarKind]
    split <;> rfl
  | scalar ref =>
    rw [storedKind, scalarKind]
    split <;> rfl
  | _ => rfl

/-- A node without operands is a leaf. -/
lemma arity_of_leaf (h : n.operands? = none) : n.kind.arity = .leaf := by
  cases n with
  | literal | tensor | delta | epsilon | scalar => rfl
  | _ => cases h

/-- Entries that are read back from place `base` on list a shape and spell the expression. -/
lemma Emitted.spells {t : Tree α} {base : Nat} {es : List (Tree.Entry α)} (h : Emitted w n base es)
    (hdescribes : ∀ m ∈ n.postorder, ∀ left x, rootEntry w m left = .ok x →
      x.left = left ∧ Describes w D x m)
    (hread : ∀ j x, es[j]? = some x → t.record? (base + j) = some x)
    (hsmall : base + es.length ≤ 2 ^ 31) :
    ∃ s last, last + 1 = base + es.length ∧ t.Spans s base last ∧ Spells w D t last n := by
  have harity : ∀ {n : Expr} {x : Tree.Entry α} {a}, Describes w D x n → n.kind.arity = a →
      x.kind.arity = a := by
    intro n x a hx ha
    rw [hx.kind, arity_storedKind, ha]
  -- The operands of a node stand right before it, the left ones first, so the induction reads a
  -- block of entries and leaves the root of the block at its last place.
  induction h with
  | @leaf n base x hops hroot =>
    obtain ⟨hleft, hx⟩ := hdescribes n (mem_postorder_self n) _ _ hroot
    have hentry := hread 0 x rfl
    obtain ⟨hk, hxleft⟩ := Tree.columns_of_record? hentry
    have hkind := harity hx (arity_of_leaf hops)
    refine ⟨.leaf x.kind hkind, base, rfl, .leaf hkind hk (hxleft.trans hleft), ?_⟩
    exact .leaf hops (Tree.children_of_leaf ((Tree.arity_of_kind hk).trans hkind)) hentry hx
  | @unary n e base es x hops hunary _ hroot ih =>
    obtain ⟨s, last, hlast, hs, he⟩ := ih
      (fun m hm => hdescribes m ((mem_postorder_of_operands hops).2 (.inl hm)))
      (fun j y hy => hread j y (by
        rw [List.getElem?_append_left (List.getElem?_eq_some_iff.1 hy).1, hy]))
      (by rw [List.length_append] at hsmall; omega)
    obtain ⟨-, hx⟩ := hdescribes n (mem_postorder_self n) _ _ hroot
    have hentry := hread es.length x (by simp)
    rw [← hlast] at hentry
    obtain ⟨hk, -⟩ := Tree.columns_of_record? hentry
    have hkind := harity hx hunary
    have hchildren : t.children (last + 1) = ((last : Int), Tree.noChild) := by
      rw [Tree.children_of_unary ((Tree.arity_of_kind hk).trans hkind)]
      simp
    refine ⟨.unary x.kind hkind s, last + 1, ?_, .unary hkind hs hk, ?_⟩
    · rw [List.length_append, List.length_singleton, hlast, Nat.add_assoc]
    · exact .unary hops hunary hchildren hentry hx he
  | @binary n l r base ls rs x hops hbinary _ _ hroot ihl ihr =>
    simp only [List.length_append, List.length_singleton] at hsmall
    obtain ⟨sl, m, hm, hsl, hl⟩ := ihl
      (fun m hm => hdescribes m ((mem_postorder_of_operands hops).2 (.inl hm)))
      (fun j y hy => hread j y (by
        have hj := (List.getElem?_eq_some_iff.1 hy).1
        rw [List.append_assoc, List.getElem?_append_left hj, hy]))
      (by omega)
    obtain ⟨sr, c, hc, hsr, hr⟩ := ihr
      (fun m hm => hdescribes m ((mem_postorder_of_operands hops).2 (.inr (.inl hm))))
      (fun j y hy => by
        have hj := (List.getElem?_eq_some_iff.1 hy).1
        rw [Nat.add_assoc]
        apply hread
        rw [List.append_assoc, List.getElem?_append_right (by omega), Nat.add_sub_cancel_left,
          List.getElem?_append_left hj, hy])
      (by omega)
    obtain ⟨hleft, hx⟩ := hdescribes n (mem_postorder_self n) _ _ hroot
    have hentry := hread (ls.length + rs.length) x (by simp)
    have hplace : base + (ls.length + rs.length) = c + 1 := by omega
    rw [hplace] at hentry
    obtain ⟨hk, hxleft⟩ := Tree.columns_of_record? hentry
    have hkind := harity hx hbinary
    -- The right operand stands right before the node. Where the left one ends is written in the
    -- node.
    have hm' : (t.left.getD (c + 1) 0).toInt = m := by
      rw [hxleft, hleft, ← hm, Nat.add_sub_cancel, toInt32_ofNat_of_lt (by omega)]
    have hchildren : t.children (c + 1) = ((m : Int), (c : Int)) := by
      rw [Tree.children_of_binary ((Tree.arity_of_kind hk).trans hkind), hm']
      simp
    rw [← hm] at hsr
    refine ⟨.binary x.kind hkind sl sr, c + 1, ?_, .binary hkind hsl hsr hk hm', ?_⟩
    · simp only [List.length_append, List.length_singleton]
      omega
    · exact .binary hops hbinary hchildren hentry hx hl hr

/-! ### The tree passes its checks -/

/-- The own labels of a node fit an index. -/
lemma length_index_le (hm : m.WellFormed) (hmark : m.hasDerivative = false) :
    m.index.length ≤ Index.capacity := by
  cases m with
  | tensor symbol labels => exact hm.2
  | delta labels =>
    rw [index, show labels.length = 2 from hm]
    decide
  | epsilon labels => exact hm.2
  | bind e target =>
    rw [index, hm.2]
    exact hm.1.length_outer_le
  | derivative e along => cases hmark
  | _ => exact Nat.zero_le _

/-- Inner labels fit an index. -/
lemma length_inner_le (hm : m.WellFormed) (hmark : m.hasDerivative = false) {labels : Index}
    (h : m.inner = .ok labels) : labels.length ≤ Index.capacity := by
  have hindex := length_index_le hm hmark
  cases m with
  | product l r | ratio l r =>
    obtain ⟨both, hboth, rfl⟩ := map_eq_ok_iff.1 h
    obtain ⟨rfl, hle⟩ := Index.concat_eq_ok_iff.1 hboth
    exact (Index.length_unique_le _).trans hle
  | bind | tensor | delta | epsilon =>
    cases h
    exact (Index.length_unique_le _).trans hindex
  | _ =>
    cases h
    exact Nat.zero_le _

/-- Trees have neither marks nor tensors. -/
lemma storedKind_allowed (hmark : m.hasDerivative = false) (constant : Constancy) :
    m.storedKind constant ≠ .derivative ∧ m.storedKind constant ≠ .tensor := by
  cases m with
  | tensor symbol labels =>
    rw [storedKind, scalarKind]
    split <;> simp
  | scalar ref =>
    rw [storedKind, scalarKind]
    split <;> simp
  | derivative => cases hmark
  | _ => simp [storedKind, kind]

namespace Flattenable

variable {es : List (Tree.Entry α)}

/-- Each entry describes the node that it was written for. -/
lemma entries (h : Flattenable w D n) (hes : Emitted w n 0 es) :
    List.Forall₂ (fun m x => m.WellFormed ∧ m.hasDerivative = false ∧ Describes w D x m)
      n.postorder es := by
  have hnodes : ∀ m ∈ n.postorder, m.WellFormed ∧ m.hasDerivative = false := fun m hm =>
    ⟨wellFormed_of_mem_postorder h.built.wellFormed hm, hasDerivative_of_mem_postorder h.unmarked hm⟩
  refine ((List.forall₂_and_left _ _).2 ⟨hnodes, hes.forall₂_postorder⟩).imp ?_
  rintro m x ⟨⟨hwf, hmark⟩, left, hx⟩
  exact ⟨hwf, hmark, (describes_of_rootEntry h.one_le h.le h.dim hwf hx).2⟩

/-- The labels of all entries fit an index. -/
lemma ranks (h : Flattenable w D n) (hes : Emitted w n 0 es) :
    ∀ x ∈ es, x.outer.length ≤ Index.capacity := by
  intro x hx
  obtain ⟨m, -, hwf, -, hm⟩ := exists_of_mem_right (h.entries hes) hx
  rw [hm.outer]
  exact hwf.length_outer_le

/-- All windows together have fewer than `2 ^ 31` slots. -/
lemma below_lt (h : Flattenable w D n) (hes : Emitted w n 0 es) :
    Tree.below D es es.length < 2 ^ 31 := by
  have hwindows : n.postorder.map (fun m => D ^ m.rank) = es.map fun x => D ^ x.outer.length := by
    rw [← List.forall₂_eq_eq_eq, List.forall₂_map_left_iff, List.forall₂_map_right_iff]
    exact (h.entries hes).imp fun m x hx => by rw [hx.2.2.outer, rank]
  rw [Tree.below, List.take_length, ← hwindows]
  exact h.windows

/-- The entries have as many ids as their nodes read scalars. -/
lemma counts (h : Flattenable w D n) (hes : Emitted w n 0 es) :
    n.postorder.map (fun m => (m.ownScalars w.constant D).length) = es.map fun x => x.ids.length := by
  rw [← List.forall₂_eq_eq_eq, List.forall₂_map_left_iff, List.forall₂_map_right_iff]
  exact (h.entries hes).imp fun m x hx => hx.2.2.ids.length_eq

/-- Few nodes that read few scalars have tables that fit. -/
lemma tablesFit (h : Flattenable w D n) (hes : Emitted w n 0 es) (hsize : n.size < 2 ^ 28)
    (hids : (n.postorder.map fun m => (m.ownScalars w.constant D).length).sum < 2 ^ 31) :
    (Tree.ofEntries w.dim es).TablesFit := by
  have hentries := h.entries hes
  have hlength : es.length = n.size := by rw [← hentries.length_eq, length_postorder]
  have hlabels : ∀ row : Tree.Entry α → Index, (∀ x ∈ es, (row x).length ≤ Index.capacity) →
      (es.map row).flatten.length < 2 ^ 31 := by
    intro row hrow
    have hcapacity : Index.capacity = 8 := rfl
    have hle := List.sum_le_card_nsmul ((es.map row).map List.length) Index.capacity (by
      simpa using hrow)
    simp only [List.length_map, smul_eq_mul, hcapacity] at hle
    rw [List.length_flatten]
    omega
  rw [h.counts hes] at hids
  rw [Tree.ofEntries_eq]
  constructor
  · simpa [Rows.data_ofList] using hlabels (fun x => x.outer) (h.ranks hes)
  · have hinner : ∀ x ∈ es, x.inner.length ≤ Index.capacity := by
      intro x hx
      obtain ⟨m, -, hwf, hmark, hm⟩ := exists_of_mem_right hentries hx
      exact length_inner_le hwf hmark hm.inner
    simpa [Rows.data_ofList] using hlabels (fun x => x.inner) hinner
  · have hbinding : ∀ x ∈ es, x.binding.length ≤ Index.capacity := by
      intro x hx
      obtain ⟨m, -, hwf, hmark, hm⟩ := exists_of_mem_right hentries hx
      rw [hm.binding]
      exact length_index_le hwf hmark
    simpa [Rows.data_ofList] using hlabels (fun x => x.binding) hbinding
  · simpa [Rows.data_ofList, List.length_flatten, Function.comp_def] using hids

/-- A tree that gives the entries back lists a shape and spells the expression. -/
lemma exists_spans (h : Flattenable w D n) (hes : Emitted w n 0 es) {t : Tree α}
    (hnodes : t.nodes = es.length) (hread : ∀ j x, es[j]? = some x → t.record? j = some x) :
    ∃ s, t.nodes = s.size ∧ t.Spans s 0 t.root ∧ Spells w D t t.root n := by
  have hlength : es.length ≤ Tree.below D es es.length := Tree.length_le_below h.one_le
  have hsum := h.below_lt hes
  have hdescribes : ∀ m ∈ n.postorder, ∀ left x, rootEntry w m left = .ok x →
      x.left = left ∧ Describes w D x m := fun m hm _ _ hx =>
    describes_of_rootEntry h.one_le h.le h.dim (wellFormed_of_mem_postorder h.built.wellFormed hm) hx
  obtain ⟨s, last, hlast, hs, hspells⟩ := hes.spells hdescribes
    (fun j x hx => (Nat.zero_add j).symm ▸ hread j x hx) (by omega)
  obtain rfl : last = t.root := by
    rw [Tree.root, hnodes]
    omega
  refine ⟨s, ?_, hs, hspells⟩
  have hsize := hs.last_succ
  omega

/-- The tree of the entries is a listing that is laid out, and it spells the expression. -/
lemma exists_laid (h : Flattenable w D n) (hes : Emitted w n 0 es)
    (hfit : (Tree.ofEntries w.dim es).TablesFit) :
    ∃ s, (Tree.ofEntries w.dim es).Laid s ∧
      Spells w D (Tree.ofEntries w.dim es) (Tree.ofEntries w.dim es).root n := by
  rw [h.dim] at hfit ⊢
  have hpos := hes.exists_root.1
  have hD : D < 2 ^ 63 := h.le.trans_lt (by decide)
  have hholds := Tree.holds_ofEntries (h.ranks hes) hfit
  have hread : ∀ j x, es[j]? = some x → (Tree.ofEntries (Int64.ofNat D) es).record? j = some x :=
    fun j x => Tree.record?_ofEntries (h.ranks hes) hfit
  have hinner : ∀ {i x}, es[i]? = some x → (Tree.ofEntries (Int64.ofNat D) es).inner.row i = x.inner :=
    fun hx => Tree.row_inner_ofEntries hfit hx
  obtain ⟨hleft, hvalues, hfuncs, hoffsets⟩ := Tree.sizes_ofEntries (Int64.ofNat D) es
  obtain ⟨houter, hinnerRows, hbinding, hids⟩ :=
    Tree.covers_ofEntries (List.ne_nil_of_length_pos hpos) hfit
  obtain ⟨s, hsize, hs, hspells⟩ := h.exists_spans hes hholds.nodes hread
  generalize Tree.ofEntries (Int64.ofNat D) es = t at *
  have hnodes := hholds.nodes
  -- What each entry has, place by place.
  have hentry : ∀ i < t.nodes, ∃ m x, m.WellFormed ∧ m.hasDerivative = false ∧ Describes w D x m ∧
      es[i]? = some x := by
    intro i hi
    rw [hnodes] at hi
    obtain ⟨m, -, hwf, hmark, hm⟩ := exists_of_mem_right (h.entries hes) (List.getElem_mem hi)
    exact ⟨m, es[i], hwf, hmark, hm, List.getElem?_eq_getElem hi⟩
  refine ⟨s, ?_, hspells⟩
  rw [← hnodes] at houter hinnerRows hbinding hids
  exact {
    dim := by
      have hle := h.le
      have hone := h.one_le
      rw [hholds.dim, Int64.toInt_ofNat_of_lt hD]
      omega
    tags := hs.tags hsize
    allowed := by
      intro k hk
      have hmem : some k ∈ (List.range' 0 t.nodes).map t.kind? := by
        rw [hsize, hs.kinds]
        exact List.mem_map_of_mem hk
      obtain ⟨i, hi, hkind⟩ := List.mem_map.1 hmem
      obtain ⟨m, x, -, hmark, hm, hx⟩ := hentry i (by simpa using hi)
      rw [hholds.kind hx, hm.kind] at hkind
      rw [← Option.some.inj hkind]
      exact storedKind_allowed hmark _
    children := by rw [hsize, List.range_eq_range', hs.children]
    leaf := fun i hi => hs.left_of_leaf (Nat.zero_le i) (by rw [Tree.root]; omega)
    left := hleft.trans hnodes.symm
    values := hvalues.trans hnodes.symm
    funcs := hfuncs.trans hnodes.symm
    offsets := hoffsets.trans hnodes.symm
    outer := houter
    inner := hinnerRows
    binding := hbinding
    ids := hids
    labels := by
      intro i hi
      obtain ⟨m, x, hwf, hmark, hm, hx⟩ := hentry i hi
      rw [hholds.outer hx, hholds.binding hx, hinner hx, hm.outer, hm.binding]
      exact ⟨hwf.length_outer_le, length_inner_le hwf hmark hm.inner, length_index_le hwf hmark⟩
    windows := hholds.windowsTile hD hpos (h.below_lt hes) }

/-- An expression of few nodes that read few scalars is flattened. -/
lemma exists_flatten (h : Flattenable w D n) (hsize : n.size < 2 ^ 28)
    (hids : (n.postorder.map fun m => (m.ownScalars w.constant D).length).sum < 2 ^ 31) :
    ∃ t, flatten w n = .ok t := by
  obtain ⟨es, hes⟩ := exists_emitted (fun m hm left => h.exists_rootEntry hm left) 0
  obtain ⟨s, hlaid, -⟩ := h.exists_laid hes (h.tablesFit hes hsize hids)
  exact ⟨_, flatten_of_emit (hes.emit_eq_ok rfl) hlaid.validate⟩

/-- The tree of an expression has the windows of the expression. -/
lemma totalWindow_lt (h : Flattenable w D n) {t : Tree α} (hflat : flatten w n = .ok t) :
    t.totalWindow < 2 ^ 31 := by
  have hD : D < 2 ^ 63 := h.le.trans_lt (by decide)
  obtain ⟨-, -, -, es, hes, hholds, -⟩ := flatten_holds hflat h.dim hD
  rw [hholds.totalWindow_eq hD]
  exact h.below_lt hes

/-- An expression that is flattened reads fewer than `2 ^ 31` scalars. -/
lemma ids_lt (h : Flattenable w D n) {t : Tree α} (hflat : flatten w n = .ok t) :
    (n.postorder.map fun m => (m.ownScalars w.constant D).length).sum < 2 ^ 31 := by
  obtain ⟨hvalid, es, hes, rfl⟩ := flatten_eq_ok hflat
  have hids := (Tree.valid_of_validate hvalid).tablesFit.ids
  rw [Tree.ofEntries_eq] at hids
  rw [h.counts hes]
  simpa [Rows.data_ofList, List.length_flatten, Function.comp_def] using hids

end Flattenable

/-- Flattening is faithful: everything is written, one node of the tree for each node of the
expression, and the layout check that follows accepts it exactly when the tables of labels and ids have
less than `2 ^ 31` entries, which they do for less than `2 ^ 28` nodes that read less than `2 ^ 31`
scalars. The windows then tile the storage, every slot being in exactly one of them, and following the
operands from the root spells the expression. -/
theorem flatten_faithful (h : Flattenable w D n) :
    ∃ t, emit w n (Tree.empty w.dim) = .ok t ∧ t.nodes = n.size ∧
      (flatten w n = .ok t ↔ t.TablesFit) ∧
      (n.size < 2 ^ 28 → (n.postorder.map fun m => (m.ownScalars w.constant D).length).sum < 2 ^ 31 →
        t.TablesFit) ∧
      (t.TablesFit → t.WindowsTile ∧
        (∀ q : Int, 0 ≤ q → q < t.depth.toInt →
          ∃! i, i < t.nodes ∧ (t.offset i).toInt ≤ q ∧ q < (t.offset i).toInt + t.components i) ∧
        Spells w D t t.root n) := by
  obtain ⟨es, hes⟩ := exists_emitted (fun m hm left => h.exists_rootEntry hm left) 0
  have hemit := hes.emit_eq_ok (t := Tree.empty w.dim) rfl
  have hnodes : (Tree.ofEntries w.dim es).nodes = n.size := by
    rw [Tree.nodes_ofEntries, ← length_postorder, (h.entries hes).length_eq]
  have hpos : 0 < (Tree.ofEntries w.dim es).nodes := by
    rw [Tree.nodes_ofEntries]
    exact hes.exists_root.1
  refine ⟨Tree.ofEntries w.dim es, hemit, hnodes, ⟨fun hflat => ?_, fun hfit => ?_⟩, fun hsize hids => ?_,
    fun hfit => ?_⟩
  · exact (Tree.valid_of_validate (flatten_eq_ok hflat).1).tablesFit
  · obtain ⟨s, hlaid, -⟩ := h.exists_laid hes hfit
    exact flatten_of_emit hemit hlaid.validate
  · exact h.tablesFit hes hsize hids
  · obtain ⟨s, hlaid, hspells⟩ := h.exists_laid hes hfit
    exact ⟨hlaid.windows, fun q => hlaid.windows.existsUnique hpos, hspells⟩

/-- The expression `k v(i) / 3`. -/
def scaledFlow : Expr :=
  .ratio (.product (.tensor ⟨Bytes.ofString "k", 0, 0⟩ []) (.tensor ⟨Bytes.ofString "v", 1, 1⟩ [105]))
    (.literal (Literal.ofInt 3) [])

/-- Flattening in the plane, where `k` is constant. -/
def plane : Lowering Literal where
  dim := 2
  constant symbol := symbol.serial == 0
  catalog := Catalog.ofRefs (scaledFlow.postorder.flatMap (ownScalars (fun symbol => symbol.serial == 0) 2))
  value := fun x => x

/-- The flow can be flattened in the plane. -/
lemma scaledFlow_flattenable : Flattenable plane 2 scaledFlow where
  built := by
    apply WellFormed.built
    simp [scaledFlow, WellFormed, outer, isZero, Literal.isZero, Literal.ofInt, Index.capacity,
      Index.exclusive, Index.symmetricDifference, Index.minus]
  unmarked := rfl
  dim := rfl
  one_le := by decide
  le := by decide
  denominators := by simp [scaledFlow, postorder, rank, outer]
  epsilons := by simp [scaledFlow, postorder]
  factors := by
    intro l r hm
    simp only [scaledFlow, postorder, List.cons_append, List.nil_append, List.mem_cons,
      List.not_mem_nil, or_false, reduceCtorEq, false_or, product.injEq, ratio.injEq] at hm
    rcases hm with ⟨rfl, rfl⟩ | ⟨rfl, rfl⟩ <;> decide
  scalars := fun m hm _ hr => Catalog.mem_tableOf_ofRefs.2 (List.mem_flatMap.2 ⟨m, hm, hr⟩)
  windows := by decide

/-- The five nodes take eight slots. -/
theorem flatten_scaledFlow :
    ∃ t, flatten plane scaledFlow = .ok t ∧ t.nodes = 5 ∧ t.WindowsTile ∧
      Spells plane 2 t t.root scaledFlow := by
  obtain ⟨t, -, hnodes, hflat, hsmall, hfit⟩ := flatten_faithful scaledFlow_flattenable
  have htables := hsmall (by decide) (by decide)
  obtain ⟨hwindows, -, hspells⟩ := hfit htables
  exact ⟨t, hflat.2 htables, hnodes, hwindows, hspells⟩

/-- Eight summands with the last label of a tensor traced, `T` and `U` by turns. -/
def tracedSums : Expr :=
  let labels : Index := [97, 98, 99, 100, 101, 102, 103, 103]
  let T := tensor ⟨Bytes.ofString "T", 8, 0⟩ labels
  let U := tensor ⟨Bytes.ofString "U", 8, 1⟩ labels
  .sum (.sum (.sum (.sum (.sum (.sum (.sum T U) T) U) T) U) T) U

/-- Flattening in sixteen dimensions, where both tensors are constant. -/
def space : Lowering Literal where
  dim := 16
  constant _ := true
  catalog := Catalog.ofRefs (tracedSums.postorder.flatMap (ownScalars (fun _ => true) 16))
  value := fun x => x

/-- The sums can be flattened, the layout check apart. -/
lemma tracedSums_flattenable : Flattenable space 16 tracedSums where
  built := by
    apply WellFormed.built
    simp [tracedSums, WellFormed, outer, Index.capacity]
  unmarked := rfl
  dim := rfl
  one_le := by decide
  le := by decide
  denominators := by simp [tracedSums, postorder]
  epsilons := by simp [tracedSums, postorder]
  factors := by simp [tracedSums, postorder]
  scalars := fun m hm _ hr => Catalog.mem_tableOf_ofRefs.2 (List.mem_flatMap.2 ⟨m, hm, hr⟩)
  windows := by decide +kernel

/-- Scalars of one name, told apart by the serial numbers of their tensors. -/
def crowd (count : Nat) : List ScalarRef :=
  (List.range count).map fun k => ⟨⟨Bytes.ofString "u", 0, k⟩, Coord.empty, Coord.empty, false⟩

/-- Flattening in one dimension with a catalog of so many scalars. -/
def crowded (count : Nat) : Lowering Literal where
  dim := 1
  constant _ := false
  catalog := Catalog.ofRefs (crowd count)
  value := fun x => x

/-- No scalar is lost by sorting, as all are different. -/
lemma le_length_crowded (count : Nat) : count ≤ (crowded count).catalog.scalars.length := by
  have hnodup : (crowd count).Nodup := List.nodup_range.map fun k k' h => by simpa using h
  have hsub : crowd count ⊆ (crowded count).catalog.scalars := by
    intro r hr
    have hmem : r ∈ (crowded count).catalog.tableOf r := Catalog.mem_tableOf_ofRefs.2 hr
    obtain ⟨k, -, rfl⟩ := List.mem_map.1 hr
    exact hmem
  have hle := (hnodup.subperm hsub).length_le
  rwa [crowd, List.length_map, List.length_range] at hle

/-- Any of the scalars can be flattened. -/
lemma crowded_flattenable {count : Nat} {r : ScalarRef}
    (hr : r ∈ (crowded count).catalog.tableOf r) : Flattenable (crowded count) 1 (.scalar r) where
  built := WellFormed.built trivial
  unmarked := rfl
  dim := rfl
  one_le := by decide
  le := by decide
  denominators := by simp [postorder]
  epsilons := by simp [postorder]
  factors := by simp [postorder]
  scalars := by simpa [postorder, ownScalars] using hr
  windows := by simp [postorder]

/-- The scalar at a place of the catalog is flattened to the word of its place. -/
lemma exists_flatten_crowded {count k : Nat} (hk : k < count) :
    ∃ r t, (crowded count).catalog.scalars[k]? = some r ∧
      Flattenable (crowded count) 1 (.scalar r) ∧ flatten (crowded count) (.scalar r) = .ok t ∧
      t.ids.row 0 = [Int32.ofNat k] := by
  have hlt := hk.trans_le (le_length_crowded count)
  have hmem := List.getElem_mem hlt
  have htable : (crowded count).catalog.tableOf ((crowded count).catalog.scalars[k])
      = (crowded count).catalog.scalars := by
    rw [Catalog.tableOf, Catalog.constant_of_mem_scalars hmem]
    rfl
  have hr : (crowded count).catalog.scalars[k]? = some ((crowded count).catalog.scalars[k]) :=
    List.getElem?_eq_getElem hlt
  generalize (crowded count).catalog.scalars[k] = r at *
  have h : Flattenable (crowded count) 1 (.scalar r) := crowded_flattenable (htable ▸ hmem)
  obtain ⟨t, hflat⟩ := h.exists_flatten (by simp [Expr.size]) (by simp [postorder, ownScalars])
  refine ⟨r, t, hr, h, hflat, ?_⟩
  obtain ⟨-, -, -, es, hes, hholds, -⟩ := flatten_holds hflat h.dim (by decide)
  cases hes with
  | leaf hops hroot =>
    obtain ⟨-, hx⟩ := describes_of_rootEntry h.one_le h.le h.dim h.built.wellFormed hroot
    have hids := hx.ids
    rw [ownScalars] at hids
    rw [hholds.ids (i := 0) rfl]
    obtain ⟨id, -, ⟨k', hk', rfl, -⟩, ⟨⟩, hrow⟩ := List.forall₂_cons_left_iff.1 hids
    rw [htable] at hk'
    have hnodup := htable ▸ Catalog.nodup_tableOf_ofRefs r
    rw [hrow, (List.getElem?_inj hlt hnodup).1 (hr.trans hk'.symm)]
  | unary hops => cases hops
  | binary hops => cases hops

/-- Eight leaves that read `16 ^ 7` scalars each have `2 ^ 31` ids in windows of less than `2 ^ 28`
slots together, and the layout check refuses their tree. The word of the place `2 ^ 31` in a catalog is
negative. -/
theorem flatten_overflows :
    (Flattenable space 16 tracedSums ∧ ∀ t, flatten space tracedSums ≠ .ok t) ∧
      ∃ r t, (crowded (2 ^ 31 + 1)).catalog.scalars[2147483648]? = some r ∧
        Flattenable (crowded (2 ^ 31 + 1)) 1 (.scalar r) ∧
        flatten (crowded (2 ^ 31 + 1)) (.scalar r) = .ok t ∧ t.ids.row 0 = [-2147483648] := by
  refine ⟨⟨tracedSums_flattenable, fun t hflat => ?_⟩, exists_flatten_crowded (by decide)⟩
  have hlt := tracedSums_flattenable.ids_lt hflat
  have hlabels : (Index.unique [97, 98, 99, 100, 101, 102, 103, 103]).length = 7 := by decide
  simp [tracedSums, postorder, ownScalars, hlabels] at hlt

end Expr

end Indicial
