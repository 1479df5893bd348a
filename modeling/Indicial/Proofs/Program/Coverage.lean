import Indicial.Program.Codec
import Indicial.Proofs.Program
import Indicial.Proofs.Tree.Valid
import Mathlib.Algebra.Group.Action.Defs
import Mathlib.Algebra.Order.BigOperators.Group.List

/-!
# What the checks of a program mean

A program that passes its checks has one target for each component of a root, and its ids are entries
of the catalog. Widths and bases of the output blocks are words, and a dimension is bounded by the
trees alone. So the checks mean that the blocks tile the output vector and that every slot is written
exactly once where the true width of the vector is a word, and only there (`written_once_iff`). With a
kernel it is one, unless there are `2 ^ 31` blocks or more; a program without kernels can claim a width
that wraps around to zero and pass (`unwritten_passes`).
-/

namespace Indicial.Program

variable {α : Type}

/-! ### Blocks of true lengths -/

/-- The number of slots of blocks in dimension `D`, as a true number. -/
def extent (D : Nat) (outputs : List Output) : Nat :=
  (outputs.map fun o => D ^ o.order.toInt.toNat).sum

/-- The blocks follow each other without gaps, and the first begins at `first`. -/
def Tiles (D : Nat) : (first : Nat) → List Output → Prop
  | _, [] => True
  | first, o :: rest => o.base.toInt = first ∧ Tiles D (first + D ^ o.order.toInt.toNat) rest

/-- The length of the output vector, as a true number. -/
def span (p : Program α) : Nat := extent p.dim.toInt.toNat p.outputs

section Blocks

variable {dim : Int64} {outputs : List Output}

/-- The extent of outputs is that of the first one and of the others. -/
lemma extent_cons (D : Nat) (o : Output) (rest : List Output) :
    extent D (o :: rest) = D ^ o.order.toInt.toNat + extent D rest := by
  rw [extent, List.map_cons, List.sum_cons, extent]

/-- The length of a block is the word of its true length. -/
lemma components_eq_ofNat (hdim : 0 ≤ dim.toInt) {o : Output} (ho : 0 ≤ o.order.toInt) :
    o.components dim = Int64.ofNat (dim.toInt.toNat ^ o.order.toInt.toNat) := by
  have hlt : o.order.toInt.toNat < 2 ^ 63 := by
    have := o.order.toInt_lt
    omega
  rw [← Layout.power_ofNat _ hlt, ofNat_toNat_toInt hdim, ofNat_toNat_toInt ho, Output.components]

/-- The width counts the components of all outputs, up to wrapping around. -/
lemma foldl_components_eq (hdim : 0 ≤ dim.toInt) (horder : ∀ o ∈ outputs, 0 ≤ o.order.toInt)
    (first : Nat) :
    outputs.foldl (fun w o => w + o.components dim) (Int64.ofNat first)
      = Int64.ofNat (first + extent dim.toInt.toNat outputs) := by
  induction outputs generalizing first with
  | nil => rfl
  | cons o rest ih =>
    rw [List.forall_mem_cons] at horder
    rw [List.foldl_cons, components_eq_ofNat hdim horder.1, ← Int64.ofNat_add, ih horder.2, extent_cons,
      Nat.add_assoc]

/-- Blocks that pass the check tile a vector whose true length is a word. -/
lemma tiles_of_validateOutputs (hdim : 0 ≤ dim.toInt) (horder : ∀ o ∈ outputs, 0 ≤ o.order.toInt)
    {first : Nat} (h : validateOutputs dim (Int64.ofNat first) outputs = .ok ())
    (hfits : first + extent dim.toInt.toNat outputs < 2 ^ 63) :
    Tiles dim.toInt.toNat first outputs := by
  induction outputs generalizing first with
  | nil => trivial
  | cons o rest ih =>
    rw [List.forall_mem_cons] at horder
    rw [extent_cons] at hfits
    rw [validateOutputs] at h
    split at h
    case isTrue => cases h
    case isFalse hbase =>
      simp only [Bool.or_eq_true, decide_eq_true_eq, not_or, not_not] at hbase
      rw [components_eq_ofNat hdim horder.1, ← Int64.ofNat_add] at h
      refine ⟨?_, ih horder.2 h (by omega)⟩
      rw [hbase.1]
      exact Int64.toInt_ofNat_of_lt (by omega)

/-- Blocks of the dimensions and orders that trees have, and not too many of them, end below the
largest word. -/
lemma extent_lt {D : Nat} (hD : D ≤ 16) (horder : ∀ o ∈ outputs, o.order.toInt ≤ 8)
    (hcount : outputs.length < 2 ^ 31) : extent D outputs < 2 ^ 63 := by
  have hblock : ∀ n ∈ outputs.map fun o => D ^ o.order.toInt.toNat, n ≤ 16 ^ 8 := by
    intro n hn
    obtain ⟨o, ho, rfl⟩ := List.mem_map.1 hn
    have hle := horder o ho
    exact Layout.components_le hD (by omega)
  have hsum := List.sum_le_card_nsmul _ _ hblock
  rw [List.length_map, smul_eq_mul] at hsum
  rw [extent]
  omega

end Blocks

/-! ### Targets by their places -/

/-- The slot that component `i` of kernel `k` is written to. -/
def target? (p : Program α) (k i : Nat) : Option Int :=
  (p.kernels[k]?.bind fun kernel => kernel.targets[i]?).map Int32.toInt

/-- One component of one kernel is written to the slot, and no other. -/
def WrittenOnce (p : Program α) (slot : Nat) : Prop :=
  ∃! place : Nat × Nat, p.target? place.1 place.2 = some (slot : Int)

/-- A value occurs at one place of lists that have no value twice. -/
lemma place_unique {β : Type} {rows : List (List β)} (h : rows.flatten.Nodup) {k i k' i' : Nat}
    {row row' : List β} {x : β} (hrow : rows[k]? = some row) (hx : row[i]? = some x)
    (hrow' : rows[k']? = some row') (hx' : row'[i']? = some x) : k = k' ∧ i = i' := by
  obtain ⟨hrows, hdisjoint⟩ := List.nodup_flatten.1 h
  obtain rfl : k = k' := by
    -- Different rows are disjoint, and both of these have `x`.
    by_contra hne
    have hapart : List.Disjoint row row' := by
      obtain ⟨hk, rfl⟩ := List.getElem?_eq_some_iff.1 hrow
      obtain ⟨hk', rfl⟩ := List.getElem?_eq_some_iff.1 hrow'
      rcases Nat.lt_or_gt_of_ne hne with hlt | hgt
      · exact List.pairwise_iff_getElem.1 hdisjoint k k' hk hk' hlt
      · exact List.disjoint_symm (List.pairwise_iff_getElem.1 hdisjoint k' k hk' hk hgt)
    exact hapart (List.mem_of_getElem? hx) (List.mem_of_getElem? hx')
  rw [hrow] at hrow'
  cases hrow'
  refine ⟨rfl, ?_⟩
  have hi := (List.getElem?_eq_some_iff.1 hx).1
  exact (List.getElem?_inj hi (hrows row (List.mem_of_getElem? hrow))).1 (hx.trans hx'.symm)

section Places

variable {p : Program α} {c : Catalog}

/-- A target of a component is written down in its kernel. -/
lemma target?_eq_some {k i : Nat} {slot : Int} (h : p.target? k i = some slot) :
    ∃ kernel, p.kernels[k]? = some kernel ∧ ∃ t, kernel.targets[i]? = some t ∧ t.toInt = slot := by
  obtain ⟨t, ht, rfl⟩ := Option.map_eq_some_iff.1 h
  obtain ⟨kernel, hkernel, ht⟩ := Option.bind_eq_some_iff.1 ht
  exact ⟨kernel, hkernel, t, ht, rfl⟩

/-- Every slot below the width that the checks compute is written once. -/
lemma Valid.writtenOnce (h : p.Valid c) {slot : Nat} (hslot : slot < p.width.toInt.toNat) :
    p.WrittenOnce slot := by
  obtain ⟨kernel, hkernel, t, ht, hvalue⟩ := h.exists_target hslot
  obtain ⟨tree, hvalid⟩ := h.kernel kernel hkernel
  have hpos := (hvalid.target_lt t ht).1
  obtain ⟨k, hk⟩ := List.mem_iff_getElem?.1 hkernel
  obtain ⟨i, hi⟩ := List.mem_iff_getElem?.1 ht
  refine ⟨(k, i), ?_, ?_⟩
  · show p.target? k i = some (slot : Int)
    rw [target?, hk, Option.bind_some, hi, Option.map_some, ← hvalue, Int.toNat_of_nonneg hpos]
  · rintro ⟨k', i'⟩ hplace
    obtain ⟨kernel', hk', t', hi', hvalue'⟩ := target?_eq_some hplace
    -- Another place of the slot has the same word for a target.
    obtain rfl : t' = t := Int32.toInt_inj.1 (by omega)
    have hnodup : (p.kernels.map fun k => k.targets).flatten.Nodup := by
      rw [← List.flatMap_def]
      exact h.nodup_targets
    obtain ⟨rfl, rfl⟩ := place_unique hnodup (by rw [List.getElem?_map, hk', Option.map_some]) hi'
      (by rw [List.getElem?_map, hk, Option.map_some]) hi
    rfl

/-- Targets are words of 32 bits, so no slot above these is written. -/
lemma WrittenOnce.lt {slot : Nat} (h : p.WrittenOnce slot) : slot < 2 ^ 31 := by
  obtain ⟨place, hplace, -⟩ := h
  obtain ⟨kernel, -, t, -, hvalue⟩ := target?_eq_some hplace
  have hlt := t.toInt_lt
  omega

/-- The width that the checks compute is the word of the true one. -/
lemma width_eq_ofNat_span (hdim : 0 ≤ p.dim.toInt) (horder : ∀ o ∈ p.outputs, 0 ≤ o.order.toInt) :
    p.width = Int64.ofNat p.span := by
  have hfold := foldl_components_eq hdim horder 0
  rwa [Nat.zero_add] at hfold

/-- The blocks tile the output vector, and every slot of it is written once, exactly where its true
length is a word. -/
lemma Valid.written_iff (h : p.Valid c) (hdim : 0 ≤ p.dim.toInt)
    (horder : ∀ o ∈ p.outputs, 0 ≤ o.order.toInt) :
    (Tiles p.dim.toInt.toNat 0 p.outputs ∧ ∀ slot < p.span, p.WrittenOnce slot) ↔
      p.span < 2 ^ 63 := by
  constructor
  · rintro ⟨-, hwritten⟩
    -- A vector of that length has a slot that no word of 32 bits reaches.
    by_contra hlarge
    have hlt := (hwritten (2 ^ 31) (by omega)).lt
    omega
  · intro hfits
    refine ⟨tiles_of_validateOutputs hdim horder h.outputs (by rwa [Nat.zero_add]), ?_⟩
    intro slot hslot
    apply h.writtenOnce
    rwa [width_eq_ofNat_span hdim horder, toNat_toInt_ofNat hfits]

/-- A kernel has one target for each component of its root. -/
lemma KernelValid.length_targets_eq {k : Kernel α} {t : Tree α} (h : p.KernelValid c k t) :
    k.targets.length = t.components t.root := by
  have hvalid := Tree.valid_of_validate h.validate
  have hroot : t.root < t.nodes := by
    have := hvalid.nodes_pos
    rw [Tree.root]
    omega
  have hlength := h.length_targets
  rw [hvalid.size_eq hroot,
    Int64.toInt_ofNat_of_lt ((hvalid.components_le hroot).trans_lt (by decide))] at hlength
  exact_mod_cast hlength

/-- The dimension of a tree bounds that of the program. -/
lemma KernelValid.dim_le {k : Kernel α} {t : Tree α} (h : p.KernelValid c k t) :
    p.dim.toInt.toNat ≤ 16 := by
  have hle := (Tree.valid_of_validate h.validate).dim.2
  rw [h.dim] at hle
  omega

end Places

/-- What the ids of a kernel's leaves refer to: constants to the first table, scalars to the second. -/
def RefersTo (c : Catalog) (t : Tree α) : Prop :=
  ∀ i < t.nodes, ∀ e ∈ t.ids.row i,
    (t.kind? i = some .constant → 0 ≤ e.toInt ∧ e.toInt < c.constants.length) ∧
      (t.kind? i = some .scalar → 0 ≤ e.toInt ∧ e.toInt < c.scalars.length)

/-- A valid kernel refers to the catalog. -/
lemma KernelValid.refersTo {p : Program α} {c : Catalog} {k : Kernel α} {t : Tree α}
    (h : p.KernelValid c k t) : RefersTo c t := by
  intro i hi e he
  have hlt := h.id_lt i hi e he
  rw [idLimit] at hlt
  constructor
  · intro hkind
    rwa [if_pos hkind] at hlt
  · intro hkind
    rwa [if_neg (by rw [hkind]; decide)] at hlt

/-- What a program that passes its checks is. Its kernels have one target for each component of their
roots, and ids in range. Its blocks tile the output vector with every slot written once, exactly if the
true length of the vector is a word; it is one if there is a kernel and the blocks are fewer than
`2 ^ 31`. -/
theorem written_once_iff {p : Program α} {c : Catalog} (h : p.validate = .ok ())
    (hcatalog : p.catalog = some c) (hdim : 0 ≤ p.dim.toInt ∧ p.dim.toInt < 2 ^ 16)
    (horder : ∀ o ∈ p.outputs, 0 ≤ o.order.toInt ∧ o.order.toInt ≤ 8) :
    (∀ k ∈ p.kernels, ∃ t, k.tree = some t ∧ k.targets.length = t.components t.root ∧ RefersTo c t) ∧
      ((Tiles p.dim.toInt.toNat 0 p.outputs ∧ ∀ slot < p.span, p.WrittenOnce slot) ↔
        p.span < 2 ^ 63) ∧
      (p.kernels ≠ [] → p.outputs.length < 2 ^ 31 → p.span < 2 ^ 63) := by
  obtain ⟨c', hvalid⟩ := valid_of_validate h
  obtain rfl : c = c' := Option.some.inj (hcatalog.symm.trans hvalid.catalog)
  refine ⟨?_, hvalid.written_iff hdim.1 fun o ho => (horder o ho).1, ?_⟩
  · intro k hk
    obtain ⟨t, ht⟩ := hvalid.kernel k hk
    exact ⟨t, ht.tree, ht.length_targets_eq, ht.refersTo⟩
  · intro hkernels hcount
    obtain ⟨k, hk⟩ := List.exists_mem_of_ne_nil _ hkernels
    obtain ⟨t, ht⟩ := hvalid.kernel k hk
    exact extent_lt ht.dim_le (fun o ho => (horder o ho).2) hcount

/-- A tree of one leaf in two dimensions. -/
def leafOnly (tag : UInt8) (labels : List UInt8) (ids : List Int32) (depth : Int32) :
    Tree Binary64 where
  dim := 2
  tags := #[tag]
  left := #[-1]
  outer := ⟨#[0, Int32.ofNat labels.length], labels.toArray⟩
  inner := ⟨#[0, 0], #[]⟩
  binding := ⟨#[0, 0], #[]⟩
  ids := ⟨#[0, Int32.ofNat ids.length], ids.toArray⟩
  values := #[⟨0⟩]
  funcs := #[0]
  offsets := #[0]
  depth := depth

/-- A scalar `y` and a vector `z` in two dimensions. The first kernel writes the constants `a₀` and `a₁`
to the slots of `z`, the last first, and the second one writes a scalar to that of `y`. -/
def crossed : Program Binary64 where
  id := []
  name := Bytes.ofString "crossed"
  dim := 2
  catalog := some {
    constants := [⟨⟨Bytes.ofString "a", 1, 0⟩, ⟨[0]⟩, ⟨[]⟩, true⟩,
      ⟨⟨Bytes.ofString "a", 1, 0⟩, ⟨[1]⟩, ⟨[]⟩, true⟩]
    scalars := [⟨⟨Bytes.ofString "y", 0, 1⟩, ⟨[]⟩, ⟨[]⟩, false⟩] }
  outputs := [⟨Bytes.ofString "y", 0, 0, []⟩, ⟨Bytes.ofString "z", 1, 1, [105]⟩]
  kernels := [⟨1, [2, 1], some (leafOnly 15 [105] [0, 1] 2)⟩, ⟨0, [0], some (leafOnly 14 [] [0] 1)⟩]

/-- Two kernels write three slots in an order that is not that of the slots. -/
theorem written_once_iff_crossed :
    crossed.span = 3 ∧ Tiles 2 0 crossed.outputs ∧ (∀ slot < 3, crossed.WrittenOnce slot) ∧
      ∀ k ∈ crossed.kernels, ∃ t, k.tree = some t ∧ k.targets.length = t.components t.root := by
  have hspan : crossed.span = 3 := by decide
  obtain ⟨hkernels, hiff, hfits⟩ :=
    written_once_iff (p := crossed) (by decide +kernel) rfl (by decide) (by decide)
  obtain ⟨htiles, hwritten⟩ := hiff.2 (hfits (by simp [crossed]) (by decide))
  refine ⟨hspan, htiles, hspan ▸ hwritten, fun k hk => ?_⟩
  obtain ⟨t, ht, hlength, -⟩ := hkernels k hk
  exact ⟨t, ht, hlength⟩

/-- A block of `32768 ^ 5` slots, a number whose word is zero, and no kernel. -/
def unwritten : Program Binary64 where
  id := List.replicate 16 0
  name := Bytes.ofString "wide"
  dim := 32768
  catalog := some ⟨[], []⟩
  outputs := [⟨Bytes.ofString "y", 5, 0, []⟩]
  kernels := []

/-- A program without kernels is read from its file and passes all checks, but none of its slots is
written. -/
theorem unwritten_passes :
    unwritten.validate = .ok () ∧ decode (encode unwritten) = .ok unwritten ∧
      unwritten.span = 2 ^ 75 ∧ ∀ slot, ¬unwritten.WrittenOnce slot := by
  refine ⟨by decide +kernel, by decide +kernel, by decide +kernel, ?_⟩
  rintro slot ⟨place, hplace, -⟩
  obtain ⟨kernel, hkernel, -⟩ := target?_eq_some hplace
  cases hkernel

end Indicial.Program
