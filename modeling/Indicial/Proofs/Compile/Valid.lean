import Indicial.Proofs.Catalog
import Indicial.Proofs.Compile
import Indicial.Proofs.Tree.Flatten

/-!
# Compiled programs are valid

A compiled program passes all checks of a program: the blocks of the outputs follow each other, and the
trees refer to the catalog that was made of the references they read. Ids have 32 bits, so the tables
of the catalog must not have more than `2 ^ 31` entries (`Compiled.valid`). Where a program has passed
the checks they do not, as every entry is referred to (`Compiled.length_table_le`).
-/

namespace Indicial

open Indicial.Expr

variable {α : Type}

/-! ### What trees refer to -/

section Ids

variable {value : Literal → α} {s : EquationSystem} {c : Catalog} {n m : Expr} {left : Int32}
  {x : Tree.Entry α} {base : Nat} {es : List (Tree.Entry α)}

/-- The references of a leaf are constant if its tensor is. -/
lemma Expr.constant_of_leafReferences {constant : Constancy} {dim : Int64} {symbol : Tensor}
    {labels : Index} {rs : List ScalarRef}
    (h : leafReferences constant dim (tensor symbol labels) = .ok rs) {r : ScalarRef} (hr : r ∈ rs) :
    r.constant = constant symbol := by
  obtain ⟨assignments, -, h⟩ := bind_eq_ok_iff.1 h
  obtain ⟨ds, -, hreference⟩ := exists_of_mem_right (mapM_eq_ok_iff.1 h) hr
  obtain ⟨component, -, hreference⟩ := bind_eq_ok_iff.1 hreference
  obtain ⟨derivs, -, hreference⟩ := bind_eq_ok_iff.1 hreference
  rw [ScalarRef.make] at hreference
  split at hreference
  · cases hreference
    rfl
  · cases hreference

/-- The ids of a node are those of the references that it reads, and all of them are of its kind. -/
lemma Expr.rootEntry_ids (h : rootEntry ⟨s.dim, s.isConstant, c, value⟩ n left = .ok x) :
    ∃ rs ks, Compile.nodeRefs s n = .ok rs ∧ rs.mapM c.id = .ok ks ∧ x.ids = ks.map Int32.ofNat ∧
      ∀ r ∈ rs, x.kind = scalarKind r.constant := by
  obtain ⟨y, hslot, h⟩ := bind_eq_ok_iff.1 h
  obtain ⟨inner, -, h⟩ := bind_eq_ok_iff.1 h
  cases h
  cases n with
  | tensor symbol labels =>
    obtain ⟨rs, hrs, hslot⟩ := bind_eq_ok_iff.1 hslot
    obtain ⟨ks, hks, hslot⟩ := bind_eq_ok_iff.1 hslot
    cases hslot
    refine ⟨rs, ks, hrs, hks, rfl, fun r hr => ?_⟩
    rw [constant_of_leafReferences hrs hr]
    rfl
  | scalar ref =>
    obtain ⟨k, hk, hslot⟩ := bind_eq_ok_iff.1 hslot
    cases hslot
    refine ⟨[ref], [k], rfl, mapM_eq_ok_iff.2 (.cons hk .nil), rfl, fun r hr => ?_⟩
    rw [List.mem_singleton.1 hr]
    rfl
  | ratio l r =>
    rw [slot] at hslot
    split at hslot
    · cases hslot
      exact ⟨[], [], rfl, rfl, rfl, nofun⟩
    · cases hslot
  | epsilon labels =>
    rw [slot] at hslot
    split at hslot
    · cases hslot
      exact ⟨[], [], rfl, rfl, rfl, nofun⟩
    · cases hslot
  | derivative e along => cases hslot
  | sum | difference | product | power | negate | apply | bind | delta | literal =>
    cases hslot
    exact ⟨[], [], rfl, rfl, rfl, nofun⟩

/-- The ids of a node that reads scalars refer to the table of these. -/
lemma idLimit_eq {t : Tree α} {i : Nat} {r : ScalarRef}
    (h : t.kind? i = some (scalarKind r.constant)) :
    Program.idLimit c t i = (c.tableOf r).length := by
  rw [Program.idLimit, Catalog.tableOf, h]
  cases r.constant <;> rfl

/-- The entries of an expression are those of its nodes. -/
lemma Expr.Emitted.entries {w : Lowering α} (h : Emitted w n base es) :
    (∀ x ∈ es, ∃ m ∈ n.postorder, ∃ left, rootEntry w m left = .ok x) ∧
      ∀ m ∈ n.postorder, ∃ x ∈ es, ∃ left, rootEntry w m left = .ok x :=
  ⟨fun _ hx => exists_of_mem_right h.forall₂_postorder hx,
    fun _ hm => exists_of_mem_left h.forall₂_postorder hm⟩

/-- An expression reads what its nodes read. -/
lemma Compile.mem_refs {rs : List ScalarRef} (h : Compile.refs s n = .ok rs) {r : ScalarRef} :
    r ∈ rs ↔ ∃ m ∈ n.postorder, ∃ own, Compile.nodeRefs s m = .ok own ∧ r ∈ own := by
  obtain ⟨parts, hparts, h⟩ := bind_eq_ok_iff.1 h
  cases h
  rw [mapM_eq_ok_iff] at hparts
  rw [List.mem_flatten]
  constructor
  · rintro ⟨own, hown, hr⟩
    obtain ⟨m, hm, hrefs⟩ := exists_of_mem_right hparts hown
    exact ⟨m, hm, own, hrefs, hr⟩
  · rintro ⟨m, hm, own, hrefs, hr⟩
    obtain ⟨own', hown', hrefs'⟩ := exists_of_mem_left hparts hm
    rw [hrefs] at hrefs'
    cases hrefs'
    exact ⟨own, hown', hr⟩

end Ids

/-! ### Output blocks -/

namespace Compile

variable {s : EquationSystem} {D base : Nat} {equations : List Equation}

/-- The block of an equation ends before the last block does. -/
lemma start_add_le {j : Nat} {eq : Equation} (heq : equations[j]? = some eq) :
    start D equations j + D ^ eq.lhs.order ≤ start D equations equations.length := by
  induction equations generalizing j with
  | nil => cases heq
  | cons first equations ih =>
    rw [List.length_cons, start_succ]
    cases j with
    | zero =>
      cases heq
      rw [start_zero]
      omega
    | succ j =>
      have hrest := ih heq
      rw [start_succ]
      omega

/-- Every slot is in the block of an equation. -/
lemma exists_block {slot : Nat} (h : slot < start D equations equations.length) :
    ∃ j eq q, equations[j]? = some eq ∧ q < D ^ eq.lhs.order ∧
      slot = start D equations j + q := by
  induction equations generalizing slot with
  | nil => simp at h
  | cons first equations ih =>
    rw [List.length_cons, start_succ] at h
    by_cases hfirst : slot < D ^ first.lhs.order
    · exact ⟨0, first, slot, rfl, hfirst, by rw [start_zero, Nat.zero_add]⟩
    · have hrest : slot - D ^ first.lhs.order < start D equations equations.length := by omega
      obtain ⟨j, eq, q, heq, hq, hslot⟩ := ih hrest
      refine ⟨j + 1, eq, q, heq, hq, ?_⟩
      rw [start_succ]
      omega

/-- The output of an equation names the block of the equation. -/
lemma getElem?_outputs (hdim : s.dim = Int64.ofNat D) (hl : ∀ eq ∈ equations, Ordered eq) (j : Nat) :
    (outputs s.dim (Int64.ofNat base) equations)[j]? = (equations[j]?).map fun eq =>
      ⟨eq.lhs.name, Int64.ofNat eq.lhs.order, Int64.ofNat (base + start D equations j), eq.order⟩ := by
  induction equations generalizing base j with
  | nil => rfl
  | cons eq equations ih =>
    rw [List.forall_mem_cons] at hl
    rw [outputs, components_eq hdim hl.1, ← Int64.ofNat_add]
    cases j with
    | zero => simp
    | succ j =>
      rw [List.getElem?_cons_succ, List.getElem?_cons_succ, ih hl.2, start_succ, Nat.add_assoc]

/-- The blocks follow each other. -/
lemma validateOutputs_outputs (dim base : Int64) (hl : ∀ eq ∈ equations, Ordered eq) :
    Program.validateOutputs dim base (outputs dim base equations) = .ok () := by
  induction equations generalizing base with
  | nil => rfl
  | cons eq equations ih =>
    rw [List.forall_mem_cons] at hl
    have horder : eq.lhs.order ≤ 8 := by
      rw [hl.1.lhs]
      exact hl.1.small
    have hfine : ¬Int64.ofNat Index.capacity < Int64.ofNat eq.lhs.order := by
      rw [Int64.lt_iff_toInt_lt, Int64.toInt_ofNat_of_lt (by decide),
        Int64.toInt_ofNat_of_lt (by omega), Index.capacity]
      omega
    rw [outputs, Program.validateOutputs]
    simp only [hfine, ne_eq, not_true_eq_false, decide_false, Bool.or_false, Bool.false_eq_true,
      if_false]
    exact ih _ hl.2

/-- The blocks end where the last one does. -/
lemma foldl_components_outputs (hdim : s.dim = Int64.ofNat D) (hl : ∀ eq ∈ equations, Ordered eq)
    (b : Int64) :
    (outputs s.dim b equations).foldl (fun w o => w + o.components s.dim) (Int64.ofNat base)
      = Int64.ofNat (base + start D equations equations.length) := by
  induction equations generalizing base b with
  | nil => simp [outputs]
  | cons eq equations ih =>
    rw [List.forall_mem_cons] at hl
    have hfirst : Output.components ⟨eq.lhs.name, Int64.ofNat eq.lhs.order, b, eq.order⟩ s.dim
        = Int64.ofNat (D ^ eq.lhs.order) := components_eq hdim hl.1
    rw [outputs, List.foldl_cons, hfirst, ← Int64.ofNat_add, ih hl.2, List.length_cons, start_succ,
      Nat.add_assoc]

end Compile

/-! ### The whole program -/

namespace EquationSystem

variable {value : Literal → α} {scalarize : Bool} {s : EquationSystem} {p : Program α}
  {sides : List Expr} {pending : List Compile.Pending} {c : Catalog}

section Compiled

variable (h : s.Compiled value scalarize p sides pending c)
  (hrhs : ∀ eq ∈ s.equations, eq.rhs.WellFormed)

include h

/-- The catalog holds what the nodes of the kernels read. -/
lemma Compiled.mem_tableOf_iff {r : ScalarRef} :
    r ∈ c.tableOf r ↔ ∃ k ∈ pending, ∃ m ∈ k.expr.postorder, ∃ rs,
      Compile.nodeRefs s m = .ok rs ∧ r ∈ rs := by
  obtain ⟨refs, hrefs, rfl⟩ := h.references
  rw [Catalog.mem_tableOf_ofRefs, List.mem_flatten]
  constructor
  · rintro ⟨rs, hrs, hr⟩
    obtain ⟨k, hk, hread⟩ := exists_of_mem_right hrefs hrs
    exact ⟨k, hk, (Compile.mem_refs hread).1 hr⟩
  · rintro ⟨k, hk, hr⟩
    obtain ⟨rs, hrs, hread⟩ := exists_of_mem_left hrefs hk
    exact ⟨rs, hrs, (Compile.mem_refs hread).2 hr⟩

/-- No table of a catalog is too long for the ids once these have been checked: the id of an entry
beyond would have wrapped around. -/
theorem Compiled.length_tableOf_le (hvalid : p.Valid c) (r : ScalarRef) :
    (c.tableOf r).length ≤ 2 ^ 31 := by
  by_contra hlong
  obtain ⟨hdim, -, hle⟩ := radix_bounds h.validate
  have hfar : 2 ^ 31 < (c.tableOf r).length := by omega
  obtain ⟨far, hget⟩ : ∃ far, (c.tableOf r)[2 ^ 31]? = some far := ⟨_, List.getElem?_eq_getElem hfar⟩
  obtain ⟨htable, hnodup⟩ : c.tableOf far = c.tableOf r ∧ (c.tableOf r).Nodup := by
    obtain ⟨refs, -, rfl⟩ := h.references
    exact ⟨Catalog.tableOf_eq_of_mem (List.mem_of_getElem? hget), Catalog.nodup_tableOf_ofRefs r⟩
  have hmem : far ∈ c.tableOf far := by
    rw [htable]
    exact List.mem_of_getElem? hget
  obtain ⟨k, hk, m, hm, rs, hrs, hread⟩ := h.mem_tableOf_iff.1 hmem
  obtain ⟨kernel, hkernel, -, t, htree, hflat⟩ := exists_of_mem_left h.kernels hk
  obtain ⟨-, -, -, es, hemitted, hholds, -⟩ := flatten_holds hflat hdim (by omega)
  obtain ⟨x, hx, left, hroot⟩ := hemitted.entries.2 m hm
  obtain ⟨rs', ks, hrs', hks, hids, -⟩ := rootEntry_ids hroot
  obtain rfl : rs = rs' := Except.ok.inj (hrs.symm.trans hrs')
  obtain ⟨id, hid, hlookup⟩ := exists_of_mem_left (mapM_eq_ok_iff.1 hks) hread
  have hplace := Catalog.lookup?_eq_some (Catalog.id_eq_ok_iff.1 hlookup)
  rw [htable, ← hget] at hplace
  obtain rfl : 2 ^ 31 = id := (List.getElem?_inj hfar hnodup).1 hplace.symm
  obtain ⟨i, hi, hxi⟩ := List.mem_iff_getElem.1 hx
  have hentry : es[i]? = some x := by rw [List.getElem?_eq_getElem hi, hxi]
  obtain ⟨t', hchecked⟩ := hvalid.kernel kernel hkernel
  obtain rfl : t = t' := Option.some.inj (htree.symm.trans hchecked.tree)
  have hwrapped := (hchecked.id_lt i (by rw [hholds.nodes]; exact hi) (Int32.ofNat (2 ^ 31))
    (by rw [hholds.ids hentry, hids]; exact List.mem_map_of_mem hid)).1
  exact absurd hwrapped (by decide)

include hrhs

/-- The width of a compiled program is where the last block ends. -/
lemma Compiled.width :
    p.width = Int64.ofNat (Compile.start s.radix s.equations s.equations.length) := by
  have hend : (Compile.outputs s.dim 0 s.equations).foldl (fun w o => w + o.components s.dim)
      (Int64.ofNat 0) = Int64.ofNat (0 + Compile.start s.radix s.equations s.equations.length) :=
    Compile.foldl_components_outputs (radix_bounds h.validate).1
      (fun eq heq => ordered h.validate hrhs heq) 0
  rw [Program.width, h.outputs, h.dim]
  rwa [Nat.zero_add] at hend

/-- The output of an equation has its name, order, labels and block. -/
lemma Compiled.getElem?_outputs {j : Nat} {eq : Equation} (heq : s.equations[j]? = some eq) :
    p.outputs[j]? = some ⟨eq.lhs.name, Int64.ofNat eq.lhs.order,
      Int64.ofNat (Compile.start s.radix s.equations j), eq.order⟩ := by
  have houtput : (Compile.outputs s.dim (Int64.ofNat 0) s.equations)[j]?
      = (s.equations[j]?).map fun eq => ⟨eq.lhs.name, Int64.ofNat eq.lhs.order,
        Int64.ofNat (0 + Compile.start s.radix s.equations j), eq.order⟩ :=
    Compile.getElem?_outputs (radix_bounds h.validate).1
      (fun eq heq => ordered h.validate hrhs heq) j
  rw [heq, Nat.zero_add] at houtput
  rw [h.outputs]
  exact houtput

/-- A compiled program is valid. -/
theorem Compiled.valid
    (hwidth : Compile.start s.radix s.equations s.equations.length < 2 ^ 31)
    (htables : ∀ r, (c.tableOf r).length ≤ 2 ^ 31) : p.Valid c := by
  obtain ⟨hdim, hpos, hle⟩ := radix_bounds h.validate
  have hW : p.width.toInt = Compile.start s.radix s.equations s.equations.length := by
    rw [h.width hrhs, Int64.toInt_ofNat_of_lt (by omega)]
  -- The targets of all kernels together are the slots, each once; the width keeps them in words.
  have hslots : ∀ t ∈ p.kernels.flatMap fun k => k.targets, ∃ slot,
      slot < Compile.start s.radix s.equations s.equations.length ∧ t = Int32.ofNat slot := by
    intro t ht
    rw [h.flatMap_targets, (h.targets hrhs).mem_iff, List.mem_map] at ht
    obtain ⟨slot, hslot, rfl⟩ := ht
    exact ⟨slot, List.mem_range.1 hslot, rfl⟩
  refine ⟨h.catalog, ?_, by omega, fun kernel hkernel => ?_, ?_⟩
  · rw [h.outputs, h.dim]
    exact Compile.validateOutputs_outputs _ _ fun eq heq => ordered h.validate hrhs heq
  · obtain ⟨k, hk, htargets, t, htree, hflat⟩ := exists_of_mem_right h.kernels hkernel
    obtain ⟨hvalid, -, -, es, hemitted, hholds, hrank⟩ := flatten_holds hflat hdim (by omega)
    obtain ⟨hlen, x, hx, hxo⟩ := hemitted.exists_root
    have hroot : t.size t.root = Int64.ofNat (s.radix ^ k.expr.outer.length) := by
      rw [Tree.root, hholds.nodes, hholds.size hx, hxo]
    refine ⟨t, htree, hvalid, ?_, ?_, fun slot hslot => ?_, fun i hi e he => ?_⟩
    · rw [hholds.dim, h.dim, hdim]
    · have hsmall : s.radix ^ k.expr.outer.length < 2 ^ 63 :=
        (Layout.components_le hle (hxo ▸ hrank x (List.mem_of_getElem? hx))).trans_lt (by decide)
      rw [htargets, (h.shape hrhs hk).2.2, hroot, Int64.toInt_ofNat_of_lt hsmall]
    · obtain ⟨n, hn, rfl⟩ := hslots slot (List.mem_flatMap.2 ⟨kernel, hkernel, hslot⟩)
      rw [toInt32_ofNat_of_lt (by omega)]
      omega
    · rw [hholds.nodes] at hi
      have hentry : es[i]? = some es[i] := List.getElem?_eq_getElem hi
      -- An id was looked up in a table that a word can number.
      obtain ⟨m, -, left, hroot⟩ := hemitted.entries.1 es[i] (List.getElem_mem hi)
      obtain ⟨rs, ks, -, hks, hids, hkind⟩ := rootEntry_ids hroot
      rw [hholds.ids hentry, hids, List.mem_map] at he
      obtain ⟨id, hid, rfl⟩ := he
      obtain ⟨r, hr, hlookup⟩ := exists_of_mem_right (mapM_eq_ok_iff.1 hks) hid
      have hlt := Catalog.lt_of_lookup? (Catalog.id_eq_ok_iff.1 hlookup)
      have hsmall := htables r
      rw [idLimit_eq ((hholds.kind hentry).trans (congrArg some (hkind r hr))),
        toInt32_ofNat_of_lt (by omega)]
      omega
  · rw [hW, Int.toNat_natCast, h.flatMap_targets]
    have hperm := (h.targets hrhs).map fun t => t.toInt.toNat
    rw [List.map_map] at hperm
    refine hperm.trans (.of_eq ((List.map_congr_left fun slot hslot => ?_).trans (List.map_id _)))
    rw [List.mem_range] at hslot
    rw [Function.comp, toInt32_ofNat_of_lt (by omega), Int.toNat_natCast]
    rfl

end Compiled

end EquationSystem

end Indicial
