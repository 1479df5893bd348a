import Indicial.Program.Basic
import Indicial.Proofs.Outcome
import Mathlib.Data.List.Nodup
import Mathlib.Data.List.Perm.Subperm

/-!
# Valid programs

What a program that passes its checks is known to be, which is all that they ask for
(`valid_of_validate`, `Valid.validate`). The counts of `tally` are those of the targets, and looking at
one slot more than there are targets is enough (`perm_range_of_miswritten?`): the targets of all kernels
together are the slots, each of them once.
-/

namespace Indicial.Program

variable {α : Type}

/-! ### Counting targets -/

/-- The tally has at each slot how many targets name it. -/
lemma getElem?_tally {n i : Nat} (targets : List Int32) (hi : i < n) :
    (tally n targets)[i]? = some ((targets.map fun t => t.toInt.toNat).count i) := by
  suffices key : ∀ (w : Array Nat) (x : Nat), w[i]? = some x →
      (targets.foldl (fun w t => w.modify t.toInt.toNat (· + 1)) w)[i]?
        = some (x + (targets.map fun t => t.toInt.toNat).count i) by
    rw [tally, key _ 0 (by simp [hi]), Nat.zero_add]
  induction targets with
  | nil => simp
  | cons t targets ih =>
    intro w x hx
    rw [List.foldl_cons, List.map_cons, List.count_cons]
    by_cases ht : t.toInt.toNat = i
    · rw [ih _ (x + 1) (by rw [Array.getElem?_modify, if_pos ht, hx]; rfl), if_pos (by simpa using ht)]
      congr 1
      omega
    · rw [ih _ x (by rw [Array.getElem?_modify, if_neg ht, hx]), if_neg (by simpa using ht),
        Nat.add_zero]

/-- Every slot is a target once, and there are no other targets. -/
theorem perm_range_of_miswritten? {W : Nat} {targets : List Int32}
    (h : miswritten? W targets = none) (hlt : ∀ t ∈ targets, t.toInt.toNat < W) :
    (targets.map fun t => t.toInt.toNat).Perm (List.range W) := by
  have hcount : ∀ i < min W (targets.length + 1),
      (targets.map fun t => t.toInt.toNat).count i = 1 := by
    intro i hi
    rw [miswritten?, Option.map_eq_none_iff, List.find?_eq_none] at h
    have hentry := h ((targets.map fun t => t.toInt.toNat).count i, i) (by
      rw [List.mem_zipIdx_iff_getElem?, Array.getElem?_toList]
      exact getElem?_tally targets hi)
    simpa using hentry
  -- More slots than targets cannot all be targets, so the first slots are all there are.
  have hall : W ≤ targets.length + 1 := by
    by_contra hmore
    have hsub : List.range (targets.length + 1) ⊆ targets.map fun t => t.toInt.toNat := by
      intro i hi
      rw [List.mem_range] at hi
      exact List.count_pos_iff.1 (by rw [hcount i (by omega)]; exact Nat.one_pos)
    have hle := (List.nodup_range.subperm hsub).length_le
    rw [List.length_range, List.length_map] at hle
    omega
  rw [List.perm_iff_count]
  intro i
  by_cases hi : i < W
  · rw [hcount i (by omega), List.count_eq_one_of_mem List.nodup_range (List.mem_range.2 hi)]
  · rw [List.count_eq_zero_of_not_mem fun hmem => hi (List.mem_range.1 hmem),
      List.count_eq_zero_of_not_mem]
    intro hmem
    obtain ⟨t, ht, rfl⟩ := List.mem_map.1 hmem
    exact hi (hlt t ht)

/-- The tally has an entry for each slot. -/
lemma size_tally (n : Nat) (targets : List Int32) : (tally n targets).size = n := by
  suffices key : ∀ w : Array Nat,
      (targets.foldl (fun w t => w.modify t.toInt.toNat (· + 1)) w).size = w.size by
    rw [tally, key, Array.size_replicate]
  induction targets with
  | nil => exact fun w => rfl
  | cons t targets ih => exact fun w => (ih _).trans (Array.size_modify ..)

/-- Targets that are the slots, each of them once, are found to be so. -/
lemma miswritten?_eq_none {W : Nat} {targets : List Int32}
    (h : (targets.map fun t => t.toInt.toNat).Perm (List.range W)) :
    miswritten? W targets = none := by
  rw [miswritten?, Option.map_eq_none_iff, List.find?_eq_none]
  rintro ⟨count, i⟩ hentry
  rw [List.mem_zipIdx_iff_getElem?, Array.getElem?_toList] at hentry
  have hi : i < min W (targets.length + 1) := by
    have hlt := (Array.getElem?_eq_some_iff.1 hentry).1
    rwa [size_tally] at hlt
  rw [getElem?_tally targets hi, Option.some.injEq, h.count_eq] at hentry
  rw [← hentry, List.count_eq_one_of_mem List.nodup_range (List.mem_range.2 (by omega))]
  simp

/-! ### What is checked -/

/-- The checks that a kernel passes. -/
structure KernelValid (p : Program α) (c : Catalog) (k : Kernel α) (t : Tree α) : Prop where
  tree : k.tree = some t
  validate : t.validate = .ok ()
  dim : t.dim = p.dim
  length_targets : (k.targets.length : Int) = (t.size t.root).toInt
  target_lt : ∀ slot ∈ k.targets, 0 ≤ slot.toInt ∧ slot.toInt < p.width.toInt
  id_lt : ∀ i < t.nodes, ∀ e ∈ t.ids.row i, 0 ≤ e.toInt ∧ e.toInt < idLimit c t i

/-- The checks that a program passes. -/
structure Valid (p : Program α) (c : Catalog) : Prop where
  catalog : p.catalog = some c
  outputs : validateOutputs p.dim 0 p.outputs = .ok ()
  width : 0 ≤ p.width.toInt
  kernel : ∀ k ∈ p.kernels, ∃ t, p.KernelValid c k t
  targets : ((p.kernels.flatMap fun k => k.targets).map fun t => t.toInt.toNat).Perm
    (List.range p.width.toInt.toNat)

section Inversion

variable {p : Program α} {c : Catalog} {k : Kernel α} {number : Nat}

/-- Nothing that is out of range is found. -/
lemma in_range_of_find? {l : List Int32} {n : Int}
    (h : l.find? (fun e => e < 0 || n ≤ e.toInt) = none) {e : Int32} (he : e ∈ l) :
    0 ≤ e.toInt ∧ e.toInt < n := by
  have hin := List.find?_eq_none.1 h e he
  simp only [Bool.or_eq_true, decide_eq_true_eq, not_or, Int32.lt_iff_toInt_lt, Int32.toInt_zero,
    Int.not_lt, Int.not_le] at hin
  exact hin

/-- A kernel that passes its checks is valid, with its tree. -/
lemma validateKernel_eq_ok (h : p.validateKernel c number k = .ok ()) :
    ∃ t, p.KernelValid c k t := by
  rw [validateKernel] at h
  cases htree : k.tree with
  | none =>
    rw [htree] at h
    cases h
  | some t =>
    rw [htree] at h
    obtain ⟨⟨⟩, hvalidate, h⟩ := bind_eq_ok_iff.1 h
    rw [within_eq_ok_iff] at hvalidate
    obtain ⟨hdim, h⟩ := guard_eq_ok h
    obtain ⟨hlength, h⟩ := guard_eq_ok h
    cases htargets : k.targets.find? fun s => s < 0 || p.width.toInt ≤ s.toInt with
    | some s =>
      rw [htargets] at h
      cases h
    | none =>
      rw [htargets] at h
      refine ⟨t, htree, hvalidate, not_not.1 hdim, not_not.1 hlength,
        fun slot hslot => in_range_of_find? htargets hslot, fun i hi e he => ?_⟩
      have hnode := forM_eq_ok_iff.1 h i (List.mem_range.2 hi)
      rw [validateIds] at hnode
      cases hids : (t.ids.row i).find? fun e => e < 0 || (idLimit c t i : Int) ≤ e.toInt with
      | some e' =>
        rw [hids] at hnode
        cases hnode
      | none => exact in_range_of_find? hids he

/-- All kernels of a list that passes its checks are valid. -/
lemma validateKernels_eq_ok {kernels : List (Kernel α)}
    (h : p.validateKernels c number kernels = .ok ()) :
    ∀ k ∈ kernels, ∃ t, p.KernelValid c k t := by
  induction kernels generalizing number with
  | nil => nofun
  | cons k kernels ih =>
    obtain ⟨⟨⟩, hfirst, hrest⟩ := bind_eq_ok_iff.1 h
    rw [List.forall_mem_cons]
    exact ⟨validateKernel_eq_ok hfirst, ih hrest⟩

/-- A program that passes validation is valid. -/
theorem valid_of_validate (h : p.validate = .ok ()) : ∃ c, p.Valid c := by
  rw [validate] at h
  cases hcatalog : p.catalog with
  | none =>
    rw [hcatalog] at h
    cases h
  | some c =>
    rw [hcatalog] at h
    obtain ⟨⟨⟩, houtputs, h⟩ := bind_eq_ok_iff.1 h
    obtain ⟨hwidth, h⟩ := guard_eq_ok h
    obtain ⟨⟨⟩, hkernels, h⟩ := bind_eq_ok_iff.1 h
    have hkernel := validateKernels_eq_ok hkernels
    have hpos : 0 ≤ p.width.toInt := by
      rw [Int64.lt_iff_toInt_lt, Int64.toInt_zero] at hwidth
      omega
    cases hmiss : miswritten? p.width.toInt.toNat (p.kernels.flatMap fun k => k.targets) with
    | some entry =>
      rw [hmiss] at h
      cases h
    | none =>
      refine ⟨c, hcatalog, houtputs, hpos, hkernel, perm_range_of_miswritten? hmiss ?_⟩
      intro t ht
      obtain ⟨k, hk, ht⟩ := List.mem_flatMap.1 ht
      obtain ⟨tree, hvalid⟩ := hkernel k hk
      have hlt := hvalid.target_lt t ht
      omega

/-- No slot is the target of two components. -/
lemma Valid.nodup_targets (h : p.Valid c) : (p.kernels.flatMap fun k => k.targets).Nodup :=
  (h.targets.nodup_iff.2 List.nodup_range).of_map

/-- Every slot is the target of a component. -/
lemma Valid.exists_target (h : p.Valid c) {slot : Nat} (hslot : slot < p.width.toInt.toNat) :
    ∃ k ∈ p.kernels, ∃ t ∈ k.targets, t.toInt.toNat = slot := by
  have hmem := h.targets.mem_iff.2 (List.mem_range.2 hslot)
  obtain ⟨t, ht, rfl⟩ := List.mem_map.1 hmem
  obtain ⟨k, hk, ht⟩ := List.mem_flatMap.1 ht
  exact ⟨k, hk, t, ht, rfl⟩

end Inversion

/-! ### Valid programs pass -/

section Check

variable {p : Program α} {c : Catalog} {k : Kernel α} {t : Tree α}

/-- Nothing is found when all are in range. -/
lemma find?_of_in_range {l : List Int32} {n : Int} (h : ∀ e ∈ l, 0 ≤ e.toInt ∧ e.toInt < n) :
    l.find? (fun e => e < 0 || n ≤ e.toInt) = none := by
  rw [List.find?_eq_none]
  intro e he
  simp only [Bool.or_eq_true, decide_eq_true_eq, not_or, Int32.lt_iff_toInt_lt, Int32.toInt_zero,
    Int.not_lt, Int.not_le]
  exact h e he

/-- A valid kernel passes its checks. -/
lemma KernelValid.validateKernel (h : p.KernelValid c k t) (number : Nat) :
    p.validateKernel c number k = .ok () := by
  have hids : (List.range t.nodes).forM (validateIds c number t) = .ok () := by
    rw [forM_eq_ok_iff]
    intro i hi
    rw [validateIds, find?_of_in_range (h.id_lt i (List.mem_range.1 hi))]
  rw [Program.validateKernel, h.tree]
  simp only [h.validate, h.dim, h.length_targets, find?_of_in_range h.target_lt, hids,
    Except.within, ok_bind, ne_eq, not_true_eq_false, if_false]

/-- A list of valid kernels passes its checks. -/
lemma validateKernels_of_valid {kernels : List (Kernel α)}
    (h : ∀ k ∈ kernels, ∃ t, p.KernelValid c k t) (number : Nat) :
    p.validateKernels c number kernels = .ok () := by
  induction kernels generalizing number with
  | nil => rfl
  | cons k kernels ih =>
    rw [List.forall_mem_cons] at h
    obtain ⟨⟨t, hfirst⟩, hrest⟩ := h
    rw [validateKernels, hfirst.validateKernel, ok_bind, ih hrest]

/-- A valid program passes validation. -/
theorem Valid.validate (h : p.Valid c) : p.validate = .ok () := by
  have hwidth : ¬p.width < 0 := by
    rw [Int64.lt_iff_toInt_lt, Int64.toInt_zero]
    exact Int.not_lt.2 h.width
  rw [Program.validate, h.catalog]
  simp only [h.outputs, validateKernels_of_valid h.kernel, miswritten?_eq_none h.targets, hwidth,
    ok_bind, if_false]
  rfl

end Check

end Indicial.Program
