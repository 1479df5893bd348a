import Indicial.Index
import Mathlib.Data.List.Perm.Lattice
import Mathlib.Data.List.Perm.Subperm
import Mathlib.Data.List.Nodup
import Mathlib.Data.List.Dedup

/-!
# The algebra of index labels

Which labels the operations on indices keep, and how often. Free labels (`exclusive`,
`symmetricDifference`) and summed labels (`repeated`, `intersect`) never repeat, so that each of them
is known up to order by its members; two indices that are permutations of each other have
permutations as results. The labels that a node runs over (`unique`) are its free labels together
with its summed ones.
-/

namespace Indicial.Index

variable {a a' b b' : Index} {c : Label}

/-- The test for permutations means what it says. -/
lemma isPermutation_iff : isPermutation a b = true ↔ a.Perm b := by
  unfold isPermutation
  rw [Bool.and_eq_true, beq_iff_eq, List.all_eq_true]
  constructor
  · rintro ⟨hlen, hcount⟩
    have hsub : a.Subperm b := by
      rw [List.subperm_ext_iff]
      intro x hx
      exact Nat.le_of_eq (beq_iff_eq.1 (hcount x hx))
    exact hsub.perm_of_length_le (Nat.le_of_eq hlen.symm)
  · intro h
    exact ⟨h.length_eq, fun x _ => beq_iff_eq.2 (h.count_eq x)⟩

/-- Two indices without repetition and with the same labels are permutations of each other. -/
lemma perm_of_nodup (ha : a.Nodup) (hb : b.Nodup) (h : ∀ c, c ∈ a ↔ c ∈ b) : a.Perm b :=
  (List.perm_ext_iff_of_nodup ha hb).2 h

/-- Listing labels once keeps all of them. -/
@[simp] lemma mem_unique : c ∈ unique a ↔ c ∈ a := by
  induction a with
  | nil => simp [unique]
  | cons x a ih =>
    by_cases hx : c = x
    · simp [unique, hx]
    · simp [unique, hx, ih]

/-- No label is listed twice. -/
lemma nodup_unique (a : Index) : (unique a).Nodup := by
  induction a with
  | nil => simp [unique]
  | cons x a ih =>
    rw [unique, List.nodup_cons]
    exact ⟨by simp, ih.filter _⟩

/-- Different labels are listed as they are. -/
lemma unique_eq_self (h : a.Nodup) : unique a = a := by
  induction a with
  | nil => rfl
  | cons c a ih =>
    obtain ⟨hc, ha⟩ := List.nodup_cons.1 h
    rw [unique, ih ha, List.filter_eq_self.2]
    intro d hd
    rw [bne_iff_ne]
    rintro rfl
    exact hc hd

/-- There are no more different labels than labels. -/
lemma length_unique_le (a : Index) : (unique a).length ≤ a.length := by
  induction a with
  | nil => exact Nat.le_refl 0
  | cons c a ih =>
    have := List.length_filter_le (· != c) (unique a)
    simp only [unique, List.length_cons]
    omega

/-- The exclusive labels are those that occur once. -/
@[simp] lemma mem_exclusive : c ∈ exclusive a ↔ a.count c = 1 := by
  unfold exclusive
  rw [List.mem_filter, beq_iff_eq]
  constructor
  · exact fun h => h.2
  · exact fun h => ⟨List.count_pos_iff.1 (by omega), h⟩

/-- Exclusive labels are labels. -/
lemma mem_of_mem_exclusive (h : c ∈ exclusive a) : c ∈ a :=
  List.mem_of_mem_filter h

/-- No exclusive label is listed twice. -/
lemma nodup_exclusive (a : Index) : (exclusive a).Nodup := by
  rw [List.nodup_iff_count_le_one]
  intro c
  by_cases hc : c ∈ exclusive a
  · have := mem_exclusive.1 hc
    exact Nat.le_trans (List.Sublist.count_le c List.filter_sublist) (Nat.le_of_eq this)
  · rw [List.count_eq_zero.2 hc]
    omega

/-- If all labels are different, all of them are exclusive. -/
lemma exclusive_eq_self (h : a.Nodup) : exclusive a = a := by
  rw [exclusive, List.filter_eq_self]
  intro c hc
  rw [beq_iff_eq]
  exact List.count_eq_one_of_mem h hc

/-- There are no more exclusive labels than labels. -/
lemma length_exclusive_le (a : Index) : (exclusive a).length ≤ a.length :=
  List.length_filter_le _ _

/-- The repeated labels are those that occur more than once. -/
@[simp] lemma mem_repeated : c ∈ repeated a ↔ 1 < a.count c := by
  unfold repeated
  rw [mem_unique, List.mem_filter, decide_eq_true_eq]
  constructor
  · exact fun h => h.2
  · exact fun h => ⟨List.count_pos_iff.1 (by omega), h⟩

/-- No repeated label is listed twice. -/
lemma nodup_repeated (a : Index) : (repeated a).Nodup := nodup_unique _

/-- Nothing is summed exactly when no label repeats. -/
lemma repeated_eq_nil_iff : repeated a = [] ↔ a.Nodup := by
  rw [List.eq_nil_iff_forall_not_mem, List.nodup_iff_count_le_one]
  simp

/-- The common labels are those of both indices. -/
@[simp] lemma mem_intersect : c ∈ intersect a b ↔ c ∈ a ∧ c ∈ b := by
  unfold intersect
  rw [mem_unique, List.mem_filter, List.contains_iff_mem]

/-- No common label is listed twice. -/
lemma nodup_intersect (a b : Index) : (intersect a b).Nodup := nodup_unique _

/-- The remaining labels are those of the first index alone. -/
@[simp] lemma mem_minus : c ∈ minus a b ↔ c ∈ a ∧ c ∉ b := by
  unfold minus
  rw [List.mem_filter, Bool.not_eq_true', ← Bool.not_eq_true, List.contains_iff_mem]

/-- Different labels stay different when some are taken out. -/
lemma nodup_minus (h : a.Nodup) (b : Index) : (minus a b).Nodup := h.filter _

/-- The symmetric difference has the labels of one of the indices alone. -/
lemma mem_symmetricDifference :
    c ∈ symmetricDifference a b ↔ (c ∈ a ∧ c ∉ b) ∨ (c ∈ b ∧ c ∉ a) := by
  simp [symmetricDifference]

/-- Indices of different labels have a symmetric difference of such. -/
lemma nodup_symmetricDifference (ha : a.Nodup) (hb : b.Nodup) :
    (symmetricDifference a b).Nodup := by
  refine List.Nodup.append (nodup_minus ha b) (nodup_minus hb a) ?_
  intro c hc hc'
  exact (mem_minus.1 hc).2 (mem_minus.1 hc').1

/-- Without labels on the left, those on the right remain. -/
@[simp] lemma nil_symmetricDifference (a : Index) : symmetricDifference [] a = a := by
  simp [symmetricDifference, minus]

/-- Without labels on the right, those on the left remain. -/
@[simp] lemma symmetricDifference_nil (a : Index) : symmetricDifference a [] = a := by
  simp [symmetricDifference, minus]

/-- Without labels on the left, none are common. -/
@[simp] lemma nil_intersect (a : Index) : intersect [] a = [] := rfl

/-- Without labels on the right, none are common. -/
@[simp] lemma intersect_nil (a : Index) : intersect a [] = [] := by
  simp [intersect, unique]

/-! ### Permutations in, permutations out -/

/-- A permuted index has the same exclusive labels. -/
lemma exclusive_perm (h : a.Perm a') : (exclusive a).Perm (exclusive a') :=
  perm_of_nodup (nodup_exclusive _) (nodup_exclusive _) fun c => by
    rw [mem_exclusive, mem_exclusive, h.count_eq]

/-- A permuted index has the same repeated labels. -/
lemma repeated_perm (h : a.Perm a') : (repeated a).Perm (repeated a') :=
  perm_of_nodup (nodup_repeated _) (nodup_repeated _) fun c => by
    rw [mem_repeated, mem_repeated, h.count_eq]

/-- Permuted indices have the same labels in common. -/
lemma intersect_perm (ha : a.Perm a') (hb : b.Perm b') :
    (intersect a b).Perm (intersect a' b') :=
  perm_of_nodup (nodup_intersect _ _) (nodup_intersect _ _) fun c => by
    rw [mem_intersect, mem_intersect, ha.mem_iff, hb.mem_iff]

/-- The common labels do not depend on the order of the indices. -/
lemma intersect_comm (a b : Index) : (intersect a b).Perm (intersect b a) :=
  perm_of_nodup (nodup_intersect _ _) (nodup_intersect _ _) fun c => by
    rw [mem_intersect, mem_intersect, and_comm]

/-- The symmetric difference does not depend on the order of the indices. -/
lemma symmetricDifference_comm (a b : Index) :
    (symmetricDifference a b).Perm (symmetricDifference b a) :=
  List.perm_append_comm

/-- Of permuted indices the same labels remain. -/
lemma minus_perm (ha : a.Perm a') (hb : b.Perm b') : (minus a b).Perm (minus a' b') := by
  unfold minus
  have hcongr : (fun c => !b.contains c) = fun c => !b'.contains c := by
    funext c
    rw [Bool.eq_iff_iff]
    simp [hb.mem_iff]
  rw [hcongr]
  exact ha.filter _

/-- Permuted indices have the same symmetric difference. -/
lemma symmetricDifference_perm (ha : a.Perm a') (hb : b.Perm b') :
    (symmetricDifference a b).Perm (symmetricDifference a' b') :=
  (minus_perm ha hb).append (minus_perm hb ha)

/-! ### Free labels and summed labels together -/

/-- Both operands run over the free labels of their product and its summed ones. -/
lemma unique_append_perm (ha : a.Nodup) (hb : b.Nodup) :
    (unique (a ++ b)).Perm (symmetricDifference a b ++ intersect a b) := by
  apply perm_of_nodup (nodup_unique _)
  · refine (nodup_symmetricDifference ha hb).append (nodup_intersect a b) ?_
    intro c hc hc'
    rw [mem_symmetricDifference] at hc
    rw [mem_intersect] at hc'
    tauto
  · intro c
    rw [mem_unique, List.mem_append, List.mem_append, mem_symmetricDifference, mem_intersect]
    tauto

/-- Of different labels, those remain that occur once in both indices together. -/
lemma minus_eq_filter_count (ha : a.Nodup) (hb : b.Nodup) :
    minus a b = a.filter fun c => (a ++ b).count c == 1 := by
  apply List.filter_congr
  intro c hc
  have hone := List.count_eq_one_of_mem ha hc
  by_cases hcb : c ∈ b
  · simp [List.count_append, hone, List.count_eq_one_of_mem hb hcb, hcb]
  · simp [List.count_append, hone, List.count_eq_zero.2 hcb, hcb]

/-- The free labels of a product are those that occur once in both operands together. -/
lemma symmetricDifference_eq_exclusive (ha : a.Nodup) (hb : b.Nodup) :
    symmetricDifference a b = exclusive (a ++ b) := by
  rw [symmetricDifference, exclusive, List.filter_append, minus_eq_filter_count ha hb,
    minus_eq_filter_count hb ha]
  simp only [List.count_append, Nat.add_comm]

/-- The labels of a leaf or relabelling are free or summed. -/
lemma unique_perm (a : Index) : (unique a).Perm (exclusive a ++ repeated a) := by
  apply perm_of_nodup (nodup_unique _)
  · refine (nodup_exclusive a).append (nodup_repeated a) ?_
    intro c hc hc'
    rw [mem_exclusive] at hc
    rw [mem_repeated] at hc'
    omega
  · intro c
    rw [mem_unique, List.mem_append, mem_exclusive, mem_repeated, ← List.count_pos_iff]
    omega

/-! ### Capacity, positions and fresh labels -/

/-- Joining succeeds exactly when the labels fit. -/
lemma concat_eq_ok_iff {x : Index} :
    concat a b = .ok x ↔ x = a ++ b ∧ (a ++ b).length ≤ capacity := by
  unfold concat
  cases h : (a ++ b).drop capacity with
  | nil =>
    have hle : (a ++ b).length ≤ capacity := List.drop_eq_nil_iff.1 h
    simp only [Except.ok.injEq, hle, and_true]
    exact eq_comm
  | cons y ys =>
    have hlt : ¬ (a ++ b).length ≤ capacity := by
      rw [← List.drop_eq_nil_iff, h]
      simp
    simp only [reduceCtorEq, hlt, and_false]

/-- Labels that fit an index can be joined. -/
lemma concat_eq_ok (h : (a ++ b).length ≤ capacity) : concat a b = .ok (a ++ b) :=
  concat_eq_ok_iff.2 ⟨rfl, h⟩

/-- A label of the index has a first position. -/
lemma exists_position (h : c ∈ a) :
    ∃ i, position? a c = some i ∧ a[i]? = some c := by
  induction a with
  | nil => simp at h
  | cons x a ih =>
    by_cases hx : x = c
    · exact ⟨0, by simp [position?, List.findIdx?_cons, hx], by simp [hx]⟩
    · obtain ⟨i, hi, hget⟩ := ih (by simpa [Ne.symm hx] using h)
      refine ⟨i + 1, ?_, by simpa using hget⟩
      unfold position? at hi ⊢
      simp [List.findIdx?_cons, hx, hi]

/-- The position of a label is that of its first occurrence. -/
lemma position_eq {i : Nat} (h : position? a c = some i) : position a c = i := by
  simp [position, h]

/-- The label at a position is found there. -/
lemma get_natCast (a : Index) {i : Nat} (h : a[i]? = some c) : get a (i : Int) = .ok c := by
  unfold get
  simp only [h]

/-- Only labels that do not occur have no position. -/
lemma position?_eq_none_iff : position? a c = none ↔ c ∉ a := by
  unfold position?
  rw [List.findIdx?_eq_none_iff]
  constructor
  · intro h hc
    simpa using h c hc
  · intro h x hx
    rw [beq_eq_false_iff_ne]
    rintro rfl
    exact h hx

/-- Without repetition the label at a position has that position. -/
lemma position?_getElem (h : a.Nodup) {i : Nat} (hi : a[i]? = some c) :
    position? a c = some i := by
  obtain ⟨j, hj, hget⟩ := exists_position (List.mem_of_getElem? hi)
  rw [hj]
  congr 1
  exact (List.getElem?_inj (List.getElem?_eq_some_iff.1 hget).1 h).1 (hget.trans hi.symm)

/-- A fresh label is not among the used ones. -/
lemma not_mem_of_fresh {used : Bytes} (h : fresh used = .ok c) : c ∉ used := by
  unfold fresh at h
  cases hf : candidates.find? fun c => !used.contains c with
  | none => rw [hf] at h; cases h
  | some d =>
    rw [hf] at h
    cases h
    have hd := List.find?_some hf
    simpa using hd

/-- Renaming keeps the number of labels. -/
lemma length_rename (a : Index) (old new : Label) : (rename a old new).length = a.length := by
  simp [rename]

/-- A label that was renamed does not occur any more. -/
lemma not_mem_rename (a : Index) {old new : Label} (hne : new ≠ old) : old ∉ rename a old new := by
  intro h
  obtain ⟨c, -, hc⟩ := List.mem_map.1 h
  split at hc
  · exact hne hc
  · rename_i hco
    exact hco (by simpa using hc)

/-- Renaming to a label that does not occur carries the occurrences over. -/
lemma count_rename {old new : Label} (hnew : new ∉ a) (hne : new ≠ old) :
    (rename a old new).count c
      = if c = new then a.count old else if c = old then 0 else a.count c := by
  induction a with
  | nil => simp [rename]
  | cons d a ih =>
    simp only [List.mem_cons, not_or] at hnew
    have ih := ih hnew.2
    have hcons : rename (d :: a) old new = (if d == old then new else d) :: rename a old new := rfl
    rw [hcons, List.count_cons, ih]
    simp only [List.count_cons, beq_iff_eq]
    grind

/-- After renaming there is the new label in place of the old one, and all others. -/
lemma mem_rename {old new : Label} (hnew : new ∉ a) (hne : new ≠ old) :
    c ∈ rename a old new ↔ (c = new ∧ old ∈ a) ∨ (c ≠ old ∧ c ∈ a) := by
  simp only [← List.count_pos_iff, count_rename hnew hne]
  grind [List.count_pos_iff]

/-- Renaming to a new label keeps the labels different. -/
lemma nodup_rename {old new : Label} (h : a.Nodup) (hnew : new ∉ a) (hne : new ≠ old) :
    (rename a old new).Nodup := by
  rw [List.nodup_iff_count_le_one] at h ⊢
  intro c
  rw [count_rename hnew hne]
  split
  · exact h old
  · split
    · exact Nat.zero_le _
    · exact h c

end Indicial.Index
