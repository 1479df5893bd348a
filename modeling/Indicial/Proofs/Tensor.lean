import Indicial.Proofs.Bytes
import Indicial.Tensor
import Mathlib.Data.List.Basic
import Mathlib.Data.List.Sort

/-!
# Keys of scalar references

The key of a scalar is the name of its tensor, then its component in brackets, then its directions
behind a mark; a part that is empty is left out. A name has letters and digits only, so it ends where
the first bracket or mark stands, and a bracket closes where the digits and commas in it end. Hence a
key tells names, components and multisets of directions apart (`ScalarRef.keyOf_injective`).
-/

namespace Indicial

namespace Coord

variable {a b c c' : Coord}

/-! ### Sorting -/

/-- Sorting permutes the entries. -/
lemma sorted_perm (c : Coord) : c.sorted.values.Perm c.values := List.mergeSort_perm _ _

/-- Sorting keeps the number of entries. -/
lemma size_sorted (c : Coord) : c.sorted.size = c.size := c.sorted_perm.length_eq

/-- Equal entries in any order are equal when sorted. -/
lemma sorted_eq_of_perm (h : a.values.Perm b.values) : a.sorted = b.sorted := by
  have hsort : ∀ l : List UInt8, (l.mergeSort (· ≤ ·)).Pairwise (· ≤ ·) := by
    intro l
    have hsorted : (l.mergeSort (· ≤ ·)).Pairwise fun x y => decide (x ≤ y) = true := by
      apply List.pairwise_mergeSort
      · intro x y z hxy hyz
        rw [decide_eq_true_eq] at hxy hyz ⊢
        exact UInt8.le_trans hxy hyz
      · intro x y
        rw [Bool.or_eq_true, decide_eq_true_eq, decide_eq_true_eq]
        exact UInt8.le_total x y
    simpa only [decide_eq_true_eq] using hsorted
  have hperm : (a.values.mergeSort (· ≤ ·)).Perm (b.values.mergeSort (· ≤ ·)) :=
    ((List.mergeSort_perm _ _).trans h).trans (List.mergeSort_perm _ _).symm
  exact congrArg Coord.mk (hperm.eq_of_pairwise (fun _ _ _ _ => UInt8.le_antisymm) (hsort _) (hsort _))

/-- Sorted entries stay as they are. -/
lemma sorted_sorted (c : Coord) : c.sorted.sorted = c.sorted := sorted_eq_of_perm c.sorted_perm

/-- Two lists of entries are sorted alike exactly if they are permutations of each other. -/
lemma sorted_eq_sorted_iff : a.sorted = b.sorted ↔ a.values.Perm b.values := by
  refine ⟨fun h => ?_, sorted_eq_of_perm⟩
  have hb := b.sorted_perm
  rw [← h] at hb
  exact a.sorted_perm.symm.trans hb

/-- Only empty coordinates have size zero. -/
lemma size_eq_zero_iff : c.size = 0 ↔ c = ⟨[]⟩ := by
  obtain ⟨values⟩ := c
  simp [size]

/-! ### Text -/

/-- Entries are read off their text. -/
lemma toBytes_injective (h : c.toBytes = c'.toBytes) : c = c' := by
  have hmap (c : Coord) : c.toBytes = Bytes.join [44] ((c.values.map UInt8.toNat).map Bytes.ofNat) := by
    rw [toBytes, List.map_map]
    rfl
  rw [hmap, hmap] at h
  have hvalues := List.map_injective_iff.2 (fun _ _ => UInt8.toNat_inj.1) (Bytes.join_ofNat_injective h)
  exact congrArg Coord.mk hvalues

/-- There is no closing bracket in the text of entries. -/
lemma ne_closing_of_mem_toBytes : ∀ x ∈ c.toBytes, (x != 93) = true := by
  apply Bytes.forall_mem_join
  · simp
  · intro x hx b hb
    obtain ⟨v, -, rfl⟩ := List.mem_map.1 hx
    have hdigit := Bytes.isDigit_of_mem_ofNat hb
    rw [bne_iff_ne]
    rintro rfl
    cases hdigit

end Coord

namespace ScalarRef

variable {name name' : Bytes} {component component' derivs derivs' : Coord} {r r' : Bytes}

/-- A reference is made if the component has as many entries as the tensor has labels; directions are
sorted. -/
lemma make_eq_ok_iff {tensor : Tensor} {constant : Bool} {r : ScalarRef} :
    make tensor component derivs constant = .ok r ↔
      component.size = tensor.order ∧ ⟨tensor, component, derivs.sorted, constant⟩ = r := by
  rw [make]
  split <;> simp [*]

/-! ### Keys -/

/-- A component in brackets, if it has indices. -/
def bracketed (component : Coord) : Bytes :=
  if component.size = 0 then [] else [91] ++ component.toBytes ++ [93]

/-- Sorted directions behind a mark, if there are any. -/
def marked (derivs : Coord) : Bytes :=
  if derivs.size = 0 then [] else Bytes.ofString "'d[" ++ derivs.sorted.toBytes ++ [93]

/-- A key is the name with the component in brackets and the mark of the directions. -/
lemma keyOf_eq (name : Bytes) (component derivs : Coord) :
    keyOf name component derivs = name ++ (bracketed component ++ marked derivs) :=
  List.append_assoc ..

/-- Directions are marked by a prime, a letter and the sorted directions in brackets. -/
lemma marked_of_ne_zero (h : derivs.size ≠ 0) :
    marked derivs = 39 :: 100 :: 91 :: (derivs.sorted.toBytes ++ [93]) := by
  have hmark : Bytes.ofString "'d[" = [39, 100, 91] := by decide
  rw [marked, if_neg h, hmark]
  rfl

/-- A component is written in brackets. -/
lemma bracketed_of_ne_zero (h : component.size ≠ 0) :
    bracketed component = 91 :: (component.toBytes ++ [93]) := by
  rw [bracketed, if_neg h]
  rfl

/-- Entries are read off a text in which a bracket closes them. -/
lemma toBytes_append_inj (h : component.toBytes ++ 93 :: r = component'.toBytes ++ 93 :: r') :
    component = component' ∧ r = r' := by
  obtain ⟨htext, hrest⟩ := Bytes.append_run_inj Coord.ne_closing_of_mem_toBytes
    Coord.ne_closing_of_mem_toBytes (by simp) (by simp) h
  exact ⟨Coord.toBytes_injective htext, (List.cons.inj hrest).2⟩

/-- Equal marks are made for the same directions up to order. -/
lemma marked_inj (h : marked derivs = marked derivs') : derivs.values.Perm derivs'.values := by
  by_cases hd : derivs.size = 0
  · by_cases hd' : derivs'.size = 0
    · rw [Coord.size_eq_zero_iff.1 hd, Coord.size_eq_zero_iff.1 hd']
    · rw [marked_of_ne_zero hd', marked, if_pos hd] at h
      cases h
  · by_cases hd' : derivs'.size = 0
    · rw [marked_of_ne_zero hd, marked, if_pos hd'] at h
      cases h
    · rw [marked_of_ne_zero hd, marked_of_ne_zero hd'] at h
      simp only [List.cons.injEq, true_and] at h
      exact Coord.sorted_eq_sorted_iff.1 (toBytes_append_inj h).1

/-- A mark does not begin with a bracket. -/
lemma head?_marked_ne_opening : ∀ b ∈ (marked derivs).head?, b ≠ 91 := by
  by_cases hd : derivs.size = 0
  · simp [marked, hd]
  · rw [marked_of_ne_zero hd]
    simp

/-- Component and mark can be told apart. -/
lemma bracketed_append_inj (h : bracketed component ++ marked derivs
    = bracketed component' ++ marked derivs') :
    component = component' ∧ marked derivs = marked derivs' := by
  by_cases hc : component.size = 0
  · by_cases hc' : component'.size = 0
    · rw [bracketed, bracketed, if_pos hc, if_pos hc'] at h
      exact ⟨(Coord.size_eq_zero_iff.1 hc).trans (Coord.size_eq_zero_iff.1 hc').symm, h⟩
    · -- Directions do not begin with the bracket of a component.
      rw [bracketed_of_ne_zero hc', bracketed, if_pos hc, List.nil_append] at h
      exact absurd rfl (head?_marked_ne_opening 91 (by rw [h]; rfl))
  · by_cases hc' : component'.size = 0
    · rw [bracketed_of_ne_zero hc, bracketed, if_pos hc', List.nil_append] at h
      exact absurd rfl (head?_marked_ne_opening 91 (by rw [← h]; rfl))
    · rw [bracketed_of_ne_zero hc, bracketed_of_ne_zero hc'] at h
      simp only [List.cons_append, List.cons.injEq, true_and, List.append_assoc, List.nil_append] at h
      exact toBytes_append_inj h

/-- What follows the name in a key is no part of a name. -/
lemma head?_bracketed_append : ∀ b ∈ (bracketed component ++ marked derivs).head?,
    (Bytes.isLetter b || Bytes.isDigit b) = false := by
  by_cases hc : component.size = 0
  · rw [bracketed, if_pos hc, List.nil_append]
    by_cases hd : derivs.size = 0
    · simp [marked, hd]
    · rw [marked_of_ne_zero hd]
      rintro b ⟨⟩
      decide
  · rw [bracketed_of_ne_zero hc]
    rintro b ⟨⟩
    decide

/-- A key tells names of letters and digits, components and multisets of directions apart. -/
theorem keyOf_injective (hname : ∀ b ∈ name, (Bytes.isLetter b || Bytes.isDigit b) = true)
    (hname' : ∀ b ∈ name', (Bytes.isLetter b || Bytes.isDigit b) = true)
    (h : keyOf name component derivs = keyOf name' component' derivs') :
    name = name' ∧ component = component' ∧ derivs.values.Perm derivs'.values := by
  rw [keyOf_eq, keyOf_eq] at h
  obtain ⟨hsame, hrest⟩ :=
    Bytes.append_run_inj hname hname' head?_bracketed_append head?_bracketed_append h
  obtain ⟨hcomponent, hmarked⟩ := bracketed_append_inj hrest
  exact ⟨hsame, hcomponent, marked_inj hmarked⟩

/-- The order of directions does not matter for a key. -/
lemma keyOf_congr (h : derivs.values.Perm derivs'.values) :
    keyOf name component derivs = keyOf name component derivs' := by
  have hsize : derivs.size = derivs'.size := h.length_eq
  rw [keyOf, keyOf, hsize, Coord.sorted_eq_of_perm h]

end ScalarRef

end Indicial
