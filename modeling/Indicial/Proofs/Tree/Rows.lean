import Indicial.Proofs.Layout
import Indicial.Proofs.Outcome
import Indicial.Rows
import Mathlib.Data.List.Induction

/-!
# Rows in one array

The offsets of a table are 32-bit words. A table that passes `Rows.validate` has rows that stand end to
end and cover its data (`Covers`); its last offset is not negative, so its data is shorter than `2 ^ 31`
and the offsets have the lengths of the rows.

A table that was filled by `Rows.push` holds the rows end to end: its data is their concatenation, and
offset `i` is the length of the first `i` rows. Reading a row back (`row_ofList`) needs the data to be
shorter than `2 ^ 31`, and then the rows cover it (`covers_ofList`).
-/

namespace Indicial.Rows

variable {α : Type}

/-! ### Checked tables -/

section Checked

variable {c : Rows α} {rows i : Nat}

/-- The rows stand end to end and cover the data. -/
structure Covers (c : Rows α) (rows : Nat) : Prop where
  size : c.offsets.size = rows + 1
  first : (c.offsets.getD 0 0).toInt = 0
  last : (c.offsets.getD rows 0).toInt = c.data.size
  step : ∀ i < rows, (c.offsets.getD i 0).toInt ≤ (c.offsets.getD (i + 1) 0).toInt


/-- Checked offsets cover their rows. -/
lemma covers_of_validate {table : String} (h : c.validate table rows = .ok ()) (hrows : 0 < rows) :
    c.Covers rows := by
  rw [validate] at h
  split at h
  case isTrue => cases h
  case isFalse hsize =>
    rw [if_neg (by omega)] at h
    split at h
    case isTrue => cases h
    case isFalse hends =>
      simp only [Bool.or_eq_true, decide_eq_true_eq, not_or, not_not] at hends
      split at h
      case h_1 => cases h
      case h_2 hnone =>
        rw [decrease?, List.find?_eq_none] at hnone
        refine ⟨?_, by rw [hends.1]; rfl, hends.2, fun i hi => ?_⟩
        · rw [Rows.size] at hsize
          omega
        · have hstep := hnone i (List.mem_range.2 hi)
          rw [decide_eq_true_eq, Int32.lt_iff_toInt_lt] at hstep
          omega

namespace Covers

/-- Offsets that cover their rows pass the check. -/
lemma validate (h : c.Covers rows) (table : String) (hrows : 0 < rows) :
    c.validate table rows = .ok () := by
  have hsize : c.size = rows := by rw [Rows.size, h.size, Nat.add_sub_cancel]
  have hfirst : c.offsets.getD 0 0 = 0 := Int32.toInt_inj.1 h.first
  have hnone : c.decrease? rows = none := by
    refine List.find?_eq_none.2 fun i hi => ?_
    rw [decide_eq_true_eq, Int32.lt_iff_toInt_lt, not_lt]
    exact h.step i (List.mem_range.1 hi)
  have hspan : ¬(c.offsets.getD 0 0 ≠ 0 || (c.offsets.getD rows 0).toInt ≠ c.data.size) := by
    rw [hfirst, h.last]
    simp
  rw [Rows.validate, if_neg (by simp [hsize]), if_neg (by omega), if_neg hspan, hnone]

/-- Offsets do not decrease. -/
lemma offsets_le (h : c.Covers rows) {j : Nat} (hij : i ≤ j) (hj : j ≤ rows) :
    (c.offsets.getD i 0).toInt ≤ (c.offsets.getD j 0).toInt := by
  induction j, hij using Nat.le_induction with
  | base => exact le_rfl
  | succ j hij ih => exact (ih (by omega)).trans (h.step j (by omega))

/-- A covered table has fewer than `2 ^ 31` entries. -/
lemma data_lt (h : c.Covers rows) : c.data.size < 2 ^ 31 := by
  have hlt := (c.offsets.getD rows 0).toInt_lt
  rw [h.last] at hlt
  omega

/-- The offsets have the lengths of the rows. -/
lemma length_eq (h : c.Covers rows) (hi : i < rows) :
    c.length i = Int64.ofNat (c.row i).length := by
  have hfirst := h.first.symm.trans_le (h.offsets_le (Nat.zero_le i) hi.le)
  have hstep := h.step i hi
  have hlast := (h.offsets_le (i := i + 1) hi le_rfl).trans h.last.le
  have hdata := h.data_lt
  have hrow : (c.row i).length
      = ((c.offsets.getD (i + 1) 0).toInt - (c.offsets.getD i 0).toInt).toNat := by
    rw [row, offset, offset, Array.length_toList, Array.size_extract]
    omega
  rw [length, hrow]
  apply Int64.toInt_inj.1
  rw [Int32.toInt_toInt64, Int32.toInt_sub, Int64.toInt_ofNat_of_lt (by omega),
    Int.toNat_of_nonneg (by omega)]
  exact Int.bmod_eq_of_le (by omega) (by omega)

end Covers

end Checked

/-! ### Tables of rows -/

/-- The table of the given rows. -/
def ofList (rows : List (List α)) : Rows α := rows.foldl push empty

/-- One more row is pushed at the end. -/
lemma ofList_append_singleton (rows : List (List α)) (row : List α) :
    ofList (rows ++ [row]) = (ofList rows).push row := by
  simp [ofList]

/-- The data are all rows joined. -/
lemma data_ofList (rows : List (List α)) : (ofList rows).data = rows.flatten.toArray := by
  induction rows using List.reverseRecOn with
  | nil => rfl
  | append_singleton rows row ih =>
    rw [ofList_append_singleton]
    simp [push, ih]

/-- The offsets count the entries of the rows before. -/
lemma offsets_ofList (rows : List (List α)) :
    (ofList rows).offsets = if rows = [] then #[] else
      ((List.range (rows.length + 1)).map fun i =>
        Int32.ofNat (rows.take i).flatten.length).toArray := by
  induction rows using List.reverseRecOn with
  | nil => rfl
  | append_singleton rows row ih =>
    rw [ofList_append_singleton, if_neg (by simp)]
    have hlast : Int32.ofNat ((ofList rows).data ++ row.toArray).size
        = Int32.ofNat ((rows ++ [row]).take (rows.length + 1)).flatten.length := by
      rw [data_ofList, List.take_of_length_le (by simp)]
      simp
    -- The offsets before the new one see only the old rows.
    have hold : (List.range (rows.length + 1)).map
          (fun i => Int32.ofNat ((rows ++ [row]).take i).flatten.length)
        = (List.range (rows.length + 1)).map
          (fun i => Int32.ofNat (rows.take i).flatten.length) := by
      apply List.map_congr_left
      intro i hi
      rw [List.take_append_of_le_length (by simpa [Nat.lt_succ_iff] using hi)]
    have hnew : ((List.range ((rows ++ [row]).length + 1)).map fun i =>
          Int32.ofNat ((rows ++ [row]).take i).flatten.length).toArray
        = (((List.range (rows.length + 1)).map fun i =>
            Int32.ofNat (rows.take i).flatten.length).toArray).push
          (Int32.ofNat ((ofList rows).data ++ row.toArray).size) := by
      rw [List.length_append, List.length_singleton, List.range_succ, List.map_append, hold, hlast]
      simp
    rw [hnew, push, ih]
    by_cases hrows : rows = []
    · subst hrows
      rfl
    · simp [hrows]

/-- An offset is the number of entries of the rows before it. -/
lemma getD_offsets_ofList (rows : List (List α)) {i : Nat} (h : i ≤ rows.length) :
    (ofList rows).offsets.getD i 0 = Int32.ofNat (rows.take i).flatten.length := by
  rw [offsets_ofList]
  by_cases hrows : rows = []
  · subst hrows
    simp
  · simp [hrows, Array.getD, Nat.lt_succ_of_le h]

section Bounded

variable {rows : List (List α)} {i : Nat} {row : List α}

/-- Row `i` stands behind the rows before it. -/
lemma flatten_split (h : rows[i]? = some row) :
    rows.flatten = (rows.take i).flatten ++ row ++ (rows.drop (i + 1)).flatten := by
  obtain ⟨hi, rfl⟩ := List.getElem?_eq_some_iff.1 h
  have hsplit : rows = rows.take i ++ rows[i] :: rows.drop (i + 1) := by
    rw [← List.drop_eq_getElem_cons hi, List.take_append_drop]
  calc rows.flatten = (rows.take i ++ rows[i] :: rows.drop (i + 1)).flatten := congrArg _ hsplit
    _ = (rows.take i).flatten ++ rows[i] ++ (rows.drop (i + 1)).flatten := by
      simp only [List.flatten_append, List.flatten_cons, List.append_assoc]

/-- The entries of the next row come behind those before it. -/
lemma length_take_succ (h : rows[i]? = some row) :
    (rows.take (i + 1)).flatten.length = (rows.take i).flatten.length + row.length := by
  obtain ⟨hi, rfl⟩ := List.getElem?_eq_some_iff.1 h
  rw [List.take_succ_eq_append_getElem hi, List.flatten_append, List.length_append]
  simp

/-- A row is read back as it was pushed. -/
theorem row_ofList (hsmall : rows.flatten.length < 2 ^ 31) (h : rows[i]? = some row) :
    (ofList rows).row i = row := by
  have hi : i < rows.length := (List.getElem?_eq_some_iff.1 h).1
  have hsplit := flatten_split h
  have hlen := congrArg List.length hsplit
  simp only [List.length_append] at hlen
  have hfirst : (ofList rows).offset i = (rows.take i).flatten.length := by
    rw [offset, getD_offsets_ofList rows (by omega), toInt32_ofNat_of_lt (by omega)]
    rfl
  have hnext : (ofList rows).offset (i + 1) = (rows.take i).flatten.length + row.length := by
    rw [offset, getD_offsets_ofList rows (by omega), length_take_succ h,
      toInt32_ofNat_of_lt (by omega)]
    rfl
  rw [Rows.row, hfirst, hnext, data_ofList, hsplit]
  simp

/-- The offsets of short rows cover them. -/
lemma covers_ofList (hne : rows ≠ []) (hsmall : rows.flatten.length < 2 ^ 31) :
    (ofList rows).Covers rows.length := by
  have htake : ∀ i, (rows.take i).flatten.length ≤ rows.flatten.length := by
    intro i
    have hsplit := congrArg (fun l => l.flatten.length) (List.take_append_drop i rows)
    simp only [List.flatten_append, List.length_append] at hsplit
    omega
  constructor
  · rw [offsets_ofList, if_neg hne]
    simp
  · rw [getD_offsets_ofList rows (Nat.zero_le _)]
    rfl
  · rw [getD_offsets_ofList rows le_rfl, List.take_length, toInt32_ofNat_of_lt hsmall, data_ofList,
      List.size_toArray]
  · intro i hi
    have hnext := length_take_succ (List.getElem?_eq_getElem hi)
    rw [getD_offsets_ofList rows hi.le, getD_offsets_ofList rows hi,
      toInt32_ofNat_of_lt ((htake i).trans_lt hsmall),
      toInt32_ofNat_of_lt ((htake (i + 1)).trans_lt hsmall), hnext]
    omega

/-- Each row has its length. -/
theorem length_ofList (hsmall : rows.flatten.length < 2 ^ 31) (h : rows[i]? = some row) :
    (ofList rows).length i = Int64.ofNat row.length := by
  have hi : i < rows.length := (List.getElem?_eq_some_iff.1 h).1
  rw [(covers_ofList (List.ne_nil_of_length_pos (by omega)) hsmall).length_eq hi, row_ofList hsmall h]

end Bounded

end Indicial.Rows
