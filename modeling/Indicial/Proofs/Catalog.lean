import Indicial.Catalog
import Mathlib.Algebra.Group.Nat.Defs
import Mathlib.Data.List.Nodup
import Mathlib.Data.List.Sort

/-!
# Catalogs

A catalog made of references holds each of them once, in the table that it belongs to, and a reference
is found at its position in that table. Trees name references by words of 32 bits, which do so as long
as the tables have no more than `2 ^ 31` entries (`Resolves`).
-/

namespace Indicial.Catalog

variable {c : Catalog} {r : ScalarRef} {refs : List ScalarRef} {k : Nat}

/-- A table holds what it was made of. -/
lemma mem_table : r ∈ table refs ↔ r ∈ refs := by
  rw [table, (List.mergeSort_perm _ _).mem_iff, List.mem_eraseDups]

/-- A table holds nothing twice. -/
lemma nodup_table (refs : List ScalarRef) : (table refs).Nodup := by
  rw [table, (List.mergeSort_perm _ _).nodup_iff]
  induction hn : refs.length using Nat.strong_induction_on generalizing refs with
  | _ n ih =>
    cases refs with
    | nil => simp
    | cons r refs =>
      rw [List.eraseDups_cons, List.nodup_cons, List.mem_eraseDups]
      have hlen := List.length_filter_le (fun x => !x == r) refs
      refine ⟨by simp, ih _ ?_ _ rfl⟩
      rw [← hn, List.length_cons]
      omega

/-- A reference that was given is in its table. -/
lemma mem_tableOf_ofRefs : r ∈ (ofRefs refs).tableOf r ↔ r ∈ refs := by
  rw [tableOf, ofRefs]
  cases hr : r.constant <;> simp [mem_table, hr]

/-- The catalog of references has no others. -/
lemma mem_append_ofRefs :
    r ∈ (ofRefs refs).constants ++ (ofRefs refs).scalars ↔ r ∈ refs := by
  rw [ofRefs, List.mem_append, mem_table, mem_table, List.mem_filter, List.mem_filter]
  cases r.constant <;> simp

/-- The first table of a catalog holds constants. -/
lemma constant_of_mem_constants (h : r ∈ (ofRefs refs).constants) : r.constant = true := by
  rw [ofRefs, mem_table, List.mem_filter] at h
  exact h.2

/-- The second table of a catalog holds no constants. -/
lemma constant_of_mem_scalars (h : r ∈ (ofRefs refs).scalars) : r.constant = false := by
  rw [ofRefs, mem_table, List.mem_filter, Bool.not_eq_true'] at h
  exact h.2

/-- The tables of a catalog hold nothing twice. -/
lemma nodup_tableOf_ofRefs (r : ScalarRef) : ((ofRefs refs).tableOf r).Nodup := by
  rw [tableOf, ofRefs]
  split
  · exact nodup_table _
  · exact nodup_table _

/-- References of one table have that table in common. -/
lemma tableOf_eq_of_mem {r' : ScalarRef} (h : r' ∈ (ofRefs refs).tableOf r) :
    (ofRefs refs).tableOf r' = (ofRefs refs).tableOf r := by
  have hsort : r'.constant = r.constant := by
    rw [tableOf, ofRefs] at h
    cases hr : r.constant <;> simp_all [mem_table]
  rw [tableOf, tableOf, hsort]

/-- An id is the position of a reference in its table. -/
lemma lookup?_eq_some (h : c.lookup? r = some k) : (c.tableOf r)[k]? = some r := by
  obtain ⟨hk, hget, -⟩ := List.findIdx?_eq_some_iff_getElem.1 h
  rw [List.getElem?_eq_getElem hk, eq_of_beq hget]

/-- Ids are below the length of the table. -/
lemma lt_of_lookup? (h : c.lookup? r = some k) : k < (c.tableOf r).length :=
  (List.getElem?_eq_some_iff.1 (lookup?_eq_some h)).1

/-- A reference has an id exactly if it is found. -/
lemma id_eq_ok_iff : c.id r = .ok k ↔ c.lookup? r = some k := by
  rw [id]
  cases c.lookup? r <;> simp

/-- What is in the table is found. -/
lemma exists_lookup? (h : r ∈ c.tableOf r) : ∃ k, c.lookup? r = some k := by
  rw [← Option.isSome_iff_exists, lookup?, List.findIdx?_isSome, List.any_eq_true]
  exact ⟨r, h, by simp⟩

/-- The word names the reference: it is the position of the reference in its table, which can be read
back from the word as long as words can number the table. -/
def Resolves (c : Catalog) (r : ScalarRef) (id : Int32) : Prop :=
  ∃ k, (c.tableOf r)[k]? = some r ∧ id = Int32.ofNat k ∧
    ((c.tableOf r).length ≤ 2 ^ 31 → id.toInt = k)

/-- The word made of an id names the reference. -/
lemma resolves_of_lookup? (h : c.lookup? r = some k) : c.Resolves r (Int32.ofNat k) := by
  refine ⟨k, lookup?_eq_some h, rfl, fun hle => ?_⟩
  exact Int32.toInt_ofNat_of_lt ((lt_of_lookup? h).trans_le hle)

end Indicial.Catalog
