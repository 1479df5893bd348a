import Indicial.Proofs.Catalog
import Mathlib.Data.List.Lex
import Mathlib.Data.Prod.Lex

/-!
# The order of references

Coordinates are ordered by the number of their entries first, references by the serial number of the
tensor, then by component, then by directions. Both are lexicographic orders of a key
(`ScalarRef.less_iff`), and among references with equal flags the key tells them apart as long as serial
numbers tell tensors apart. So a table is the one list of its references in ascending order, and a
catalog depends only on which references it is made of (`ofRefs_canonical`).
-/

namespace Indicial

namespace Coord

variable {a b : Coord}

/-- What coordinates are ordered by. -/
def orderKey (c : Coord) : Nat ×ₗ List Nat := toLex (c.size, c.values.map UInt8.toNat)

/-- Coordinates are told apart by their keys. -/
lemma orderKey_injective : Function.Injective orderKey := by
  intro a b h
  have hvalues : a.values.map UInt8.toNat = b.values.map UInt8.toNat :=
    congrArg Prod.snd (toLex_inj.1 h)
  exact congrArg Coord.mk (List.map_injective_iff.2 (fun _ _ => UInt8.toNat_inj.1) hvalues)

/-- Entries are compared as lists of numbers, first differences first. -/
lemma lessEntries_iff {as bs : List UInt8} :
    lessEntries as bs = true ↔ as.map UInt8.toNat < bs.map UInt8.toNat := by
  induction as generalizing bs with
  | nil => cases bs <;> simp [lessEntries]
  | cons a as ih =>
    cases bs with
    | nil => simp [lessEntries]
    | cons b bs =>
      rw [List.map_cons, List.map_cons, List.cons_lt_cons_iff, ← ih, UInt8.toNat_inj, lessEntries,
        ← UInt8.lt_iff_toNat_lt]
      by_cases hab : a = b
      · subst hab
        simp
      · simp [hab]

/-- Coordinates are ordered by their keys. -/
lemma less_iff : a.less b = true ↔ a.orderKey < b.orderKey := by
  rw [less, orderKey, orderKey, Prod.Lex.toLex_lt_toLex]
  by_cases hsize : a.size = b.size
  · simp [hsize, lessEntries_iff]
  · simp [hsize]

end Coord

namespace ScalarRef

variable {a b : ScalarRef} {T : Set Tensor}

/-- What references are ordered by. -/
def orderKey (r : ScalarRef) : Nat ×ₗ (Nat ×ₗ List Nat) ×ₗ (Nat ×ₗ List Nat) :=
  toLex (r.tensor.serial, toLex (r.component.orderKey, r.derivs.orderKey))

/-- References are ordered by their keys, where serial numbers tell the tensors apart. -/
lemma less_iff (htensor : a.tensor.serial = b.tensor.serial → a.tensor = b.tensor) :
    a.less b = true ↔ a.orderKey < b.orderKey := by
  simp only [less, orderKey, Prod.Lex.toLex_lt_toLex]
  by_cases ht : a.tensor = b.tensor
  · by_cases hc : a.component = b.component
    · simp [ht, hc, Coord.less_iff]
    · have hkey : a.component.orderKey ≠ b.component.orderKey :=
        fun h => hc (Coord.orderKey_injective h)
      simp [ht, hc, hkey, Coord.less_iff]
  · have hserial : a.tensor.serial ≠ b.tensor.serial := fun h => ht (htensor h)
    simp [ht, hserial]

/-- The key tells references with equal flags apart. -/
lemma eq_of_orderKey_eq (htensor : a.tensor.serial = b.tensor.serial → a.tensor = b.tensor)
    (hflag : a.constant = b.constant) (h : a.orderKey = b.orderKey) : a = b := by
  obtain ⟨hserial, hrest⟩ := Prod.mk.inj (toLex_inj.1 h)
  obtain ⟨hcomponent, hderivs⟩ := Prod.mk.inj (toLex_inj.1 hrest)
  have ht := htensor hserial
  have hc := Coord.orderKey_injective hcomponent
  have hd := Coord.orderKey_injective hderivs
  cases a
  cases b
  simp_all

/-- References with equal flags are strictly and totally ordered, if serial numbers tell their tensors
apart. -/
lemma less_isStrictTotalOrder (hT : T.InjOn Tensor.serial) (flag : Bool) :
    IsStrictTotalOrder {r : ScalarRef // r.tensor ∈ T ∧ r.constant = flag}
      fun a b => a.1.less b.1 = true where
  irrefl a h := lt_irrefl _ ((less_iff fun _ => rfl).1 h)
  trans a b c hab hbc := by
    rw [less_iff (hT a.2.1 b.2.1)] at hab
    rw [less_iff (hT b.2.1 c.2.1)] at hbc
    exact (less_iff (hT a.2.1 c.2.1)).2 (hab.trans hbc)
  trichotomous a b hab hba := by
    rw [less_iff (hT a.2.1 b.2.1), not_lt] at hab
    rw [less_iff (hT b.2.1 a.2.1), not_lt] at hba
    have hkey : a.1.orderKey = b.1.orderKey := le_antisymm hba hab
    exact Subtype.ext (eq_of_orderKey_eq (hT a.2.1 b.2.1) (a.2.2.trans b.2.2.symm) hkey)

end ScalarRef

namespace Catalog

variable {c : Catalog} {r : ScalarRef} {refs refs' : List ScalarRef} {k : Nat} {T : Set Tensor}
  {flag : Bool}

/-- A table is strictly ascending. -/
lemma pairwise_table (hT : T.InjOn Tensor.serial) (hrefs : ∀ r ∈ refs, r.tensor ∈ T)
    (hflag : ∀ r ∈ refs, r.constant = flag) :
    (table refs).Pairwise fun a b => a.less b = true := by
  have hless : ∀ a ∈ refs, ∀ b ∈ refs, (a.less b = true ↔ a.orderKey < b.orderKey) :=
    fun a ha b hb => ScalarRef.less_iff (hT (hrefs a ha) (hrefs b hb))
  -- Sorting by the order is sorting by the keys.
  have hkeys : (table refs).map ScalarRef.orderKey
      = (refs.eraseDups.map ScalarRef.orderKey).mergeSort fun x y => decide (x ≤ y) := by
    apply List.map_mergeSort
    intro a ha b hb
    rw [List.mem_eraseDups] at ha hb
    rw [Bool.eq_iff_iff, decide_eq_true_eq, ← not_lt, ← hless b hb a ha, Bool.not_eq_true',
      Bool.not_eq_true]
  have hle : (table refs).Pairwise fun a b => a.orderKey ≤ b.orderKey := by
    rw [← List.pairwise_map, hkeys]
    exact List.pairwise_mergeSort' (· ≤ ·) _
  refine (hle.and (nodup_table refs)).imp_of_mem fun {a b} ha hb ⟨hab, hne⟩ => ?_
  rw [mem_table] at ha hb
  have hkey : a.orderKey ≠ b.orderKey := fun h => hne <|
    ScalarRef.eq_of_orderKey_eq (hT (hrefs a ha) (hrefs b hb)) ((hflag a ha).trans (hflag b hb).symm) h
  exact (hless a ha b hb).2 (lt_of_le_of_ne hab hkey)

/-- A table depends only on which references it is made of. -/
lemma table_congr (hT : T.InjOn Tensor.serial) (hrefs : ∀ r ∈ refs, r.tensor ∈ T)
    (hflag : ∀ r ∈ refs, r.constant = flag) (h : ∀ r, r ∈ refs' ↔ r ∈ refs) :
    table refs' = table refs := by
  have hperm : (table refs').Perm (table refs) :=
    (List.perm_ext_iff_of_nodup (nodup_table _) (nodup_table _)).2 fun r => by
      rw [mem_table, mem_table, h]
  have hsorted := pairwise_table hT hrefs hflag
  have hsorted' := pairwise_table hT (fun r hr => hrefs r ((h r).1 hr))
    fun r hr => hflag r ((h r).1 hr)
  refine hperm.eq_of_pairwise (fun a b ha hb hab hba => ?_) hsorted' hsorted
  rw [mem_table] at ha hb
  have ha' := hrefs a ((h a).1 ha)
  rw [ScalarRef.less_iff (hT ha' (hrefs b hb))] at hab
  rw [ScalarRef.less_iff (hT (hrefs b hb) ha')] at hba
  exact absurd hba hab.asymm

/-- In a table without repetition a reference is found at its only place. -/
lemma lookup?_eq_some_iff (h : (c.tableOf r).Nodup) :
    c.lookup? r = some k ↔ (c.tableOf r)[k]? = some r := by
  refine ⟨lookup?_eq_some, fun hk => ?_⟩
  obtain ⟨j, hj⟩ := exists_lookup? (List.mem_of_getElem? hk)
  have hget := lookup?_eq_some hj
  have hjk : j = k :=
    (List.getElem?_inj (List.getElem?_eq_some_iff.1 hget).1 h).1 (hget.trans hk.symm)
  rw [hj, hjk]

/-- When serial numbers tell the tensors apart, references with equal flags are strictly and totally
ordered, and a catalog holds each of its references once, in the table of its flag and in ascending
order. It is the same for every list of these references, whatever their order and however often they
are repeated. A reference is found at its place in its table, and only one that was not given is
missing. -/
theorem ofRefs_canonical (hT : T.InjOn Tensor.serial) (hrefs : ∀ r ∈ refs, r.tensor ∈ T) :
    (∀ flag, IsStrictTotalOrder {r : ScalarRef // r.tensor ∈ T ∧ r.constant = flag}
        fun a b => a.1.less b.1 = true) ∧
      ((ofRefs refs).constants.Pairwise (fun a b => a.less b = true) ∧
        (ofRefs refs).scalars.Pairwise fun a b => a.less b = true) ∧
      (∀ r, (r ∈ (ofRefs refs).constants ↔ r ∈ refs ∧ r.constant = true) ∧
        (r ∈ (ofRefs refs).scalars ↔ r ∈ refs ∧ r.constant = false)) ∧
      (∀ refs', (∀ r, r ∈ refs' ↔ r ∈ refs) → ofRefs refs' = ofRefs refs) ∧
      (∀ r k, (ofRefs refs).lookup? r = some k ↔ ((ofRefs refs).tableOf r)[k]? = some r) ∧
      (∀ r ∈ refs, ∃ k, (ofRefs refs).lookup? r = some k ∧ (ofRefs refs).id r = .ok k) ∧
      ∀ r ∉ refs, (ofRefs refs).lookup? r = none ∧
        (ofRefs refs).id r = .error (.missingScalar r.key) := by
  have hconstants : ∀ r ∈ refs.filter (·.constant), r.tensor ∈ T ∧ r.constant = true := by
    intro r hr
    obtain ⟨hmem, hflag⟩ := List.mem_filter.1 hr
    exact ⟨hrefs r hmem, hflag⟩
  have hscalars : ∀ r ∈ refs.filter (!·.constant), r.tensor ∈ T ∧ r.constant = false := by
    intro r hr
    obtain ⟨hmem, hflag⟩ := List.mem_filter.1 hr
    exact ⟨hrefs r hmem, by simpa using hflag⟩
  refine ⟨ScalarRef.less_isStrictTotalOrder hT, ⟨?_, ?_⟩, fun r => ⟨?_, ?_⟩, fun refs' h => ?_,
    fun r k => lookup?_eq_some_iff (nodup_tableOf_ofRefs r), fun r hr => ?_, fun r hr => ?_⟩
  · exact pairwise_table hT (fun r hr => (hconstants r hr).1) fun r hr => (hconstants r hr).2
  · exact pairwise_table hT (fun r hr => (hscalars r hr).1) fun r hr => (hscalars r hr).2
  · rw [ofRefs, mem_table, List.mem_filter]
  · rw [ofRefs, mem_table, List.mem_filter, Bool.not_eq_true']
  · -- A table is sorted and free of repetition, so its members determine it.
    have hfirst : table (refs'.filter (·.constant)) = table (refs.filter (·.constant)) :=
      table_congr hT (fun r hr => (hconstants r hr).1) (fun r hr => (hconstants r hr).2)
        fun r => by rw [List.mem_filter, List.mem_filter, h]
    have hsecond : table (refs'.filter (!·.constant)) = table (refs.filter (!·.constant)) :=
      table_congr hT (fun r hr => (hscalars r hr).1) (fun r hr => (hscalars r hr).2)
        fun r => by rw [List.mem_filter, List.mem_filter, h]
    rw [ofRefs, ofRefs, hfirst, hsecond]
  · obtain ⟨k, hk⟩ := exists_lookup? (mem_tableOf_ofRefs.2 hr)
    exact ⟨k, hk, id_eq_ok_iff.2 hk⟩
  · have hnone : (ofRefs refs).lookup? r = none := by
      rw [Option.eq_none_iff_forall_ne_some]
      intro k hk
      exact hr (mem_tableOf_ofRefs.1 (List.mem_of_getElem? (lookup?_eq_some hk)))
    exact ⟨hnone, by rw [id, hnone]⟩

/-- Neither order nor repetition of the references counts, and a reference that is missing has no id. -/
theorem ofRefs_canonical_repeated :
    let a : ScalarRef := ⟨⟨Bytes.ofString "a", 0, 0⟩, ⟨[]⟩, ⟨[]⟩, true⟩
    let v (i : UInt8) (along : List UInt8) : ScalarRef :=
      ⟨⟨Bytes.ofString "v", 1, 1⟩, ⟨[i]⟩, ⟨along⟩, false⟩
    let c := ofRefs [v 1 [], a, v 0 [1], v 0 [], v 1 []]
    c = ofRefs [a, v 0 [], v 0 [1], v 1 []] ∧ c.lookup? (v 0 [1]) = some 1 ∧
      c.id (v 2 []) = .error (.missingScalar (Bytes.ofString "v[2]")) := by
  intro a v c
  have hT : Set.InjOn Tensor.serial {a.tensor, (v 0 []).tensor} := by
    rintro s (rfl | rfl) t (rfl | rfl) h <;> first | rfl | cases h
  have hrefs : ∀ r ∈ [v 1 [], a, v 0 [1], v 0 [], v 1 []],
      r.tensor ∈ ({a.tensor, (v 0 []).tensor} : Set Tensor) := by
    simp [v]
  obtain ⟨-, -, -, hsame, hlookup, -, hmissing⟩ := ofRefs_canonical hT hrefs
  have hc : c = ofRefs [a, v 0 [], v 0 [1], v 1 []] := by
    refine (hsame _ fun r => ?_).symm
    simp only [List.mem_cons, List.not_mem_nil, or_false]
    tauto
  -- In the second list the scalars are in ascending order, and sorting leaves them alone.
  have hscalars : c.scalars = [v 0 [], v 0 [1], v 1 []] := by
    have hkept : ([a, v 0 [], v 0 [1], v 1 []].filter (!·.constant)).eraseDups
        = [v 0 [], v 0 [1], v 1 []] := by decide
    rw [hc, ofRefs]
    dsimp only
    rw [table, hkept]
    exact List.mergeSort_of_pairwise (by decide)
  exact ⟨hc, (hlookup _ 1).2 (congrArg (·[1]?) hscalars), (hmissing _ (by decide)).2⟩

end Catalog

end Indicial
