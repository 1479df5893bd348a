import Indicial.Expr.Component
import Indicial.Proofs.Plan.IndexMap

/-!
# Component maps

A component map carries each position over one label order to the position of the same assignment over
another (`componentMap_eq_ok`). Its weights are powers of the dimension, and a position is the sum of
what each label contributes, in whichever order they come (`place_eq_sum`). Carrying positions over is
a permutation of them (`map_reindex_perm`), the identity for one order, and two such maps in a row are
one (`componentMap_reorders`).
-/

namespace Indicial

open Odometer

namespace Index

variable {D k k' : Nat} {source target : Index}

/-- The exponent of the weight that a label has over `target`. -/
def exponent (target : Index) (c : Label) : Nat := target.length - 1 - (position? target c).getD 0

/-- The first label has the highest exponent. -/
lemma exponent_head (c : Label) (target : Index) : exponent (c :: target) c = target.length := by
  simp [exponent, position?, List.findIdx?_cons]

/-- A label behind the first one keeps its exponent. -/
lemma exponent_tail {c d : Label} (hne : c ≠ d) (hd : d ∈ target) :
    exponent (c :: target) d = exponent target d := by
  obtain ⟨i, hi, -⟩ := exists_position hd
  have hnext : position? (c :: target) d = some (i + 1) := by
    rw [position?] at hi ⊢
    simp [List.findIdx?_cons, hne, hi]
  rw [exponent, exponent, hi, hnext, List.length_cons, Option.getD_some, Option.getD_some]
  omega

/-- A position adds up what each label contributes, in whichever order. -/
lemma place_eq_sum (hnodup : target.Nodup) (σ : Valuation) :
    place D (target.map σ) = (target.map fun c => σ c * D ^ exponent target c).sum := by
  induction target with
  | nil => rfl
  | cons c target ih =>
    obtain ⟨hc, htarget⟩ := List.nodup_cons.1 hnodup
    have htail : target.map (fun d => σ d * D ^ exponent (c :: target) d)
        = target.map fun d => σ d * D ^ exponent target d := by
      apply List.map_congr_left
      intro d hd
      have hne : c ≠ d := by
        rintro rfl
        exact hc hd
      rw [exponent_tail hne hd]
    rw [List.map_cons, place, List.length_map, ih htarget, List.map_cons, List.sum_cons,
      exponent_head, htail]

/-- The weight of a label is the power of the dimension at its place in the target. -/
lemma weights_eq (hsub : ∀ c ∈ source, c ∈ target) (hlen : target.length < 2 ^ 63) :
    weights (Int64.ofNat D) source target
      = source.map fun c => Int64.ofNat (D ^ exponent target c) := by
  apply List.map_congr_left
  intro c hc
  obtain ⟨i, hi, hget⟩ := exists_position (hsub c hc)
  have hlt := (List.getElem?_eq_some_iff.1 hget).1
  have hexponent : (target.length : Int) - 1 - position target c = (exponent target c : Nat) := by
    rw [position_eq hi, exponent, hi, Option.getD_some]
    omega
  rw [hexponent, Int64.ofInt_eq_ofNat]
  apply Layout.power_ofNat
  rw [exponent]
  omega

/-- The component map gives each position over `source` the slot of its position over `target`. -/
theorem componentMap_eq_ok (hD : 0 < D) (hword : D < 2 ^ 63) (hnodup : source.Nodup)
    (hperm : source.Perm target) (hlen : target.length < 2 ^ 63) (base : Nat) :
    componentMap source target (Int64.ofNat D) (Int64.ofNat base)
      = .ok ((List.range (D ^ source.length)).map fun q =>
        Int32.ofNat (base + reindex D source target q)) := by
  have hrun : Odometer.run source.length (Int64.ofNat D).toInt
      = .ok ((List.range (D ^ source.length)).map (digits D source.length)) := by
    rw [Odometer.run, Int64.toInt_ofNat_of_lt hword, if_pos (by omega), Int.toNat_natCast,
      visits_eq_map hD]
  have hslot : ∀ q, ((digits D source.length q).zipWith (fun v w => Int64.ofNat v * w)
        (weights (Int64.ofNat D) source target)).foldl (· + ·) (Int64.ofNat base)
      = Int64.ofNat (base + reindex D source target q) := by
    intro q
    -- The digits are the numbers of the labels in turn, so the products run over the labels.
    have hdigits : digits D source.length q
        = source.map (Valuation.ofDigits source (digits D source.length q)) :=
      (Valuation.map_ofDigits hnodup (length_digits ..)).symm
    have hterms : (digits D source.length q).zipWith (fun v w => Int64.ofNat v * w)
          (weights (Int64.ofNat D) source target)
        = (source.map fun c => Valuation.ofDigits source (digits D source.length q) c
          * D ^ exponent target c).map Int64.ofNat := by
      rw [weights_eq (fun c hc => hperm.mem_iff.1 hc) hlen]
      conv_lhs => rw [hdigits]
      rw [List.zipWith_map, List.zipWith_self, List.map_map]
      apply List.map_congr_left
      intro c _
      exact (Int64.ofNat_mul ..).symm
    rw [hterms, IndexMap.foldl_ofNat_add, (hperm.map _).sum_eq, reindex,
      place_eq_sum (hperm.nodup_iff.1 hnodup)]
  rw [componentMap, isPermutation_iff.2 hperm, hrun]
  simp only [Bool.not_true, Bool.false_eq_true, if_false, ok_bind, pure_eq_ok, List.map_map]
  congr 1
  apply List.map_congr_left
  intro q _
  rw [Function.comp_apply, hslot, Int64.toInt32_ofNat']

/-- The place of a component stays within the block. -/
lemma reindex_lt_of_perm (hD : 0 < D) (hperm : source.Perm target) (hk : k < D ^ source.length) :
    reindex D source target k < D ^ source.length := by
  rw [hperm.length_eq]
  exact reindex_lt hD hk

/-- Different positions stay different, as the way back tells them apart. -/
lemma eq_of_reindex_eq (hD : 0 < D) (hnodup : source.Nodup) (hperm : source.Perm target)
    (hk : k < D ^ source.length) (hk' : k' < D ^ source.length)
    (h : reindex D source target k = reindex D source target k') : k = k' := by
  rw [← reindex_reindex hnodup hperm hD hk, h, reindex_reindex hnodup hperm hD hk']

/-- Changing the label order permutes the positions. -/
lemma map_reindex_perm (hD : 0 < D) (hnodup : source.Nodup) (hperm : source.Perm target) :
    ((List.range (D ^ source.length)).map (reindex D source target)).Perm
      (List.range (D ^ source.length)) := by
  have hinjective : ((List.range (D ^ source.length)).map (reindex D source target)).Nodup :=
    List.nodup_range.map_on fun k hk k' hk' heq =>
      eq_of_reindex_eq hD hnodup hperm (List.mem_range.1 hk) (List.mem_range.1 hk') heq
  have hsub : (List.range (D ^ source.length)).map (reindex D source target)
      ⊆ List.range (D ^ source.length) := by
    intro m hm
    obtain ⟨k, hk, rfl⟩ := List.mem_map.1 hm
    exact List.mem_range.2 (reindex_lt_of_perm hD hperm (List.mem_range.1 hk))
  exact (hinjective.subperm hsub).perm_of_length_le (by simp)

/-! ### Reordering -/

section Reorder

variable {B : Nat} {third : Index}

/-- A change of label order followed by another one is the change from the first to the last order. -/
lemma reindex_trans (hD : 0 < D) (hnodup : source.Nodup) (hperm : source.Perm target)
    (hthird : target.Perm third) (hk : k < D ^ source.length) :
    reindex D target third (reindex D source target k) = reindex D source third k :=
  reindex_place (hperm.nodup_iff.1 hnodup)
    (fun c _ => Valuation.ofDigits_lt hD (digits_lt hk) c) fun _ hc => hthird.mem_iff.2 hc

/-- Labels are bytes, so there are not many of them in an index without repetition. -/
lemma length_lt_of_nodup (hnodup : source.Nodup) : source.length < 2 ^ 63 := by
  have hinjective : Function.Injective UInt8.toNat := fun _ _ => UInt8.toNat_inj.1
  have hsub : source.map UInt8.toNat ⊆ List.range 256 := by
    intro x hx
    obtain ⟨c, -, rfl⟩ := List.mem_map.1 hx
    exact List.mem_range.2 c.toNat_lt
  have hle := ((hnodup.map hinjective).subperm hsub).length_le
  rw [List.length_map, List.length_range] at hle
  omega

/-- The slots that a component map lists. -/
def slots (D B : Nat) (source target : Index) : List Int32 :=
  (List.range (D ^ source.length)).map fun q => Int32.ofNat (B + reindex D source target q)

/-- The map of a permutation lists the slots of the components in order. -/
lemma componentMap_eq_slots (hD : 0 < D) (hword : D < 2 ^ 63) (hnodup : source.Nodup)
    (hperm : source.Perm target) :
    componentMap source target (Int64.ofNat D) (Int64.ofNat B) = .ok (slots D B source target) :=
  componentMap_eq_ok hD hword hnodup hperm
    (hperm.length_eq ▸ length_lt_of_nodup hnodup) B

/-- The word of a slot has the slot as its value. -/
lemma toInt_slot (hD : 0 < D) (hperm : source.Perm target) (hfit : B + D ^ source.length ≤ 2 ^ 31)
    (hk : k < D ^ source.length) :
    (Int32.ofNat (B + reindex D source target k)).toInt = B + reindex D source target k := by
  have := reindex_lt_of_perm hD hperm hk
  rw [toInt32_ofNat_of_lt (by omega)]
  omega

/-- The slot of the component at place `k`. -/
lemma getElem?_slots (hk : k < D ^ source.length) :
    (slots D B source target)[k]? = some (Int32.ofNat (B + reindex D source target k)) := by
  rw [slots, List.getElem?_map, List.getElem?_range hk, Option.map_some]

/-- Different components have different slots. -/
lemma nodup_slots (hD : 0 < D) (hnodup : source.Nodup) (hperm : source.Perm target)
    (hfit : B + D ^ source.length ≤ 2 ^ 31) : (slots D B source target).Nodup := by
  refine List.nodup_range.map_on fun k hk k' hk' heq => ?_
  rw [List.mem_range] at hk hk'
  have hslot := congrArg Int32.toInt heq
  rw [toInt_slot hD hperm hfit hk, toInt_slot hD hperm hfit hk'] at hslot
  exact eq_of_reindex_eq hD hnodup hperm hk hk' (by omega)

/-- The slots are those of the block, and all of them. -/
lemma mem_slots (hD : 0 < D) (hnodup : source.Nodup) (hperm : source.Perm target)
    (hfit : B + D ^ source.length ≤ 2 ^ 31) {x : Int32} :
    x ∈ slots D B source target ↔ (B : Int) ≤ x.toInt ∧ x.toInt < (B + D ^ source.length : Nat) := by
  constructor
  · intro hx
    obtain ⟨k, hk, rfl⟩ := List.mem_map.1 hx
    rw [List.mem_range] at hk
    have := reindex_lt_of_perm hD hperm hk
    rw [toInt_slot hD hperm hfit hk]
    omega
  · rintro ⟨hlow, hhigh⟩
    have hm : x.toInt.toNat - B < D ^ source.length := by omega
    obtain ⟨k, hk, hreindex⟩ :=
      List.mem_map.1 ((map_reindex_perm hD hnodup hperm).mem_iff.2 (List.mem_range.2 hm))
    refine List.mem_map.2 ⟨k, hk, Int32.toInt_inj.1 ?_⟩
    rw [toInt_slot hD hperm hfit (List.mem_range.1 hk), hreindex]
    omega

/-- The map from `source` to `third` is that to `target` followed by that from `target`. -/
lemma slots_trans (hD : 0 < D) (hnodup : source.Nodup) (hperm : source.Perm target)
    (hthird : target.Perm third) (hfit : D ^ source.length ≤ 2 ^ 31) :
    (slots D B source third).map some
      = (slots D 0 source target).map fun x => (slots D B target third)[x.toInt.toNat]? := by
  simp only [slots, List.map_map]
  apply List.map_congr_left
  intro k hk
  rw [List.mem_range] at hk
  have hlt := reindex_lt_of_perm hD hperm hk
  have hslot := toInt_slot (B := 0) hD hperm (by omega) hk
  rw [Function.comp_apply, Function.comp_apply, hslot, ← slots, getElem?_slots]
  · rw [← reindex_trans hD hnodup hperm hthird hk]
    simp
  · rw [← hperm.length_eq]
    simpa using hlt

/-- A component map has an entry for every component. At the row-major position of an assignment over
`source` stands the slot at `B` plus the row-major position of the same assignment over `target`, so
the entries are the `D ^ rank` slots from `B` on, each of them once. The map of a label order to itself
is the identity, and maps from order to order compose. -/
theorem componentMap_reorders (hD : 1 ≤ D) (hword : D < 2 ^ 63) (hnodup : source.Nodup)
    (hperm : source.Perm target) (hfit : B + D ^ source.length ≤ 2 ^ 31) :
    ∃ entries, componentMap source target (Int64.ofNat D) (Int64.ofNat B) = .ok entries ∧
      entries.length = D ^ source.length ∧
      (∀ σ : Valuation, (∀ c ∈ source, σ c < D) →
        ∃ x, entries[place D (source.map σ)]? = some x ∧ x.toInt = B + place D (target.map σ)) ∧
      (entries.Nodup ∧
        ∀ x, x ∈ entries ↔ (B : Int) ≤ x.toInt ∧ x.toInt < (B + D ^ source.length : Nat)) ∧
      (∃ same, componentMap source source (Int64.ofNat D) 0 = .ok same ∧
        same.map Int32.toInt = (List.range (D ^ source.length)).map Int.ofNat) ∧
      ∀ third, target.Perm third → ∃ first second whole,
        componentMap source target (Int64.ofNat D) 0 = .ok first ∧
        componentMap target third (Int64.ofNat D) (Int64.ofNat B) = .ok second ∧
        componentMap source third (Int64.ofNat D) (Int64.ofNat B) = .ok whole ∧
        whole.map some = first.map fun x => second[x.toInt.toNat]? := by
  refine ⟨_, componentMap_eq_slots hD hword hnodup hperm, ?_, fun σ hσ => ?_,
    ⟨nodup_slots hD hnodup hperm hfit, fun x => mem_slots hD hnodup hperm hfit⟩,
    ⟨_, componentMap_eq_slots (B := 0) hD hword hnodup (.refl _), ?_⟩, fun third hthird =>
      ⟨_, _, _, componentMap_eq_slots hD hword hnodup hperm,
        componentMap_eq_slots hD hword (hperm.nodup_iff.1 hnodup) hthird,
        componentMap_eq_slots hD hword hnodup (hperm.trans hthird),
        slots_trans hD hnodup hperm hthird (by omega)⟩⟩
  · rw [slots, List.length_map, List.length_range]
  · -- The row-major place over `source` is led to the place of the same digits over `target`.
    have hk := place_map_lt hσ
    refine ⟨_, getElem?_slots hk, ?_⟩
    rw [toInt_slot hD hperm hfit hk, reindex_place hnodup hσ fun c hc => hperm.mem_iff.2 hc]
  · rw [slots, List.map_map]
    apply List.map_congr_left
    intro k hk
    rw [List.mem_range] at hk
    rw [Function.comp_apply, toInt_slot hD (.refl _) (by omega) hk, reindex_self hnodup hk]
    simp

/-- A rotation of three labels is not its own inverse. -/
theorem componentMap_reorders_rotation :
    ∃ entries, componentMap [105, 106, 107] [107, 105, 106] 2 5 = .ok entries ∧ entries.length = 8 ∧
      (∃ x, entries[3]? = some x ∧ x.toInt = 10) ∧ entries.Nodup := by
  obtain ⟨entries, hmap, hlength, hplace, ⟨hnodup, -⟩, -⟩ :=
    @componentMap_reorders 2 [105, 106, 107] [107, 105, 106] 5 (by decide) (by decide) (by decide)
      (isPermutation_iff.1 (by decide)) (by decide)
  have hdigits : ∀ c ∈ [105, 106, 107], (fun c : Label => if c = 105 then 0 else 1) c < 2 := by
    intro c _
    dsimp only
    split <;> decide
  obtain ⟨x, hx, hslot⟩ := hplace _ hdigits
  exact ⟨entries, hmap, hlength, ⟨x, hx, hslot⟩, hnodup⟩

end Reorder

end Index

end Indicial
