import Indicial.Odometer
import Mathlib.Algebra.BigOperators.Group.List.Basic
import Mathlib.Data.List.Nodup
import Mathlib.Data.List.Range
import Mathlib.Tactic.Ring

/-!
# Row-major positions

A digit list has a position in row-major order, `place`, and every position below `radix ^ count` has
a digit list, `digits`. The two undo each other, and stepping an odometer raises the position by one.
So `visits` lists the digit lists by their positions (`visits_eq_map`), and it splits by the first
digit (`visits_succ`), which is how sums over several labels are taken apart.
-/

namespace Indicial.Odometer

/-- The row-major position of a digit list. -/
def place (radix : Nat) : List Nat → Nat
  | [] => 0
  | d :: ds => d * radix ^ ds.length + place radix ds

/-- The digit list at a row-major position. -/
def digits (radix : Nat) : (count : Nat) → (m : Nat) → List Nat
  | 0, _ => []
  | count + 1, m => m / radix ^ count :: digits radix count (m % radix ^ count)

/-- There are as many digits as asked for. -/
@[simp] lemma length_digits (radix count m : Nat) : (digits radix count m).length = count := by
  induction count generalizing m with
  | zero => rfl
  | succ count ih => simp [digits, ih]

/-- The position of a digit list is below the number of lists of its length. -/
lemma place_lt {radix : Nat} {ds : List Nat} (h : ∀ d ∈ ds, d < radix) :
    place radix ds < radix ^ ds.length := by
  induction ds with
  | nil => simp [place]
  | cons d ds ih =>
    have hd : d + 1 ≤ radix := h d (by simp)
    have hds := ih fun x hx => h x (by simp [hx])
    calc place radix (d :: ds)
      _ < d * radix ^ ds.length + radix ^ ds.length := by simp only [place]; omega
      _ = (d + 1) * radix ^ ds.length := by ring
      _ ≤ radix * radix ^ ds.length := Nat.mul_le_mul_right _ hd
      _ = radix ^ (d :: ds).length := by simp [pow_succ, mul_comm]

/-- The digits of a position are below the radix. -/
lemma digits_lt {radix count m : Nat} (h : m < radix ^ count) :
    ∀ d ∈ digits radix count m, d < radix := by
  induction count generalizing m with
  | zero => simp [digits]
  | succ count ih =>
    intro d hd
    have hpos : 0 < radix ^ count := by
      rcases Nat.eq_zero_or_pos (radix ^ count) with h0 | h0
      · rw [pow_succ, h0] at h
        omega
      · exact h0
    simp only [digits, List.mem_cons] at hd
    rcases hd with rfl | hd
    · exact (Nat.div_lt_iff_lt_mul hpos).2 (by rwa [pow_succ, mul_comm] at h)
    · exact ih (Nat.mod_lt _ hpos) d hd

/-- The digits of a position have that position. -/
lemma place_digits {radix count m : Nat} (h : m < radix ^ count) :
    place radix (digits radix count m) = m := by
  induction count generalizing m with
  | zero =>
    simp only [pow_zero] at h
    simp only [digits, place]
    omega
  | succ count ih =>
    have hpos : 0 < radix ^ count := by
      rcases Nat.eq_zero_or_pos (radix ^ count) with h0 | h0
      · rw [pow_succ, h0] at h
        omega
      · exact h0
    simp only [digits, place, length_digits, ih (Nat.mod_lt m hpos)]
    rw [mul_comm]
    exact Nat.div_add_mod m _

/-- A digit list is found at its position. -/
lemma digits_place {radix : Nat} {ds : List Nat} (h : ∀ d ∈ ds, d < radix) :
    digits radix ds.length (place radix ds) = ds := by
  induction ds with
  | nil => rfl
  | cons d ds ih =>
    have hds : ∀ x ∈ ds, x < radix := fun x hx => h x (by simp [hx])
    have hlt := place_lt hds
    have hdiv : (d * radix ^ ds.length + place radix ds) / radix ^ ds.length = d := by
      rw [mul_comm, Nat.mul_add_div (by omega), Nat.div_eq_of_lt hlt, add_zero]
    have hmod : (d * radix ^ ds.length + place radix ds) % radix ^ ds.length = place radix ds := by
      rw [mul_comm, Nat.mul_add_mod, Nat.mod_eq_of_lt hlt]
    simp only [List.length_cons, digits, place, hdiv, hmod, ih hds]

section Assigned

variable {β : Type} {radix : Nat} {cs : List β} {σ : β → Nat}

/-- Numbers below the radix have a place below the power of the radix. -/
lemma place_map_lt (h : ∀ c ∈ cs, σ c < radix) : place radix (cs.map σ) < radix ^ cs.length := by
  simpa using place_lt (List.forall_mem_map.2 h)

/-- The digits of the place of some numbers are these numbers. -/
lemma digits_place_map (h : ∀ c ∈ cs, σ c < radix) :
    digits radix cs.length (place radix (cs.map σ)) = cs.map σ := by
  simpa using digits_place (List.forall_mem_map.2 h)

end Assigned

/-- A digit at the end is the least one. -/
lemma place_concat (radix d : Nat) (ds : List Nat) :
    place radix (ds ++ [d]) = place radix ds * radix + d := by
  induction ds with
  | nil => simp [place]
  | cons x ds ih =>
    simp only [List.cons_append, place, ih, List.length_append, List.length_singleton]
    ring

/-- The last digit is the remainder by the radix. -/
lemma digits_concat {radix count m : Nat} (h : m < radix ^ (count + 1)) :
    digits radix (count + 1) m = digits radix count (m / radix) ++ [m % radix] := by
  have hpos : 0 < radix := by
    rcases Nat.eq_zero_or_pos radix with h0 | h0
    · simp [h0] at h
    · exact h0
  have hlt : m / radix < radix ^ count := Nat.div_lt_of_lt_mul (by rwa [pow_succ, mul_comm] at h)
  have hdigits : ∀ d ∈ digits radix count (m / radix) ++ [m % radix], d < radix := by
    intro d hd
    rcases List.mem_append.1 hd with hd | hd
    · exact digits_lt hlt d hd
    · rw [List.mem_singleton.1 hd]
      exact Nat.mod_lt m hpos
  have hplace : place radix (digits radix count (m / radix) ++ [m % radix]) = m := by
    rw [place_concat, place_digits hlt]
    exact Nat.div_add_mod' m radix
  have hback := digits_place hdigits
  rwa [hplace, List.length_append, length_digits, List.length_singleton] at hback

/-- The digit list of zeros is the first. -/
lemma place_zeros (radix : Nat) (ds : List Nat) : place radix (ds.map fun _ => 0) = 0 := by
  induction ds with
  | nil => rfl
  | cons d ds ih => simpa only [List.map_cons, place, zero_mul, zero_add] using ih

/-- A step raises the position by one, and there is none only from the last position. -/
lemma place_next {radix : Nat} {ds : List Nat} (h : ∀ d ∈ ds, d < radix) :
    match next radix ds with
    | some ds' => ds'.length = ds.length ∧ (∀ d ∈ ds', d < radix) ∧
        place radix ds' = place radix ds + 1
    | none => place radix ds + 1 = radix ^ ds.length := by
  -- The digits behind either step by themselves or are all at their last, and then they start again
  -- and this one steps.
  induction ds with
  | nil => simp [next, place]
  | cons d ds ih =>
    have hd : d < radix := h d (by simp)
    have hds := ih fun x hx => h x (by simp [hx])
    simp only [next]
    cases hn : next radix ds with
    | some ds' =>
      rw [hn] at hds
      obtain ⟨hlen, hlt, hplace⟩ := hds
      refine ⟨by simp [hlen], ?_, ?_⟩
      · intro x hx
        rcases List.mem_cons.1 hx with rfl | hx
        · exact hd
        · exact hlt x hx
      · simp only [place, hlen, hplace]
        omega
    | none =>
      rw [hn] at hds
      by_cases hlast : d + 1 < radix
      · simp only [hlast, if_true]
        refine ⟨by simp, ?_, ?_⟩
        · intro x hx
          rcases List.mem_cons.1 hx with rfl | hx
          · exact hlast
          · obtain ⟨_, _, rfl⟩ := List.mem_map.1 hx
            omega
        · have hcarry : (d + 1) * radix ^ ds.length
              = d * radix ^ ds.length + radix ^ ds.length := by ring
          simp only [place, place_zeros, List.length_map, hcarry]
          omega
      · simp only [hlast, if_false, place, List.length_cons]
        have hr : radix = d + 1 := by omega
        have htop : radix ^ (ds.length + 1) = d * radix ^ ds.length + radix ^ ds.length := by
          rw [pow_succ]
          nth_rewrite 2 [hr]
          ring
        omega

/-- Visiting from a digit list on lists the positions from its own on. -/
lemma visitsFrom_eq_map {radix fuel : Nat} {ds : List Nat} (h : ∀ d ∈ ds, d < radix)
    (hfuel : place radix ds + fuel ≤ radix ^ ds.length) :
    visitsFrom radix fuel ds
      = (List.range fuel).map fun i => digits radix ds.length (place radix ds + i) := by
  induction fuel generalizing ds with
  | zero => rfl
  | succ fuel ih =>
    rw [List.range_succ_eq_map]
    simp only [visitsFrom, List.map_cons, List.map_map, add_zero, digits_place h]
    congr 1
    have hstep := place_next h
    cases hn : next radix ds with
    | some ds' =>
      rw [hn] at hstep
      obtain ⟨hlen, hlt, hplace⟩ := hstep
      simp only
      rw [ih hlt (by rw [hplace, hlen]; omega), hlen, hplace]
      apply List.map_congr_left
      intro i _
      simp only [Function.comp]
      congr 1
      omega
    | none =>
      rw [hn] at hstep
      have hzero : fuel = 0 := by omega
      simp [hzero]

/-- The digit lists in the order of their positions. -/
theorem visits_eq_map {radix : Nat} (h : 0 < radix) (count : Nat) :
    visits count radix = (List.range (radix ^ count)).map (digits radix count) := by
  have hzeros : ∀ d ∈ List.replicate count 0, d < radix := by
    intro d hd
    rw [List.eq_of_mem_replicate hd]
    exact h
  have hplace : place radix (List.replicate count 0) = 0 := by
    have := place_zeros radix (List.replicate count 0)
    rwa [List.map_replicate] at this
  have hfrom := @visitsFrom_eq_map radix (radix ^ count) _ hzeros (by simp [hplace])
  simpa [visits, hplace] using hfrom

/-- The odometer visits as many lists as the power of the radix. -/
lemma length_visits {radix : Nat} (h : 0 < radix) (count : Nat) :
    (visits count radix).length = radix ^ count := by
  simp [visits_eq_map h]

/-- Without digits there is one visit. -/
lemma visits_zero (radix : Nat) : visits 0 radix = [[]] := by
  simp [visits, visitsFrom, next]

/-- The digits of `m` are visited at step `m`. -/
lemma getElem?_visits {radix count m : Nat} (h : 0 < radix) (hm : m < radix ^ count) :
    (visits count radix)[m]? = some (digits radix count m) := by
  simp [visits_eq_map h, hm]

/-- No list of digits is visited twice. -/
lemma nodup_visits {radix : Nat} (h : 0 < radix) (count : Nat) : (visits count radix).Nodup := by
  rw [visits_eq_map h]
  refine List.Nodup.map_on (fun x hx y hy hxy => ?_) List.nodup_range
  rw [← place_digits (List.mem_range.1 hx), hxy, place_digits (List.mem_range.1 hy)]

/-- Exactly the lists of digits below the radix are visited. -/
lemma mem_visits {radix count : Nat} (h : 0 < radix) {ds : List Nat} :
    ds ∈ visits count radix ↔ ds.length = count ∧ ∀ d ∈ ds, d < radix := by
  rw [visits_eq_map h]
  constructor
  · intro hmem
    obtain ⟨m, hm, rfl⟩ := List.mem_map.1 hmem
    exact ⟨length_digits .., digits_lt (List.mem_range.1 hm)⟩
  · rintro ⟨rfl, hlt⟩
    exact List.mem_map.2 ⟨place radix ds, List.mem_range.2 (place_lt hlt), digits_place hlt⟩

/-- The numbers below a product, block by block. -/
lemma range_mul (a b : Nat) :
    List.range (a * b) = (List.range a).flatMap fun d => (List.range b).map fun i => d * b + i := by
  induction a with
  | zero => simp
  | succ a ih => rw [Nat.succ_mul, List.range_add, List.range_succ, List.flatMap_append, ih]; simp

/-- The visits split by their first digit. -/
theorem visits_succ {radix : Nat} (h : 0 < radix) (count : Nat) :
    visits (count + 1) radix
      = (List.range radix).flatMap fun d => (visits count radix).map (d :: ·) := by
  rw [visits_eq_map h, visits_eq_map h, pow_succ, mul_comm, range_mul, List.map_flatMap]
  congr 1
  funext d
  rw [List.map_map, List.map_map]
  apply List.map_congr_left
  intro i hi
  have hlt := List.mem_range.1 hi
  simp only [Function.comp, digits]
  rw [mul_comm d, Nat.mul_add_div (by omega), Nat.div_eq_of_lt hlt, Nat.mul_add_mod,
    Nat.mod_eq_of_lt hlt, add_zero]

end Indicial.Odometer
