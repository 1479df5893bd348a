import Indicial.Proofs.Odometer
import Mathlib.Data.List.Lex

/-!
# Counting in place

An odometer that is stepped in place is its digits and a mark that it has fallen off the front
(`State`). A step carries from the last digit towards the front (`State.carry`), and a loop that
visits the digits and steps until the mark is set is `Enumerates`, without a bound on its rounds.
Counting takes no digit past the radix, so a word that has room for the radix has room for the digits.

The carry does what `next` does (`carry_eq_next`), so a step leads from the digits of one number to
those of the next, and off the front from the last (`step_digits`). From there the loop ends, having
visited the digits of the numbers below `radix ^ count` in order (`enumerates_digits`), which is the
lexicographic order of the digit lists (`digits_lt_digits`).
-/

namespace Indicial.Odometer

/-- An odometer between two steps: the digits it shows, and whether it has fallen off the front. -/
structure State where
  digits : List Nat
  done : Bool

/-- All digits are zero at first. -/
def State.initial (count : Nat) : State := ⟨List.replicate count 0, false⟩

/-- The carry into the first `i` digits, from the last of them on. A digit grows by one and stays if
it is below the radix; otherwise it becomes zero and the carry goes on in front of it. -/
def State.carry (radix : Nat) : (i : Nat) → State → State
  | 0, s => { s with done := true }
  | i + 1, s =>
    let d := s.digits.getD i 0 + 1
    if d < radix then { s with digits := s.digits.set i d }
    else State.carry radix i { s with digits := s.digits.set i 0 }

/-- One step of the odometer: the last digit is carried. -/
def State.step (radix : Nat) (s : State) : State := carry radix s.digits.length s

/-- The loop that visits the digits and steps, as long as the odometer has not fallen off the front:
from a state it ends, after finitely many rounds, having visited `vs`. -/
inductive Enumerates (radix : Nat) : State → (vs : List (List Nat)) → Prop
  | done {s} (h : s.done = true) : Enumerates radix s []
  | visit {s vs} (h : s.done = false) (rest : Enumerates radix (s.step radix) vs) :
      Enumerates radix s (s.digits :: vs)

/-- An odometer enumerates one list of visits. -/
lemma Enumerates.unique {radix : Nat} {s : State} {vs ws : List (List Nat)}
    (h : Enumerates radix s vs) (h' : Enumerates radix s ws) : vs = ws := by
  induction h generalizing ws with
  | done hs =>
    cases h' with
    | done => rfl
    | visit hs' => simp [hs] at hs'
  | visit hs _ ih =>
    cases h' with
    | done hs' => simp [hs] at hs'
    | visit _ rest => rw [ih rest]

/-! ### A step -/

/-- The last digit grows, or it becomes zero and the digits in front of it step. -/
lemma next_concat (radix : Nat) (ds : List Nat) (d : Nat) :
    next radix (ds ++ [d])
      = if d + 1 < radix then some (ds ++ [d + 1]) else (next radix ds).map (· ++ [0]) := by
  induction ds with
  | nil => rfl
  | cons x ds ih =>
    rw [List.cons_append, next, ih]
    by_cases hd : d + 1 < radix
    · simp [hd]
    · simp only [if_neg hd, next]
      cases next radix ds with
      | some ds' => simp
      | none => by_cases hx : x + 1 < radix <;> simp [hx]

/-- The carry into the first digits is a step of these, and leaves those behind them alone. When none
of them can grow they are all zero, and the odometer has fallen off the front. -/
lemma carry_eq_next (radix : Nat) (ds rest : List Nat) (b : Bool) :
    State.carry radix ds.length ⟨ds ++ rest, b⟩ = match next radix ds with
      | some ds' => ⟨ds' ++ rest, b⟩
      | none => ⟨ds.map (fun _ => 0) ++ rest, true⟩ := by
  -- the carry starts at the last digit, so the digits are taken from the back
  induction ds using List.reverseRecOn generalizing rest with
  | nil => rfl
  | append_singleton ds d ih =>
    have hget : (ds ++ [d] ++ rest).getD ds.length 0 = d := by simp
    have hset : ∀ x, (ds ++ [d] ++ rest).set ds.length x = ds ++ (x :: rest) := by simp
    rw [List.length_append, List.length_singleton, State.carry, next_concat]
    simp only [hget, hset]
    by_cases hd : d + 1 < radix
    · simp [hd]
    · rw [if_neg hd, if_neg hd, ih]
      cases next radix ds with
      | some ds' => simp
      | none => simp

/-- A step leads to the digits of the next number, and from the last number off the front. -/
lemma step_digits {radix count m : Nat} (hm : m < radix ^ count) :
    State.step radix ⟨digits radix count m, false⟩
      = if m + 1 < radix ^ count then ⟨digits radix count (m + 1), false⟩
        else ⟨List.replicate count 0, true⟩ := by
  have hcarry := carry_eq_next radix (digits radix count m) [] false
  have hstep := place_next (digits_lt hm)
  simp only [List.append_nil] at hcarry
  rw [State.step, hcarry]
  cases hn : next radix (digits radix count m) with
  | some ds' =>
    rw [hn, place_digits hm, length_digits] at hstep
    obtain ⟨hlen, hlt, hplace⟩ := hstep
    have hbelow : m + 1 < radix ^ count := by
      rw [← hplace, ← hlen]
      exact place_lt hlt
    have hds' : digits radix count (m + 1) = ds' := by
      rw [← hplace, ← hlen]
      exact digits_place hlt
    rw [if_pos hbelow, hds']
  | none =>
    rw [hn, place_digits hm, length_digits] at hstep
    simp [hstep]

/-! ### The whole count -/

section Count

variable {radix count : Nat}

/-- The first number has the digits the odometer starts with. -/
lemma digits_zero (radix count : Nat) : digits radix count 0 = List.replicate count 0 := by
  induction count with
  | zero => rfl
  | succ count ih => simp [digits, ih, List.replicate_succ]

/-- From the digits of a number on, the loop visits those of the numbers that are left. -/
lemma enumerates_digits {m left : Nat} (hleft : m + (left + 1) = radix ^ count) :
    Enumerates radix ⟨digits radix count m, false⟩
      ((List.range' m (left + 1)).map (digits radix count)) := by
  have hm : m < radix ^ count := by omega
  induction left generalizing m with
  | zero =>
    have hstep := step_digits hm
    rw [if_neg (by omega)] at hstep
    exact .visit rfl (.done (congrArg State.done hstep))
  | succ left ih =>
    have hstep := step_digits hm
    rw [if_pos (by omega)] at hstep
    rw [List.range'_succ, List.map_cons]
    exact .visit rfl (hstep ▸ ih (by omega) (by omega))

/-- The loop ends, having visited the digit lists that `visits` has, and in no other way. -/
theorem enumerates_iff (h : 0 < radix) {vs : List (List Nat)} :
    Enumerates radix (.initial count) vs ↔ vs = visits count radix := by
  have hpos : 0 < radix ^ count := Nat.pow_pos h
  have hleft : 0 + (radix ^ count - 1 + 1) = radix ^ count := by omega
  have hall := enumerates_digits hleft
  rw [Nat.sub_add_cancel hpos, ← List.range_eq_range', ← visits_eq_map h, digits_zero] at hall
  exact ⟨fun hvs => hvs.unique hall, fun hvs => hvs ▸ hall⟩

/-- The digits of a number, each by its weight, the greatest weight first. -/
lemma digits_eq_map {m : Nat} (h : m < radix ^ count) :
    digits radix count m = (List.range count).map fun i => m / radix ^ (count - 1 - i) % radix := by
  induction count generalizing m with
  | zero => rfl
  | succ count ih =>
    have hlt : m / radix < radix ^ count := Nat.div_lt_of_lt_mul (by rwa [pow_succ'] at h)
    rw [digits_concat h, ih hlt, List.range_succ, List.map_append]
    congr 1
    · apply List.map_congr_left
      intro i hi
      have hexp : count - 1 - i + 1 = count + 1 - 1 - i := by
        have := List.mem_range.1 hi
        omega
      rw [Nat.div_div_eq_div_mul, ← pow_succ', hexp]
    · simp

/-- Digit lists are in lexicographic order as their numbers are. -/
lemma digits_lt_digits (h : 0 < radix) {m m' : Nat} (hlt : m < m') (hm' : m' < radix ^ count) :
    digits radix count m < digits radix count m' := by
  induction count generalizing m m' with
  | zero =>
    rw [pow_zero] at hm'
    omega
  | succ count ih =>
    have hpos : 0 < radix ^ count := Nat.pow_pos h
    have hle : m / radix ^ count ≤ m' / radix ^ count := Nat.div_le_div_right hlt.le
    simp only [digits, List.cons_lt_cons_iff]
    rcases hle.lt_or_eq with hq | hq
    · exact .inl hq
    · have hdiv := Nat.div_add_mod m (radix ^ count)
      have hdiv' := Nat.div_add_mod m' (radix ^ count)
      rw [hq] at hdiv
      exact .inr ⟨hq, ih (by omega) (Nat.mod_lt _ hpos)⟩

/-- The visits come in strictly increasing lexicographic order. -/
lemma pairwise_visits (h : 0 < radix) (count : Nat) : (visits count radix).Pairwise (· < ·) := by
  rw [visits_eq_map h, List.pairwise_map]
  refine List.pairwise_lt_range.imp_of_mem fun _ hm' hlt => ?_
  exact digits_lt_digits h hlt (List.mem_range.1 hm')

end Count

/-- Counting from zeros in any number of digits of a positive radix ends, having shown every list of
digits below the radix once, in strictly increasing lexicographic order. There are `radix ^ count`
of them, and the one in place `m` is `m` in that radix, the most significant digit first. -/
theorem run_enumerates (count : Nat) {radix : Nat} (h : 0 < radix) :
    ∃ vs, run count radix = .ok vs ∧
      (∀ ws, Enumerates radix (.initial count) ws ↔ ws = vs) ∧
      vs.length = radix ^ count ∧
      (∀ m < radix ^ count, vs[m]? =
        some ((List.range count).map fun i => m / radix ^ (count - 1 - i) % radix)) ∧
      (∀ ds, ds ∈ vs ↔ ds.length = count ∧ ∀ d ∈ ds, d < radix) ∧
      vs.Nodup ∧ vs.Pairwise (· < ·) := by
  refine ⟨visits count radix, ?_, fun ws => enumerates_iff h, length_visits h count, ?_,
    fun ds => mem_visits h, nodup_visits h count, pairwise_visits h count⟩
  · rw [run, if_pos (Int.natCast_pos.2 h), Int.toNat_natCast]
  · intro m hm
    rw [getElem?_visits h hm, digits_eq_map hm]

/-- Two digits of radix three: the loop shows nine lists and ends. The one in place five is `1, 2`. -/
theorem run_enumerates_pairs : 0 < 3 ∧
    run 2 3 = .ok [[0, 0], [0, 1], [0, 2], [1, 0], [1, 1], [1, 2], [2, 0], [2, 1], [2, 2]] ∧
    Enumerates 3 (.initial 2)
      [[0, 0], [0, 1], [0, 2], [1, 0], [1, 1], [1, 2], [2, 0], [2, 1], [2, 2]] ∧
    [1, 2] = (List.range 2).map fun i => 5 / 3 ^ (2 - 1 - i) % 3 := by
  have hrun : run 2 3 = .ok [[0, 0], [0, 1], [0, 2], [1, 0], [1, 1], [1, 2], [2, 0], [2, 1],
    [2, 2]] := by rfl
  obtain ⟨vs, hvs, hloop, -, hdigits, -⟩ := run_enumerates 2 (show 0 < 3 by decide)
  obtain rfl := Except.ok.inj (hrun.symm.trans hvs)
  exact ⟨by decide, hrun, (hloop _).2 rfl, Option.some.inj (hdigits 5 (by decide))⟩

end Indicial.Odometer
