import Indicial.Odometer
import Mathlib.GroupTheory.Perm.Fin
import Mathlib.GroupTheory.Perm.Support

/-!
# The sign of a permutation

The sign is counted by swaps: at each place in turn the value found there is swapped to where it
belongs, until the place has its own value. A swap brings one value more to its place, and so the loop
ends; `Settles` is the loop without a bound on its rounds.

A list that arranges the numbers below its length is a permutation `σ`, and what the loop works on are
the images of permutations (`images`). Each swap multiplies the permutation by a transposition
(`swap_images`), so the loop leaves the sign of `σ` (`settle_images`), which is the parity of the
inversions of the list (`neg_one_pow_inversions`).
-/

namespace Indicial.Odometer

open Equiv

/-- The loop of `settle` without a bound on its rounds: from a place and a sign it ends, after finitely
many rounds, with the sign `r`. -/
inductive Settles : Array Nat → (place : Nat) → (sign r : Int) → Prop
  | done {p i s} (h : ¬i < p.size) : Settles p i s s
  | next {p i s r} (h : i < p.size) (hi : p[i] = i) (rest : Settles p (i + 1) s r) : Settles p i s r
  | swap {p i s r} (h : i < p.size) (hi : p[i] ≠ i)
      (rest : Settles (p.swapIfInBounds i p[i]) i (-s) r) : Settles p i s r

/-- `permutationSign` with the loop that has no bound ends with the sign `r`. -/
def SignEnds (digits : List Int) (r : Int) : Prop :=
  if isArrangement digits then Settles (digits.map Int.toNat).toArray 0 1 r else r = 0

/-- The pairs of places at which a list descends, the second anywhere behind the first. -/
def inversions : List Int → Nat
  | [] => 0
  | d :: ds => ds.countP (· < d) + inversions ds

/-- The list with the entries at two places swapped. -/
def swapped {α : Type} (ds : List α) (i j : Fin ds.length) : List α := (ds.set i ds[j]).set j ds[i]

/-! ### The loop ends with the sign -/

section Loop

/-- The loop leaves one sign. -/
lemma Settles.unique {p : Array Nat} {i : Nat} {s r r' : Int} (h : Settles p i s r)
    (h' : Settles p i s r') : r = r' := by
  induction h with
  | done hp =>
    cases h' with
    | done => rfl
    | next hp' => exact absurd hp' hp
    | swap hp' => exact absurd hp' hp
  | next hp hi _ ih =>
    cases h' with
    | done hp' => exact absurd hp hp'
    | next _ _ rest => exact ih rest
    | swap _ hi' => exact absurd hi hi'
  | swap hp hi _ ih =>
    cases h' with
    | done hp' => exact absurd hp hp'
    | next _ hi' => exact absurd hi' hi
    | swap _ _ rest => exact ih rest

variable {n : Nat} {σ : Perm (Fin n)}

/-- The values of a permutation in order. -/
def images (σ : Perm (Fin n)) : Array Nat := Array.ofFn fun i => (σ i : Nat)

/-- There are as many images as places. -/
@[simp] lemma size_images (σ : Perm (Fin n)) : (images σ).size = n := Array.size_ofFn

/-- The entry at a place is its image. -/
@[simp] lemma getElem_images (σ : Perm (Fin n)) {i : Nat} (h : i < (images σ).size) :
    (images σ)[i] = σ ⟨i, by simpa using h⟩ := by
  simp [images]

/-- Swapping the value at a place to where it belongs multiplies by a transposition. -/
lemma swap_images (σ : Perm (Fin n)) (i : Fin n) :
    (images σ).swapIfInBounds i (σ i) = images (σ * swap i (σ i)) := by
  apply Array.ext
  · simp
  · intro k hk hk'
    have hkn : k < n := by simpa using hk'
    rw [Array.getElem_swapIfInBounds, getElem_images]
    simp only [size_images, Fin.is_lt, and_true, getElem_images, Fin.eta, Perm.mul_apply,
      swap_apply_def, Fin.ext_iff]
    split
    · rfl
    · split <;> rfl

/-- Places that had their value keep it when another place is settled. -/
lemma fixed_mul_swap {i k : Fin n} (hk : σ k = k) (hi : σ i ≠ i) : (σ * swap i (σ i)) k = k := by
  have hki : k ≠ i := by
    rintro rfl
    exact hi hk
  have hkσ : k ≠ σ i := by
    intro h
    exact hki (σ.injective (hk.trans h))
  rw [Perm.mul_apply, swap_apply_of_ne_of_ne hki hkσ, hk]

/-- One value more has found its place. -/
lemma card_support_mul_swap {i : Fin n} (hi : σ i ≠ i) :
    (σ * swap i (σ i)).support.card < σ.support.card := by
  rw [mul_swap_eq_swap_mul]
  exact Perm.card_support_swap_mul fun h => hi (σ.injective h)

/-- A transposition turns the sign around. -/
lemma sign_mul_swap {i : Fin n} (hi : σ i ≠ i) :
    Perm.sign (σ * swap i (σ i)) = -Perm.sign σ := by
  rw [Perm.sign_mul, Perm.sign_swap hi.symm, mul_neg_one]

/-- A permutation that fixes all places is the identity. -/
lemma eq_one_of_fixed {i : Nat} (hfixed : ∀ k : Fin n, k < i → σ k = k) (hi : n ≤ i) : σ = 1 := by
  ext k
  rw [hfixed k (by omega), Perm.one_apply]

/-- Behind the last place the loop has ended, and the permutation is the identity. -/
lemma settles_images_done {i : Nat} (s : Int) (hfixed : ∀ k : Fin n, k < i → σ k = k) (hi : n ≤ i) :
    s * (Perm.sign σ : ℤ) = s ∧ Settles (images σ) i s s := by
  refine ⟨?_, .done (by rw [size_images]; omega)⟩
  rw [eq_one_of_fixed hfixed hi, Perm.sign_one, Units.val_one, mul_one]

/-- From a place on, before which all values are at their places, the loop ends with the sign of the
permutation, bounded or not. A round moves on or brings a value to its place. -/
lemma settle_images {fuel i : Nat} {s : Int} (hfixed : ∀ k : Fin n, k < i → σ k = k)
    (hfuel : (n - i) + σ.support.card ≤ fuel) :
    settle fuel (images σ) i s = s * (Perm.sign σ : ℤ) ∧
      Settles (images σ) i s (s * (Perm.sign σ : ℤ)) := by
  -- A round lowers `n - i` or the number of points that are moved, and keeps `s * sign σ`.
  induction fuel generalizing σ i s with
  | zero =>
    obtain ⟨hsign, hends⟩ := settles_images_done s hfixed (by omega)
    rw [settle, hsign]
    exact ⟨rfl, hends⟩
  | succ fuel ih =>
    rw [settle]
    by_cases hi : i < n
    · have hsize : i < (images σ).size := by rwa [size_images]
      have hvalue : (images σ)[i] = σ ⟨i, hi⟩ := getElem_images σ hsize
      simp only [hsize, dite_true, hvalue]
      by_cases hv : σ ⟨i, hi⟩ = ⟨i, hi⟩
      · have hfixed' : ∀ k : Fin n, k < i + 1 → σ k = k := fun k hk => by
          rcases Nat.lt_succ_iff_lt_or_eq.1 hk with hk | rfl
          exacts [hfixed k hk, hv]
        have hv' : (σ ⟨i, hi⟩ : Nat) = i := congrArg Fin.val hv
        rw [if_pos hv']
        obtain ⟨hsettle, hends⟩ := ih (s := s) hfixed' (by omega)
        exact ⟨hsettle, .next hsize (hvalue.trans hv') hends⟩
      · have hv' : (σ ⟨i, hi⟩ : Nat) ≠ i := fun h => hv (Fin.ext h)
        have hcard := card_support_mul_swap hv
        have hswap := swap_images σ ⟨i, hi⟩
        rw [if_neg hv', hswap]
        obtain ⟨hsettle, hends⟩ := ih (σ := σ * swap ⟨i, hi⟩ (σ ⟨i, hi⟩)) (i := i) (s := -s)
          (fun k hk => fixed_mul_swap (hfixed k hk) hv) (by omega)
        have hsign : -s * (Perm.sign (σ * swap ⟨i, hi⟩ (σ ⟨i, hi⟩)) : ℤ) = s * (Perm.sign σ : ℤ) := by
          rw [sign_mul_swap hv, Units.val_neg, neg_mul_neg]
        rw [hsign] at hsettle hends
        exact ⟨hsettle, .swap hsize (hvalue.trans_ne hv') (by rwa [hvalue, hswap])⟩
    · obtain ⟨hsign, hends⟩ := settles_images_done s hfixed (by omega)
      rw [dif_neg (by rwa [size_images]), hsign]
      exact ⟨rfl, hends⟩

end Loop

/-! ### Arrangements -/

section Arrangement

variable {ds : List Int}

/-- Erasing duplicates leaves none. -/
lemma nodup_eraseDups (ds : List Int) : ds.eraseDups.Nodup := by
  induction hn : ds.length using Nat.strong_induction_on generalizing ds with
  | _ n ih =>
    cases ds with
    | nil => exact List.nodup_nil
    | cons d rest =>
      have hfilter := List.length_filter_le (fun b => !b == d) rest
      rw [List.eraseDups_cons, List.nodup_cons]
      refine ⟨by simp [List.mem_eraseDups], ih _ ?_ _ rfl⟩
      rw [← hn, List.length_cons]
      omega

/-- Nothing is erased exactly when no number occurs twice. -/
lemma length_eraseDups_eq_iff (ds : List Int) : ds.eraseDups.length = ds.length ↔ ds.Nodup := by
  have hsub : ds.eraseDups.Subperm ds :=
    (nodup_eraseDups ds).subperm fun d hd => List.mem_eraseDups.1 hd
  constructor
  · intro h
    exact (hsub.perm_of_length_le h.ge).nodup_iff.1 (nodup_eraseDups ds)
  · intro h
    exact ((List.perm_ext_iff_of_nodup (nodup_eraseDups ds) h).2
      fun d => List.mem_eraseDups).length_eq

/-- The test asks for an arrangement of the numbers below the length. -/
lemma isArrangement_iff :
    isArrangement ds = true ↔ ds.Perm ((List.range ds.length).map Int.ofNat) := by
  have hmem : ∀ d : Int, d ∈ (List.range ds.length).map Int.ofNat ↔ 0 ≤ d ∧ d < ds.length := by
    intro d
    rw [List.mem_map]
    constructor
    · rintro ⟨k, hk, rfl⟩
      have := List.mem_range.1 hk
      exact ⟨by simp, by simpa using this⟩
    · rintro ⟨hd, hlt⟩
      exact ⟨d.toNat, List.mem_range.2 (by omega), by simpa using hd⟩
  have hnodup : ((List.range ds.length).map Int.ofNat).Nodup :=
    List.nodup_range.map fun a b h => Int.ofNat.inj h
  simp only [isArrangement, Bool.and_eq_true, List.all_eq_true, decide_eq_true_eq, beq_iff_eq,
    length_eraseDups_eq_iff]
  constructor
  · rintro ⟨hrange, hds⟩
    exact (hds.subperm fun d hd => (hmem d).2 (hrange d hd)).perm_of_length_le (by simp)
  · intro h
    exact ⟨fun d hd => (hmem d).1 (h.mem_iff.1 hd), h.nodup_iff.2 hnodup⟩

/-- An arrangement is the list of values of a permutation. -/
lemma exists_perm_of_arrangement (h : ds.Perm ((List.range ds.length).map Int.ofNat)) :
    ∃ σ : Perm (Fin ds.length), ds = List.ofFn fun i => (σ i : Int) := by
  obtain ⟨hrange, hdups⟩ : (∀ d ∈ ds, 0 ≤ d ∧ d < ds.length) ∧ ds.Nodup := by
    have := isArrangement_iff.2 h
    simpa [isArrangement, length_eraseDups_eq_iff] using this
  have hentry : ∀ i : Fin ds.length, 0 ≤ ds[(i : Nat)] ∧ ds[(i : Nat)] < ds.length := fun i =>
    hrange _ (List.getElem_mem _)
  let value : Fin ds.length → Fin ds.length := fun i =>
    ⟨ds[(i : Nat)].toNat, by have := hentry i; omega⟩
  have hinj : Function.Injective value := fun i j hij => by
    have heq : ds[(i : Nat)].toNat = ds[(j : Nat)].toNat := congrArg Fin.val hij
    have hi := hentry i
    have hj := hentry j
    exact Fin.ext (hdups.getElem_inj_iff.1 (by omega))
  refine ⟨Equiv.ofBijective value (Finite.injective_iff_bijective.1 hinj), ?_⟩
  apply List.ext_getElem
  · simp
  · intro i hi hi'
    simp [value, (hentry ⟨i, hi⟩).1]

/-- The values of a permutation are an arrangement. -/
lemma perm_range_ofFn {n : Nat} (σ : Perm (Fin n)) :
    (List.ofFn fun i => (σ i : Int)).Perm ((List.range n).map Int.ofNat) := by
  have hinj : Function.Injective fun i => (σ i : Int) := fun i j h =>
    σ.injective (Fin.ext (Int.ofNat.inj h))
  refine ((List.nodup_ofFn.2 hinj).subperm fun d hd => ?_).perm_of_length_le (by simp)
  obtain ⟨i, rfl⟩ := List.mem_ofFn.1 hd
  exact List.mem_map.2 ⟨σ i, List.mem_range.2 (σ i).isLt, rfl⟩

/-- The sign of the list of values of a permutation is that of the permutation, and the loop that has
no bound gives it. -/
theorem permutationSign_ofFn {n : Nat} (σ : Perm (Fin n)) :
    permutationSign (List.ofFn fun i => (σ i : Int)) = (Perm.sign σ : ℤ) ∧
      SignEnds (List.ofFn fun i => (σ i : Int)) (Perm.sign σ : ℤ) := by
  have harrangement : isArrangement (List.ofFn fun i => (σ i : Int)) = true := by
    rw [isArrangement_iff, List.length_ofFn]
    exact perm_range_ofFn σ
  have himages : ((List.ofFn fun i => (σ i : Int)).map Int.toNat).toArray = images σ := by
    apply Array.ext
    · simp
    · intro i hi hi'
      simp
  have hcard : σ.support.card ≤ n := (Finset.card_le_univ _).trans_eq (Fintype.card_fin n)
  have hfuel : (n - 0) + σ.support.card ≤ 2 * (List.ofFn fun i => (σ i : Int)).length := by
    rw [List.length_ofFn]
    omega
  obtain ⟨hsettle, hends⟩ := settle_images (i := 0) (s := 1) nofun hfuel
  rw [one_mul] at hsettle hends
  rw [permutationSign, SignEnds, if_pos harrangement, if_pos harrangement, himages]
  exact ⟨hsettle, hends⟩

end Arrangement

/-! ### Inversions and swaps -/

section Inversions

/-- Each entry that is less than a number contributes a factor minus one. -/
lemma neg_one_pow_countP (ds : List Int) (d : Int) :
    (-1 : ℤ) ^ ds.countP (· < d) = (ds.map fun x => if x < d then -1 else 1).prod := by
  induction ds with
  | nil => rfl
  | cons x ds ih =>
    rw [List.countP_cons, List.map_cons, List.prod_cons, ← ih, pow_add, mul_comm]
    congr 1
    by_cases hx : x < d <;> simp [hx]

/-- The parity of the inversions of a list of values, pair by pair. -/
lemma neg_one_pow_inversions {n : Nat} (f : Fin n → Int) :
    (-1 : ℤ) ^ inversions (List.ofFn f) = ∏ i, ∏ j > i, if f j < f i then -1 else 1 := by
  induction n with
  | zero => simp [inversions]
  | succ n ih =>
    rw [List.ofFn_succ, inversions, pow_add, neg_one_pow_countP, ih, List.map_ofFn, List.prod_ofFn,
      Fin.prod_univ_succ, Fin.prod_Ioi_zero]
    simp only [Fin.prod_Ioi_succ]
    rfl

/-- The sign of a permutation is the parity of the inversions of its values. -/
theorem sign_eq_neg_one_pow_inversions {n : Nat} (σ : Perm (Fin n)) :
    (Perm.sign σ : ℤ) = (-1) ^ inversions (List.ofFn fun i => (σ i : Int)) := by
  rw [neg_one_pow_inversions, Perm.sign_eq_prod_prod_Ioi]
  push_cast
  refine Finset.prod_congr rfl fun i _ => Finset.prod_congr rfl fun j hj => ?_
  have hne : σ i ≠ σ j := fun h => (Finset.mem_Ioi.1 hj).ne (σ.injective h)
  rcases hne.lt_or_gt with h | h
  · rw [if_pos h, if_neg (by simpa using h.le)]
    rfl
  · rw [if_neg h.asymm, if_pos (by simpa using h)]
    rfl

/-- Swapping two entries multiplies the permutation by a transposition. -/
lemma swapped_eq_ofFn {ds : List Int} {σ : Perm (Fin ds.length)}
    (h : ds = List.ofFn fun k => (σ k : Int)) (i j : Fin ds.length) :
    swapped ds i j = List.ofFn fun k => ((σ * swap i j) k : Int) := by
  have hget : ∀ k : Fin ds.length, ds[(k : Nat)] = (σ k : Int) := fun k => by
    have hk := List.getElem_of_eq h k.isLt
    rwa [List.getElem_ofFn] at hk
  apply List.ext_getElem
  · simp [swapped]
  · intro k hk hk'
    obtain ⟨c, rfl⟩ : ∃ c : Fin ds.length, k = c := ⟨⟨k, by simpa [swapped] using hk⟩, rfl⟩
    simp only [swapped, Fin.getElem_fin, List.getElem_set, hget, List.getElem_ofFn, Fin.eta,
      Perm.mul_apply, ← Fin.ext_iff]
    rcases eq_or_ne c j with rfl | hj
    · rw [if_pos rfl, swap_apply_right]
    · rcases eq_or_ne c i with rfl | hi
      · rw [if_neg hj.symm, if_pos rfl, swap_apply_left]
      · rw [if_neg hj.symm, if_neg hi.symm, swap_apply_of_ne_of_ne hi hj]

/-- Swapping two entries permutes the list. -/
lemma swapped_perm {α : Type} (ds : List α) (i j : Fin ds.length) : (swapped ds i j).Perm ds :=
  List.set_set_perm i.isLt j.isLt

/-- Entries can be mapped before or after they are swapped. -/
lemma map_swapped {α β : Type} (f : α → β) (ds : List α) (i j : Fin ds.length) :
    (swapped ds i j).map f
      = swapped (ds.map f) (i.cast (List.length_map f).symm) (j.cast (List.length_map f).symm) := by
  simp [swapped, List.map_set]

end Inversions

/-! ### The sign of any list -/

section Sign

variable {ds : List Int}

/-- An arrangement has the sign of its permutation, which is the parity of its inversions. -/
theorem permutationSign_of_arrangement (h : ds.Perm ((List.range ds.length).map Int.ofNat)) :
    ∃ σ : Perm (Fin ds.length), ds = List.ofFn (fun i => (σ i : Int)) ∧
      permutationSign ds = (Perm.sign σ : ℤ) ∧ permutationSign ds = (-1) ^ inversions ds := by
  obtain ⟨σ, hσ⟩ := exists_perm_of_arrangement h
  have hsign := (permutationSign_ofFn σ).1
  have hparity := sign_eq_neg_one_pow_inversions σ
  rw [← hσ] at hsign hparity
  exact ⟨σ, hσ, hsign, hsign.trans hparity⟩

/-- A list that does not arrange the numbers below its length has no sign. -/
theorem permutationSign_of_not_arrangement
    (h : ¬ds.Perm ((List.range ds.length).map Int.ofNat)) : permutationSign ds = 0 :=
  if_neg (mt isArrangement_iff.1 h)

/-- The loop that has no bound ends for every list, and in one way. -/
theorem signEnds_iff {r : Int} : SignEnds ds r ↔ r = permutationSign ds := by
  by_cases h : ds.Perm ((List.range ds.length).map Int.ofNat)
  · obtain ⟨σ, hσ⟩ := exists_perm_of_arrangement h
    obtain ⟨hsign, hends⟩ := permutationSign_ofFn σ
    rw [← hσ] at hsign hends
    rw [hsign]
    rw [SignEnds, if_pos (isArrangement_iff.2 h)] at hends ⊢
    exact ⟨fun hr => hr.unique hends, fun hr => hr ▸ hends⟩
  · rw [permutationSign_of_not_arrangement h, SignEnds, if_neg (mt isArrangement_iff.1 h)]

/-- Swapping two entries at different places turns the sign around. -/
theorem permutationSign_swapped {i j : Fin ds.length} (hij : i ≠ j) :
    permutationSign (swapped ds i j) = -permutationSign ds := by
  by_cases h : ds.Perm ((List.range ds.length).map Int.ofNat)
  · obtain ⟨σ, hσ, hsign, -⟩ := permutationSign_of_arrangement h
    rw [swapped_eq_ofFn hσ, (permutationSign_ofFn _).1, hsign, Perm.sign_mul, Perm.sign_swap hij]
    simp
  · have hswapped : ¬(swapped ds i j).Perm ((List.range (swapped ds i j).length).map Int.ofNat) := by
      rw [(swapped_perm ds i j).length_eq]
      exact fun hs => h ((swapped_perm ds i j).symm.trans hs)
    rw [permutationSign_of_not_arrangement h, permutationSign_of_not_arrangement hswapped, neg_zero]

end Sign

end Indicial.Odometer
