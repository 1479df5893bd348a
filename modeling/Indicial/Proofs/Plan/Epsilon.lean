import Indicial.Proofs.PermutationSign
import Indicial.Proofs.Plan.Window

/-!
# The Levi-Civita symbol is antisymmetric

The window of an epsilon over labels that do not repeat holds the sign of every assignment at the
position of the assignment (`epsilonPattern_eq_ok`), in every dimension. The sign of a list turns around
when two of its entries are swapped, and so does the component.
-/

namespace Indicial

open Odometer

variable {α : Type} {A : Arith α} {D N q : Nat} {binding : Index} {xs : List Nat}

/-- Where every number has its own slot, a slot gets one term. -/
lemma gather_self (term : Nat → α) (hq : q < N) :
    gather A N (fun k => k) term q = A.add A.zero (term q) := by
  have hbelow : ∀ n ≤ q, gather A n (fun k => k) term q = A.zero := fun n hn => by
    induction n with
    | zero => rfl
    | succ n ih => rw [gather_succ, if_neg (by omega), ih (by omega)]
  induction N with
  | zero => omega
  | succ n ih =>
    rw [gather_succ]
    rcases Nat.lt_succ_iff_lt_or_eq.1 hq with hlt | rfl
    · rw [if_neg (by omega), ih hlt]
    · rw [if_pos rfl, hbelow q (Nat.le_refl q)]

/-- The components of an epsilon over labels that do not repeat, as many as the dimension. -/
lemma epsilonPattern_eq_ok (hnodup : binding.Nodup) (hpos : 0 < binding.length)
    (hcap : binding.length ≤ Index.capacity) :
    ∃ values : Array α,
      Plan.symbolPattern A .epsilon binding (Index.exclusive binding) (Int64.ofNat binding.length)
        = .ok values ∧
      values.size = binding.length ^ binding.length ∧
      ∀ xs : List Nat, xs.length = binding.length → (∀ x ∈ xs, x < binding.length) →
        values[place binding.length xs]? = some
          (A.add A.zero (A.ofInt (permutationSign (xs.map Int.ofNat)))) := by
  have hD : binding.length ≤ 8 := hcap
  have hsmall : binding.length ^ binding.length < 2 ^ 31 :=
    calc binding.length ^ binding.length ≤ 8 ^ binding.length := Nat.pow_le_pow_left hD _
      _ ≤ 8 ^ 8 := Nat.pow_le_pow_right (by decide) hD
      _ < 2 ^ 31 := by decide
  obtain ⟨values, hpattern, hsize, hvalues⟩ := symbolPattern_eq_ok (A := A) hpos
    (show binding.length ≤ 16 by omega) .epsilon hcap
    (by rwa [Index.exclusive_eq_self hnodup])
  rw [Index.exclusive_eq_self hnodup, Index.unique_eq_self hnodup] at hvalues
  rw [Index.exclusive_eq_self hnodup] at hsize
  refine ⟨values, hpattern, hsize, fun xs hlen hlt => ?_⟩
  have hplace : place binding.length xs < binding.length ^ binding.length := by
    have := place_lt hlt
    rwa [hlen] at this
  have hdigits : digits binding.length binding.length (place binding.length xs) = xs := by
    have := digits_place hlt
    rwa [hlen] at this
  rw [hvalues _ hplace, gather_congr (fun k hk => reindex_self hnodup hk) fun _ _ => rfl,
    gather_self _ hplace, hdigits, Valuation.map_ofDigits hnodup hlen]
  rfl

/-- The sign of a list of integers is computed by a loop that ends. It is zero for a list that does not
arrange the numbers below its length, and otherwise the sign of the permutation, by the parity of its
inversions. Swapping two entries turns it around, and so the components of an epsilon, in every
dimension. -/
theorem permutation_sign_antisymmetric (A : Arith α) :
    (∀ ds : List Int, (∀ r, SignEnds ds r ↔ r = permutationSign ds) ∧
      (¬ds.Perm ((List.range ds.length).map Int.ofNat) → permutationSign ds = 0) ∧
      (ds.Perm ((List.range ds.length).map Int.ofNat) →
        ∃ σ : Equiv.Perm (Fin ds.length), ds = List.ofFn (fun i => (σ i : Int)) ∧
          permutationSign ds = (Equiv.Perm.sign σ : ℤ) ∧
          permutationSign ds = (-1) ^ inversions ds) ∧
      ∀ i j, i ≠ j → permutationSign (swapped ds i j) = -permutationSign ds) ∧
    ∀ binding : Index, binding.Nodup → 0 < binding.length → binding.length ≤ Index.capacity →
      ∃ values : Array α,
        Plan.symbolPattern A .epsilon binding (Index.exclusive binding) (Int64.ofNat binding.length)
          = .ok values ∧
        ∀ xs : List Nat, xs.length = binding.length → (∀ x ∈ xs, x < binding.length) →
          values[place binding.length xs]? = some
            (A.add A.zero (A.ofInt (permutationSign (xs.map Int.ofNat)))) ∧
          ∀ i j, i ≠ j → values[place binding.length (swapped xs i j)]? = some
            (A.add A.zero (A.ofInt (-permutationSign (xs.map Int.ofNat)))) := by
  refine ⟨fun ds => ⟨fun _ => signEnds_iff, permutationSign_of_not_arrangement,
    permutationSign_of_arrangement, fun i j hij => permutationSign_swapped hij⟩, ?_⟩
  intro binding hnodup hpos hcap
  obtain ⟨values, hpattern, -, hvalues⟩ := epsilonPattern_eq_ok (A := A) hnodup hpos hcap
  refine ⟨values, hpattern, fun xs hlen hlt => ⟨hvalues xs hlen hlt, fun i j hij => ?_⟩⟩
  have hperm := swapped_perm xs i j
  rw [hvalues _ (hperm.length_eq.trans hlen) fun x hx => hlt x (hperm.mem_iff.1 hx), map_swapped,
    permutationSign_swapped (by simpa [Fin.ext_iff] using hij)]

/-- The list `2, 0, 1` is even, and the component of an epsilon with two of its labels swapped is minus
one. -/
theorem permutation_sign_antisymmetric_three :
    permutationSign [2, 0, 1] = (-1) ^ inversions [2, 0, 1] ∧ inversions [2, 0, 1] = 2 ∧
      ∃ values : Array Float,
        Plan.symbolPattern Arith.float .epsilon [105, 106, 107] (Index.exclusive [105, 106, 107])
          (Int64.ofNat 3) = .ok values ∧
        values[place 3 [0, 2, 1]]? = some
          (Arith.float.add Arith.float.zero (Arith.float.ofInt (-permutationSign [2, 0, 1]))) := by
  obtain ⟨hsign, hepsilon⟩ := permutation_sign_antisymmetric Arith.float
  obtain ⟨-, -, harrangement, -⟩ := hsign [2, 0, 1]
  obtain ⟨-, -, -, hparity⟩ := harrangement (by decide)
  obtain ⟨values, hpattern, hvalues⟩ :=
    hepsilon [105, 106, 107] (by decide) (by decide) (by decide)
  exact ⟨hparity, by decide, values, hpattern,
    (hvalues [2, 0, 1] rfl (by decide)).2 0 1 (by decide)⟩

end Indicial
