import Indicial.Plan.Run
import Indicial.Proofs.Index
import Indicial.Proofs.Layout
import Indicial.Proofs.Odometer
import Indicial.Proofs.Outcome
import Indicial.Proofs.Valuation

/-!
# Index maps

The `k`-th assignment of the labels `inner` gives each of them a digit of `k`, and so every list
`target` of these labels gets a position, `reindex`. `IndexMap.make` tabulates these positions
(`make_follows`): the weights it collects are natural numbers written as words, and their dot product
with the digits is the position.

A loop over the assignments runs as often as its longest table has entries. `assignments_eq` says
that this is the number of assignments, although tables of the identity are left out.
-/

namespace Indicial

open Odometer

/-- The position over `target` of the `k`-th assignment of `inner`. -/
def reindex (D : Nat) (inner target : Index) (k : Nat) : Nat :=
  place D (target.map (Valuation.ofDigits inner (digits D inner.length k)))

section Digits

variable {D k : Nat} {labels inner target : Index}

/-- A position of the inner labels has a position of the target. -/
lemma reindex_lt (hD : 0 < D) (hk : k < D ^ inner.length) :
    reindex D inner target k < D ^ target.length :=
  place_map_lt fun c _ => Valuation.ofDigits_lt hD (digits_lt hk) c

/-- Among the same labels, a position is itself. -/
lemma reindex_self (hnodup : labels.Nodup) (hk : k < D ^ labels.length) :
    reindex D labels labels k = k := by
  rw [reindex, Valuation.map_ofDigits hnodup (length_digits ..), place_digits hk]

/-- The position over `target` of the assignment at a position over `inner`. -/
lemma reindex_place {σ : Valuation} (hinner : inner.Nodup) (hσ : ∀ c ∈ inner, σ c < D)
    (hsub : ∀ c ∈ target, c ∈ inner) :
    reindex D inner target (place D (inner.map σ)) = place D (target.map σ) := by
  have hback : inner.map (Valuation.ofDigits inner (inner.map σ)) = inner.map σ :=
    Valuation.map_ofDigits hinner (List.length_map _)
  rw [reindex, digits_place_map hσ]
  congr 1
  apply List.map_congr_left
  intro c hc
  exact List.map_inj_left.1 hback c (hsub c hc)

/-- Back in the first label order an assignment has its first position. -/
lemma reindex_reindex (hinner : inner.Nodup) (hperm : inner.Perm target) (hD : 0 < D)
    (hk : k < D ^ inner.length) : reindex D target inner (reindex D inner target k) = k := by
  have htarget : target.Nodup := hperm.nodup_iff.1 hinner
  have hlt : ∀ c, Valuation.ofDigits inner (digits D inner.length k) c < D :=
    Valuation.ofDigits_lt hD (digits_lt hk)
  rw [reindex.eq_1 D inner target, reindex_place htarget (fun c _ => hlt c)
    fun c hc => hperm.mem_iff.1 hc]
  exact reindex_self hinner hk

end Digits

namespace IndexMap

/-! ### Weights -/

/-- The position that digits have for given weights, as a true number. -/
def dot (ds ws : List Nat) : Nat := (ds.zipWith (· * ·) ws).sum

/-- Raising a weight adds the digit at its place as often. -/
lemma dot_modify (ds ws : List Nat) (p w : Nat) :
    dot ds (ws.modify p (· + w))
      = dot ds ws + if p < ws.length then (ds[p]?).getD 0 * w else 0 := by
  induction ws generalizing ds p with
  | nil => simp [dot]
  | cons x ws ih =>
    cases ds with
    | nil => simp [dot]
    | cons d ds =>
      cases p with
      | zero =>
        simp only [dot, List.modify_zero_cons, List.zipWith_cons_cons, List.sum_cons,
          List.getElem?_cons_zero, Option.getD_some, List.length_cons, Nat.zero_lt_succ, if_true]
        ring
      | succ p =>
        have hrest := ih ds p
        simp only [dot] at hrest
        simp only [dot, List.modify_succ_cons, List.zipWith_cons_cons, List.sum_cons, hrest,
          List.getElem?_cons_succ, List.length_cons, Nat.succ_lt_succ_iff]
        ring

/-- Without weights the position is zero. -/
lemma dot_zeros (ds : List Nat) (inner : Index) : dot ds (inner.map fun _ => 0) = 0 := by
  induction inner generalizing ds with
  | nil => simp [dot]
  | cons c inner ih =>
    cases ds with
    | nil => simp [dot]
    | cons d ds => simpa [dot] using ih ds

/-- Weights are raised as words or as numbers. -/
lemma modify_map_ofNat (ws : List Nat) (p w : Nat) :
    (ws.map Int64.ofNat).modify p (· + Int64.ofNat w) = (ws.modify p (· + w)).map Int64.ofNat := by
  induction ws generalizing p with
  | nil => cases p <;> rfl
  | cons x ws ih =>
    cases p with
    | zero => simp
    | succ p => simp [ih]

/-- Adding the weights of some labels adds their position to the dot product. -/
lemma addWeights_eq {D : Nat} {inner : Index} (pre rest : Index) (ws : List Nat)
    (hlen : (pre ++ rest).length < 2 ^ 63) (hws : ws.length = inner.length)
    (hmem : ∀ c ∈ rest, c ∈ inner) :
    ∃ ws' : List Nat,
      addWeights inner (pre ++ rest) (Int64.ofNat D) pre.length rest (ws.map Int64.ofNat)
        = .ok (ws'.map Int64.ofNat) ∧
      ws'.length = inner.length ∧
      ∀ ds, dot ds ws' = dot ds ws + place D (rest.map (Valuation.ofDigits inner ds)) := by
  induction rest generalizing pre ws with
  | nil => exact ⟨ws, rfl, hws, fun ds => rfl⟩
  | cons c rest ih =>
    obtain ⟨p, hp, hget⟩ := Index.exists_position (hmem c (by simp))
    have hplt : p < ws.length := by
      rw [hws]
      exact (List.getElem?_eq_some_iff.1 hget).1
    have hexp : ((pre ++ c :: rest).length : Int) - 1 - pre.length = (rest.length : Nat) := by
      simp only [List.length_append, List.length_cons]
      omega
    have hweight : Layout.power (Int64.ofNat D)
        (Int64.ofInt (((pre ++ c :: rest).length : Int) - 1 - pre.length))
        = Int64.ofNat (D ^ rest.length) := by
      rw [hexp, Int64.ofInt_eq_ofNat]
      apply Layout.power_ofNat
      simp only [List.length_append, List.length_cons] at hlen
      omega
    obtain ⟨ws', hadd, hws', hdot⟩ := ih (pre ++ [c]) (ws.modify p (· + D ^ rest.length))
      (by simpa using hlen) (by simpa using hws) fun d hd => hmem d (by simp [hd])
    refine ⟨ws', ?_, hws', fun ds => ?_⟩
    · unfold addWeights
      rw [hp]
      simp only [hweight, modify_map_ofNat]
      simpa using hadd
    · rw [hdot, dot_modify, if_pos hplt, List.map_cons, place, List.length_map]
      have hdigit : Valuation.ofDigits inner ds c = (ds[p]?).getD 0 := by
        rw [Valuation.ofDigits, hp, Option.getD_some]
      rw [hdigit]
      omega

/-- Numbers are added up as words or as numbers. -/
lemma foldl_ofNat_add (xs : List Nat) (n : Nat) :
    (xs.map Int64.ofNat).foldl (· + ·) (Int64.ofNat n) = Int64.ofNat (n + xs.sum) := by
  induction xs generalizing n with
  | nil => simp
  | cons x xs ih =>
    rw [List.map_cons, List.foldl_cons, ← Int64.ofNat_add, ih, List.sum_cons, Nat.add_assoc]

/-- A position is added up as a word or as a number. -/
lemma position_ofNat (ds ws : List Nat) :
    position (ws.map Int64.ofNat) ds = Int64.ofNat (dot ds ws) := by
  have hterms : ds.zipWith (fun v w => Int64.ofNat v * w) (ws.map Int64.ofNat)
      = (ds.zipWith (· * ·) ws).map Int64.ofNat := by
    rw [List.zipWith_map_right, List.map_zipWith]
    simp only [Int64.ofNat_mul]
  have hsum := foldl_ofNat_add (ds.zipWith (· * ·) ws) 0
  rw [position, hterms, dot]
  simpa using hsum

/-! ### Tables -/

/-- The map gives the positions of all assignments of `inner`; only the identity has no table. -/
structure Follows (m : IndexMap) (D : Nat) (inner target : Index) : Prop where
  get : ∀ k < D ^ inner.length, m.get k = .ok (reindex D inner target k : Nat)
  length : m.length = D ^ inner.length ∨ m.length = 0 ∧ inner.length = target.length

/-- An index map exists as soon as all labels are there, and it gives their positions. -/
theorem make_follows {D : Nat} {inner target : Index} (hD : 0 < D) (hD' : D < 2 ^ 63)
    (hlen : target.length < 2 ^ 63) (hsmall : D ^ target.length < 2 ^ 31)
    (hmem : ∀ c ∈ target, c ∈ inner) :
    ∃ m, make inner target (Int64.ofNat D) = .ok m ∧ Follows m D inner target := by
  obtain ⟨ws, hadd, hws, hdot⟩ := addWeights_eq (D := D) [] target (inner.map fun _ => 0)
    (by simpa using hlen) (by simp) hmem
  have hweights : weights inner target (Int64.ofNat D) = .ok (ws.map Int64.ofNat) := by
    rw [weights]
    simpa using hadd
  have hrun : Odometer.run inner.length (Int64.ofNat D).toInt
      = .ok ((List.range (D ^ inner.length)).map (digits D inner.length)) := by
    rw [Odometer.run, Int64.toInt_ofNat_of_lt hD', if_pos (by omega), Int.toNat_natCast,
      visits_eq_map hD]
  have hpositions : ((List.range (D ^ inner.length)).map (digits D inner.length)).map
      (position (ws.map Int64.ofNat))
      = (List.range (D ^ inner.length)).map fun k => Int64.ofNat (reindex D inner target k) := by
    rw [List.map_map]
    apply List.map_congr_left
    intro k _
    rw [Function.comp, position_ofNat, hdot, dot_zeros, Nat.zero_add, reindex]
  have hbound : ∀ k < D ^ inner.length, reindex D inner target k < 2 ^ 31 :=
    fun k hk => Nat.lt_trans (reindex_lt hD hk) hsmall
  unfold make
  rw [hweights, ok_bind, hrun, ok_bind, hpositions]
  simp only [pure_eq_ok]
  refine ⟨_, rfl, ?_⟩
  -- A map that is the identity is stored as nothing, any other as a table of words.
  split
  · rename_i hid
    simp only [Bool.and_eq_true, decide_eq_true_eq] at hid
    refine ⟨fun k hk => ?_, .inr ⟨rfl, hid.2⟩⟩
    have hk' := List.all_eq_true.1 hid.1 (Int64.ofNat (reindex D inner target k), k) (by
      rw [List.mem_zipIdx_iff_getElem?]
      simp [hk])
    rw [beq_iff_eq, Int64.toInt_ofNat_of_lt (Nat.lt_trans (hbound k hk) (by decide))] at hk'
    rw [IndexMap.get, hk']
  · refine ⟨fun k hk => ?_, .inl ?_⟩
    · have hentry : (((List.range (D ^ inner.length)).map fun k =>
          Int64.ofNat (reindex D inner target k)).map Int64.toInt32).toArray[k]?
          = some (Int32.ofNat (reindex D inner target k)) := by
        simp [hk]
      simp only [IndexMap.get, hentry]
      rw [toInt32_ofNat_of_lt (hbound k hk)]
    · simp [IndexMap.length]

/-- Weights are found for labels of `inner` only. -/
lemma mem_of_addWeights {inner target : Index} {dim : Int64} {rest : Index} {pos : Nat}
    {ws ws' : List Int64} (h : addWeights inner target dim pos rest ws = .ok ws') :
    ∀ c ∈ rest, c ∈ inner := by
  induction rest generalizing pos ws with
  | nil => nofun
  | cons c rest ih =>
    rw [addWeights] at h
    split at h
    case h_1 => cases h
    case h_2 p hp =>
      have hc : c ∈ inner := by
        by_contra hc
        rw [Index.position?_eq_none_iff.2 hc] at hp
        cases hp
      exact List.forall_mem_cons.2 ⟨hc, ih h⟩

/-- An index map that was made gives the positions of the labels. -/
theorem follows_of_make {D : Nat} {inner target : Index} {m : IndexMap}
    (h : make inner target (Int64.ofNat D) = .ok m) (hD : 0 < D) (hD' : D < 2 ^ 63)
    (hlen : target.length < 2 ^ 63) (hsmall : D ^ target.length < 2 ^ 31) :
    m.Follows D inner target := by
  have hmem : ∀ c ∈ target, c ∈ inner := by
    rw [make] at h
    obtain ⟨ws, hws, -⟩ := bind_eq_ok_iff.1 h
    exact mem_of_addWeights hws
  obtain ⟨m', hm', hfollows⟩ := make_follows hD hD' hlen hsmall hmem
  rw [h] at hm'
  cases hm'
  exact hfollows

/-- A loop runs over all assignments: each table is complete or left out, and they are not all left
out unless the window has as many slots. -/
lemma assignments_eq {N size : Nat} {maps : List IndexMap} (hsize : size < 2 ^ 63) (hle : size ≤ N)
    (hall : ∀ m ∈ maps, m.length = N ∨ m.length = 0)
    (hsome : size = N ∨ ∃ m ∈ maps, m.length = N) :
    Plan.assignments maps (Int64.ofNat size) = N := by
  rw [Plan.assignments, toNat_toInt_ofNat hsize]
  clear hsize
  induction maps generalizing size with
  | nil =>
    rcases hsome with rfl | ⟨m, hm, -⟩
    · rfl
    · cases hm
  | cons m maps ih =>
    rw [List.foldl_cons]
    have hm := hall m (by simp)
    apply ih
    · rcases hm with hm | hm
      · rw [hm]
        exact Nat.max_le.2 ⟨hle, Nat.le_refl N⟩
      · rw [hm]
        exact Nat.max_le.2 ⟨hle, Nat.zero_le N⟩
    · exact fun m' hm' => hall m' (by simp [hm'])
    · rcases hsome with rfl | ⟨m', hm', hlen⟩
      · rcases hm with hm | hm <;> simp [hm]
      · rcases List.mem_cons.1 hm' with rfl | hmem
        · left
          rw [hlen]
          omega
        · exact .inr ⟨m', hmem, hlen⟩

/-- With a map to the labels of its window, a loop runs over all assignments of `inner`. -/
lemma Follows.assignments {D : Nat} {inner outer : Index} {own : IndexMap} {others : List IndexMap}
    (hsmall : D ^ outer.length < 2 ^ 63) (hle : D ^ outer.length ≤ D ^ inner.length)
    (hown : own.Follows D inner outer) (hothers : ∀ m ∈ others, ∃ target, m.Follows D inner target) :
    Plan.assignments (own :: others) (Int64.ofNat (D ^ outer.length)) = D ^ inner.length := by
  apply assignments_eq hsmall hle
  · intro m hm
    obtain ⟨target, hfollows⟩ : ∃ target, m.Follows D inner target := by
      rcases List.mem_cons.1 hm with rfl | hm
      · exact ⟨outer, hown⟩
      · exact hothers m hm
    rcases hfollows.length with h | h
    · exact .inl h
    · exact .inr h.1
  · rcases hown.length with h | h
    · exact .inr ⟨own, by simp, h⟩
    · exact .inl (by rw [h.2])

end IndexMap

end Indicial
