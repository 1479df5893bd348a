import Indicial.Proofs.Engine.Parallel
import Mathlib.Data.Int.ConditionallyCompleteOrder
import Mathlib.Order.CompletePartialOrder

/-!
# Chunks that cover all points

The number of points of a chunk is an option, rounded up to whole batches, and the number of chunks is a
quotient rounded up; both are words. If neither the rounded option nor its sum with the number of points
leaves the words, no two chunks share a point, all of them together are all points, and an evaluation
that ends without an error has evaluated every point, whatever the schedule. Otherwise the chunks
cover nothing (`chunks_cover_iff`), and an evaluation does nothing and reports no error
(`wrapped_chunks_skip`).
-/

namespace Indicial

variable {α : Type} {A : Arith α}

/-! ### The ranges of chunks -/

namespace Engine

variable {e : Engine α} {p : Program α} {workers chunk n : Int64} {N K k : Nat}

/-- The points of a chunk, as true numbers. -/
def chunkWindow (e : Engine α) (n c : Int64) : Set Int :=
  Set.Ico (e.chunkRange n c).1.toInt (e.chunkRange n c).2.toInt

/-- Chunks are whole batches, no two of them share a point, and together they are the first `n`
points. -/
structure Covers (e : Engine α) (n : Int64) : Prop where
  pos : 0 < e.chunk.toInt
  batches : Layout.lanes.toInt ∣ e.chunk.toInt
  disjoint : ∀ c d : Int64, 0 ≤ c ∧ c < e.chunkCount n → 0 ≤ d ∧ d < e.chunkCount n → c ≠ d →
    Disjoint (e.chunkWindow n c) (e.chunkWindow n d)
  union : ⋃ c ∈ {c : Int64 | 0 ≤ c ∧ c < e.chunkCount n}, e.chunkWindow n c = Set.Ico 0 n.toInt

/-- The number of chunks fits a word. -/
lemma Fits.count_lt (h : e.Fits N K) : (N + K - 1) / K < 2 ^ 63 := by
  have hle := Nat.div_le_self (N + K - 1) K
  have := h.sum_le
  have := h.pos
  omega

/-- The chunks are numbered from zero. -/
lemma Fits.exists_number (h : e.Fits N K) {c : Int64} (hc : 0 ≤ c ∧ c < e.chunkCount (Int64.ofNat N)) :
    ∃ k < (N + K - 1) / K, c = Int64.ofNat k := by
  obtain ⟨hpos, hlt⟩ := hc
  rw [Int64.le_iff_toInt_le, Int64.toInt_zero] at hpos
  rw [h.chunkCount_eq, Int64.lt_iff_toInt_lt, Int64.toInt_ofNat_of_lt h.count_lt] at hlt
  exact ⟨c.toInt.toNat, by omega, (ofNat_toNat_toInt hpos).symm⟩

/-- Each number of a chunk is one that the workers count to. -/
lemma Fits.number (h : e.Fits N K) (hk : k < (N + K - 1) / K) :
    0 ≤ Int64.ofNat k ∧ Int64.ofNat k < e.chunkCount (Int64.ofNat N) := by
  have hcount := h.count_lt
  rw [h.chunkCount_eq, Int64.le_iff_toInt_le, Int64.lt_iff_toInt_lt, Int64.toInt_ofNat_of_lt hcount,
    Int64.toInt_ofNat_of_lt (by omega), Int64.toInt_zero]
  omega

/-- A point belongs to the chunk that its number divided by the length of chunks says. -/
lemma Fits.mem_chunkWindow (h : e.Fits N K) (hk : k < (N + K - 1) / K) {x : Int} :
    x ∈ e.chunkWindow (Int64.ofNat N) (Int64.ofNat k) ↔ 0 ≤ x ∧ x < N ∧ x.toNat / K = k := by
  have hlt := (lt_ceil_iff h.pos).1 hk
  have hpos := h.pos
  have hsum := h.sum_le
  have hN := h.points_lt
  have hdiv : x.toNat / K = k ↔ k * K ≤ x.toNat ∧ x.toNat ≤ k * K + K - 1 := Nat.div_eq_iff h.pos
  rw [chunkWindow, h.chunkRange_eq hlt, Set.mem_Ico, hdiv]
  dsimp only
  rw [Int64.toInt_ofNat_of_lt (by omega), Int64.toInt_ofNat_of_lt (by omega)]
  omega

/-- Points that fit are covered, each by one chunk, when a chunk is whole batches of four. -/
lemma Fits.covers (h : e.Fits N K) (hbatches : 4 ∣ K) : e.Covers (Int64.ofNat N) := by
  have hback : e.chunk.toInt = K := by rw [h.chunk, Int64.toInt_ofNat_of_lt h.chunk_lt]
  refine ⟨?_, ?_, ?_, ?_⟩
  · have := h.pos
    omega
  · rw [hback]
    exact Int.natCast_dvd_natCast.2 hbatches
  · intro c d hc hd hne
    obtain ⟨k, hk, rfl⟩ := h.exists_number hc
    obtain ⟨l, hl, rfl⟩ := h.exists_number hd
    rw [Set.disjoint_left]
    intro x hx hx'
    obtain ⟨-, -, hsame⟩ := (h.mem_chunkWindow hk).1 hx
    obtain ⟨-, -, hsame'⟩ := (h.mem_chunkWindow hl).1 hx'
    exact hne (by rw [← hsame, hsame'])
  · ext x
    rw [Int64.toInt_ofNat_of_lt h.points_lt, Set.mem_iUnion₂, Set.mem_Ico]
    constructor
    · rintro ⟨c, hc, hx⟩
      obtain ⟨k, hk, rfl⟩ := h.exists_number hc
      obtain ⟨hpos, hlt, -⟩ := (h.mem_chunkWindow hk).1 hx
      exact ⟨hpos, hlt⟩
    · rintro ⟨hpos, hlt⟩
      have hk : x.toNat / K < (N + K - 1) / K := by
        rw [lt_ceil_iff h.pos]
        have := Nat.div_mul_le_self x.toNat K
        omega
      exact ⟨Int64.ofNat (x.toNat / K), h.number hk, (h.mem_chunkWindow hk).2 ⟨hpos, hlt, rfl⟩⟩

/-- A sum that wraps around leaves no chunk. -/
lemma chunkCount_nonpos (hchunk : e.chunk = Int64.ofNat K) (hK : K < 2 ^ 63) (hN : N < 2 ^ 63)
    (hwraps : 2 ^ 63 < N + K) : (e.chunkCount (Int64.ofNat N)).toInt ≤ 0 := by
  have hback : e.chunk.toInt = K := by rw [hchunk, Int64.toInt_ofNat_of_lt hK]
  have hsum : (Int64.ofNat N + e.chunk - 1).toInt < 0 := by
    have hone : (1 : Int64).toInt = 1 := rfl
    rw [Int64.toInt_sub, Int64.toInt_add, Int.bmod_sub_bmod, hback, hone, Int64.toInt_ofNat_of_lt hN,
      Int.bmod]
    split
    · omega
    · omega
  have hne : e.chunk ≠ -1 := by
    intro heq
    rw [heq] at hback
    have hone : (-1 : Int64).toInt = -1 := rfl
    omega
  rw [chunkCount, Int64.toInt_div_of_ne_right _ _ hne, hback]
  have hquot := Int.tdiv_nonneg (Int.neg_nonneg.2 hsum.le) (Int.natCast_nonneg K)
  rw [Int.neg_tdiv] at hquot
  omega

/-- The option rounded up, as a true number. -/
lemma exists_length (hmake : make A p workers chunk = .ok e) (hworkers : 0 < workers.toInt)
    (hchunk : 0 < chunk.toInt) (hle : chunk.toInt ≤ 2 ^ 63 - 4) :
    ∃ K : Nat, e.chunk = Int64.ofNat K ∧ (K : Int) = (chunk.toInt + 3) / 4 * 4 := by
  obtain ⟨-, hround⟩ := make_options hmake hworkers hchunk
  have hlength := alignUp_lanes hchunk.le hle
  refine ⟨e.chunk.toInt.toNat, (ofNat_toNat_toInt ?_).symm, ?_⟩
  · rw [hround]
    omega
  · rw [hround]
    omega

/-- The three largest options wrap around when they are rounded up. -/
lemma le_of_alignUp_pos (hpos : 0 < (Layout.alignUp chunk Layout.lanes).toInt) :
    chunk.toInt ≤ 2 ^ 63 - 4 := by
  by_contra hlarge
  have hlt := chunk.toInt_lt
  have hcases : chunk.toInt = 9223372036854775805 ∨ chunk.toInt = 9223372036854775806 ∨
      chunk.toInt = 9223372036854775807 := by omega
  obtain rfl | rfl | rfl : chunk = 9223372036854775805 ∨ chunk = 9223372036854775806 ∨
      chunk = 9223372036854775807 := by
    simp only [← Int64.toInt_inj]
    exact hcases
  all_goals exact absurd hpos (by decide)

/-- Chunks cover the points exactly if neither rounding up the option nor adding it to the points leaves
the words. -/
theorem covers_iff (hmake : make A p workers chunk = .ok e) (hworkers : 0 < workers.toInt)
    (hchunk : 0 < chunk.toInt) (hn : 0 ≤ n.toInt) :
    e.Covers n ↔ chunk.toInt ≤ 2 ^ 63 - 4 ∧ n.toInt + (chunk.toInt + 3) / 4 * 4 ≤ 2 ^ 63 := by
  obtain ⟨N, hN, rfl⟩ := exists_eq_ofNat hn
  have hback := Int64.toInt_ofNat_of_lt hN
  constructor
  · intro h
    have hle : chunk.toInt ≤ 2 ^ 63 - 4 := by
      obtain ⟨-, hround⟩ := make_options hmake hworkers hchunk
      exact le_of_alignUp_pos (hround ▸ h.pos)
    refine ⟨hle, ?_⟩
    by_contra hwraps
    obtain ⟨K, hK, hlength⟩ := exists_length hmake hworkers hchunk hle
    have hnone := chunkCount_nonpos hK (by omega) hN (by omega)
    -- There is a point, and no chunk that it could be in.
    have hmem : (0 : Int) ∈ ⋃ c ∈ {c : Int64 | 0 ≤ c ∧ c < e.chunkCount (Int64.ofNat N)},
        e.chunkWindow (Int64.ofNat N) c := by
      rw [h.union]
      exact ⟨le_rfl, by omega⟩
    obtain ⟨c, ⟨hpos, hlt⟩, -⟩ := Set.mem_iUnion₂.1 hmem
    rw [Int64.le_iff_toInt_le, Int64.toInt_zero] at hpos
    rw [Int64.lt_iff_toInt_lt] at hlt
    omega
  · rintro ⟨hle, hsum⟩
    obtain ⟨K, hK, hlength⟩ := exists_length hmake hworkers hchunk hle
    have hfits : e.Fits N K := ⟨hK, by omega, by omega, hN, by omega⟩
    exact hfits.covers (by omega)

/-! ### Counting points -/

section Points

variable {start stop align : Int64} {a a' : Arena α} {s s' : Sink α} {stats : Stats}

/-- A span counts its points and no chunks. -/
lemma stats_of_span {field : Field α} {constants : Array α}
    (h : e.span A field constants start stop align a s = .ok (a', s', stats)) :
    stats.points = stop - start ∧ stats.chunks = 0 := by
  obtain ⟨⟨f₁, s₁⟩, -, h⟩ := bind_eq_ok_iff.1 h
  obtain ⟨⟨f₂, s₂⟩, -, h⟩ := bind_eq_ok_iff.1 h
  obtain ⟨⟨f₃, s₃⟩, -, h⟩ := bind_eq_ok_iff.1 h
  cases h
  exact ⟨points_body start stop (body start stop align), rfl⟩

/-- Points are added up. -/
lemma points_add (a b : Stats) : (a.add b).points = a.points + b.points := by
  simp only [Stats.add, Stats.points]
  ac_rfl

/-- An evaluation that ends without an error counts all points. -/
lemma Fits.points_of_evaluateParallel (h : e.Fits N K) {cancelled : Bool} {field : Option (Field α)}
    {constants out out' : Array α}
    (hrun : e.evaluateParallel A a cancelled (Int64.ofNat N) field constants out = .ok (out', stats)) :
    stats.points = Int64.ofNat N ∧ stats.chunks = e.chunkCount (Int64.ofNat N) := by
  have hcount := h.chunkCount_eq
  have hlt := h.count_lt
  have hback : (Int64.ofNat ((N + K - 1) / K)).toInt = ((N + K - 1) / K : Nat) :=
    Int64.toInt_ofNat_of_lt hlt
  obtain ⟨⟨⟩, -, hrun⟩ := bind_eq_ok_iff.1 hrun
  obtain ⟨⟨⟩, -, hrun⟩ := bind_eq_ok_iff.1 hrun
  dsimp only at hrun
  rw [hcount] at hrun ⊢
  split at hrun
  case isTrue hnone =>
    cases hrun
    rw [Int64.le_iff_toInt_le, hback, Int64.toInt_zero] at hnone
    have hzero : (N + K - 1) / K = 0 := Nat.le_zero.1 (by exact_mod_cast hnone)
    have hN : ¬0 * K < N := by
      rw [← lt_ceil_iff h.pos, hzero]
      exact lt_irrefl 0
    rw [hzero, show N = 0 by omega]
    exact ⟨rfl, rfl⟩
  case isFalse =>
    obtain ⟨-, hrun⟩ := guard_eq_ok hrun
    obtain ⟨⟨a₁, s₁, stats₁⟩, hloop, hrun⟩ := bind_eq_ok_iff.1 hrun
    cases hrun
    rw [hback, Int.toNat_natCast] at hloop
    -- After `k` rounds the points of `k` chunks are counted, cut at the last point.
    obtain ⟨hpoints, hchunks⟩ : stats₁.points = Int64.ofNat (min ((N + K - 1) / K * K) N) ∧
        stats₁.chunks = Int64.ofNat ((N + K - 1) / K) := by
      refine foldlM_range_preserves (P := fun k (y : Arena α × Sink α × Stats) =>
        y.2.2.points = Int64.ofNat (min (k * K) N) ∧ y.2.2.chunks = Int64.ofNat k) ?_ ?_ hloop
      · rw [Nat.zero_mul, Nat.zero_min]
        exact ⟨rfl, rfl⟩
      · rintro k hk ⟨a, s, stats⟩ ⟨a', s', stats'⟩ ⟨hpoints, hchunks⟩ hround
        have hlt := (lt_ceil_iff h.pos).1 hk
        rw [h.chunkRange_eq hlt] at hround
        obtain ⟨⟨a₂, s₂, more⟩, hspan, hround⟩ := bind_eq_ok_iff.1 hround
        cases hround
        obtain ⟨hmore, hnone⟩ := stats_of_span (liftM_eq_ok_iff.1 hspan)
        rw [Nat.min_eq_left hlt.le] at hpoints
        constructor
        · rw [points_add, points_add, hpoints, hmore, Nat.succ_mul, Int64.add_comm (Int64.ofNat _),
            Int64.sub_add_cancel]
          exact Int64.add_zero _
        · show stats.chunks + more.chunks + 1 = Int64.ofNat (k + 1)
          rw [show stats.chunks = Int64.ofNat k from hchunks, hnone, Int64.add_zero, Int64.ofNat_add]
          rfl
    -- Rounding up leaves no point behind.
    have hlast : ¬(N + K - 1) / K * K < N := by
      rw [← lt_ceil_iff h.pos]
      exact lt_irrefl _
    rw [hpoints, Nat.min_eq_right (not_lt.1 hlast)]
    exact ⟨rfl, hchunks⟩

end Points

end Engine

/-! ### Every schedule -/

namespace Parallel

variable {T : Task α} {s s' : Parallel α} {i : Nat} {events more : List Event}

/-- Outputs of a chunk that was taken have been written, or the worker that took it is going to write
them. -/
def Handed (T : Task α) (s : Parallel α) (events : List Event) : Prop :=
  ∀ i c, .took i c ∈ events → ∀ cell ∈ (T.engine.chunkActions T.points c).filterMap Action.cell?,
    .wrote i (T.engine.element cell.1 cell.2) ∈ events ∨
      ∃ a rest, s.workers[i]? = some (.working a c rest) ∧ cell ∈ rest.filterMap Action.cell?

/-- A worker that has nothing left to write changes. -/
lemma Handed.quiet (h : Handed T s events) {v v' : Worker α} (hi : s.workers[i]? = some v)
    (hworkers : s'.workers = s.workers.set i v') (hdone : ∀ a c rest, v = .working a c rest → rest = []) :
    Handed T s' (events ++ []) := by
  rw [List.append_nil]
  intro j c htook cell hcell
  rcases h j c htook cell hcell with hwrote | ⟨a, rest, hj, hrest⟩
  · exact .inl hwrote
  · have hij : i ≠ j := by
      rintro rfl
      rw [hi] at hj
      rw [hdone a c rest (Option.some.inj hj)] at hrest
      cases hrest
    exact .inr ⟨a, rest, by rw [hworkers, List.getElem?_set_ne hij, hj], hrest⟩

/-- A worker that takes a chunk is going to write all outputs of it. -/
lemma Handed.fetch (h : Handed T s events) {a : Arena α} {c : Int64}
    (hi : s.workers[i]? = some (.fetching a))
    (hworkers : s'.workers = s.workers.set i (.working a c (T.engine.chunkActions T.points c))) :
    Handed T s' (events ++ [.took i c]) := by
  intro j c' htook cell hcell
  rcases List.mem_append.1 htook with htook | htook
  · rcases h j c' htook cell hcell with hwrote | ⟨a', rest, hj, hrest⟩
    · exact .inl (List.mem_append_left _ hwrote)
    · have hij : i ≠ j := by
        rintro rfl
        rw [hi] at hj
        cases hj
      exact .inr ⟨a', rest, by rw [hworkers, List.getElem?_set_ne hij, hj], hrest⟩
  · cases List.mem_singleton.1 htook
    refine .inr ⟨a, _, ?_, hcell⟩
    rw [hworkers, List.getElem?_set_self (List.getElem?_eq_some_iff.1 hi).1]

/-- A worker that acts has written what it was going to write next. -/
lemma Handed.act (h : Handed T s events) {a a' : Arena α} {c : Int64} {act : Action α}
    {rest : List (Action α)} (hi : s.workers[i]? = some (.working a c (act :: rest)))
    (hworkers : s'.workers = s.workers.set i (.working a' c rest)) :
    Handed T s' (events ++ act.cell?.toList.map fun cell =>
      .wrote i (T.engine.element cell.1 cell.2)) := by
  intro j c' htook cell hcell
  have hold : .took j c' ∈ events := by
    rcases List.mem_append.1 htook with htook | htook
    · exact htook
    · obtain ⟨cell', -, heq⟩ := List.mem_map.1 htook
      cases heq
  rcases h j c' hold cell hcell with hwrote | ⟨a₀, rest₀, hj, hrest⟩
  · exact .inl (List.mem_append_left _ hwrote)
  · by_cases hij : i = j
    · subst hij
      rw [hi] at hj
      cases hj
      -- It is the output that is written, or it is still among the rest.
      obtain ⟨act', hact, hcell'⟩ := List.mem_filterMap.1 hrest
      rcases List.mem_cons.1 hact with rfl | hact
      · exact .inl (List.mem_append_right _ (List.mem_map.2 ⟨cell, Option.mem_toList.2 hcell', rfl⟩))
      · refine .inr ⟨a', rest, ?_, List.mem_filterMap.2 ⟨act', hact, hcell'⟩⟩
        rw [hworkers, List.getElem?_set_self (List.getElem?_eq_some_iff.1 hi).1]
    · exact .inr ⟨a₀, rest₀, by rw [hworkers, List.getElem?_set_ne hij, hj], hrest⟩

/-- Every change hands outputs on from worker to sink. -/
lemma Handed.change (h : Handed T s events) (hchange : Change T s i s' more) :
    Handed T s' (events ++ more) := by
  cases hchange with
  | none => rwa [List.append_nil]
  | takeArena hi _ => exact h.quiet hi rfl nofun
  | abort hi _ => exact h.quiet hi rfl nofun
  | goOn hi => exact h.quiet hi rfl nofun
  | finish hi _ => exact h.quiet hi rfl nofun
  | fetch hi _ => exact h.fetch hi rfl
  | complete hi => exact h.quiet hi rfl (by rintro a c rest ⟨⟩; rfl)
  | act hi _ => exact h.act hi rfl

/-- Chunks are counted and handed out in order by every schedule that can be carried out. -/
lemma books_of_run {C L : Nat} {before : Int64} {m : Nat} {x : Parallel α × List Event}
    {schedule : List Move} (hC : T.engine.chunkCount T.points = Int64.ofNat C)
    (hsmall : C + L < 2 ^ 63) (hledger : Ledger C L before m s events) (hhanded : Handed T s events)
    (hrun : run T schedule (s, events) = .ok x) :
    ∃ m, Ledger C L before m x.1 x.2 ∧ Handed T x.1 x.2 := by
  refine foldlM_preserves (P := fun x : Parallel α × List Event =>
    ∃ m, Ledger C L before m x.1 x.2 ∧ Handed T x.1 x.2) ?_ ⟨m, hledger, hhanded⟩ hrun
  rintro mv - ⟨s, events⟩ x' ⟨m, hledger, hhanded⟩ hmove
  cases mv with
  | worker i =>
    obtain ⟨⟨s', more⟩, hstep, hmove⟩ := bind_eq_ok_iff.1 hmove
    cases hmove
    have hchange := change_of_step hstep
    obtain ⟨m', hledger', -⟩ := hledger.change hC hsmall hchange
    exact ⟨m', hledger', hhanded.change hchange⟩
  | cancel =>
    cases hmove
    exact ⟨m, ⟨hledger.length, hledger.next, hledger.bound, hledger.exhausted, hledger.taken,
      hledger.chunks⟩, hhanded⟩

/-- When every worker has found that no chunk is left, all outputs of all chunks have been written. -/
lemma Handed.done (h : Handed T s events) (hall : ∀ v ∈ s.workers, v = .finished) {c : Int64}
    (htook : c ∈ events.filterMap Event.chunk?) {cell : Int32 × Int64}
    (hcell : cell ∈ (T.engine.chunkActions T.points c).filterMap Action.cell?) :
    ∃ i, .wrote i (T.engine.element cell.1 cell.2) ∈ events := by
  obtain ⟨event, hevent, hchunk⟩ := List.mem_filterMap.1 htook
  cases event with
  | wrote i k => cases hchunk
  | took i c =>
    cases hchunk
    rcases h i c hevent cell hcell with hwrote | ⟨a, rest, hi, -⟩
    · exact ⟨i, hwrote⟩
    · cases hall _ (List.mem_of_getElem? hi)

end Parallel

namespace Engine

variable {e : Engine α} {p : Program α} {workers chunk n : Int64} {N K : Nat}

/-- Every output slot of an accepted program is the target of a kernel that has a plan. -/
lemma exists_entry (hmake : make A p workers chunk = .ok e) {slot : Nat}
    (hslot : (slot : Int) < e.width.toInt) :
    ∃ entry ∈ e.plans.zip e.program.kernels, ∃ t ∈ entry.2.targets, t.toInt = slot := by
  obtain ⟨hprogram, -, c, hvalid, hplans⟩ := make_eq_ok hmake
  rw [width, hprogram] at hslot
  obtain ⟨k, hk, t, ht, heq⟩ := hvalid.exists_target (show slot < p.width.toInt.toNat by omega)
  obtain ⟨i, hi⟩ := List.mem_iff_getElem?.1 hk
  obtain ⟨plan, hplan, -⟩ := exists_of_getElem_left hplans hi
  obtain ⟨tree, hkernel⟩ := hvalid.kernel k hk
  have hpos := (hkernel.target_lt t ht).1
  refine ⟨(plan, k), ?_, t, ht, by omega⟩
  rw [hprogram]
  exact List.mem_of_getElem? (List.getElem?_zip_eq_some.2 ⟨hplan, hi⟩)

/-- A point is evaluated with the chunk that its number divided by the length of chunks says. -/
lemma Fits.mem_chunkPoints (h : e.Fits N K) (hroom : N + 8 < 2 ^ 63) {point : Int64}
    (hpos : 0 ≤ point.toInt) (hlt : point.toInt < N) :
    point ∈ e.chunkPoints (Int64.ofNat N) (Int64.ofNat (point.toInt.toNat / K)) := by
  have hle := Nat.div_mul_le_self point.toInt.toNat K
  have hk : point.toInt.toNat / K < (N + K - 1) / K := (lt_ceil_iff h.pos).2 (by omega)
  have hmem := (h.mem_chunkWindow hk).2 ⟨hpos, hlt, rfl⟩
  rw [chunkWindow, h.chunkRange_eq (by omega)] at hmem
  rw [chunkPoints, h.chunkRange_eq (by omega)]
  refine (mem_visited ?_ ?_ (by decide) ?_ point).2 hmem
  all_goals
    dsimp only
    simp only [Int64.toInt_ofNat_of_lt (show point.toInt.toNat / K * K < 2 ^ 63 by omega),
      Int64.toInt_ofNat_of_lt (show min (point.toInt.toNat / K * K + K) N < 2 ^ 63 by omega)]
    omega

/-- Chunks cover the points, without sharing any, exactly if neither the option rounded up nor its sum
with the number of points wraps around. Then an evaluation that ends without an error has counted all
points, and in every schedule of workers that have all found no chunk left, every output of every
point has been written. -/
theorem chunks_cover_iff (hmake : make A p workers chunk = .ok e) (hworkers : 0 < workers.toInt)
    (hchunk : 0 < chunk.toInt) (hn : 0 ≤ n.toInt) :
    (e.Covers n ↔ chunk.toInt ≤ 2 ^ 63 - 4 ∧ n.toInt + (chunk.toInt + 3) / 4 * 4 ≤ 2 ^ 63) ∧
    (e.Covers n → ∀ (field : Option (Field α)) (constants out : Array α),
      (∀ (a : Arena α) (cancelled : Bool) out' stats,
        e.evaluateParallel A a cancelled n field constants out = .ok (out', stats) →
        stats.points = n ∧ stats.chunks = e.chunkCount n) ∧
      ∀ (x : α) (pool : Pool (Arena α)) (before : Int64) (schedule : List Move) s events,
        n.toInt * e.width.toInt ≤ out.size → 8 * out.size < 2 ^ 64 →
        Parallel.run (e.task A field constants n x) schedule
          (.start (e.task A field constants n x) out pool before, []) = .ok (s, events) →
        (∀ v ∈ s.workers, v = .finished) →
        s.chunks = before + e.chunkCount n ∧
        ∀ point : Int64, 0 ≤ point.toInt → point.toInt < n.toInt → ∀ slot : Nat,
          slot < e.width.toInt → ∃ i, .wrote i (point.toInt * e.width.toInt + slot) ∈ events) := by
  have hiff := covers_iff hmake hworkers hchunk hn
  refine ⟨hiff, fun hcovers field constants out => ?_⟩
  obtain ⟨hle, hsum⟩ := hiff.1 hcovers
  obtain ⟨N, hN, rfl⟩ := exists_eq_ofNat hn
  have hback := Int64.toInt_ofNat_of_lt hN
  obtain ⟨K, hK, hlength⟩ := exists_length hmake hworkers hchunk hle
  have hfits : e.Fits N K := ⟨hK, by omega, by omega, hN, by omega⟩
  refine ⟨fun a cancelled out' stats => hfits.points_of_evaluateParallel, ?_⟩
  intro x pool before schedule s events hout hmemory hrun hall
  have hcount := hfits.chunkCount_eq
  have hfour : (N + K - 1) / K * 4 ≤ N + K - 1 :=
    (Nat.mul_le_mul_left _ (by omega)).trans (Nat.div_mul_le_self _ K)
  obtain ⟨hworkers', -⟩ := make_options hmake hworkers hchunk
  have hL : (min e.workers (e.chunkCount (Int64.ofNat N))).toInt
      = min workers.toInt ((N + K - 1) / K : Nat) := by
    rw [toInt_min, hworkers', hcount, Int64.toInt_ofNat_of_lt hfits.count_lt]
  -- The books say which chunks were taken, and that what belongs to a taken chunk gets written.
  obtain ⟨m, hledger, hhanded⟩ := Parallel.books_of_run (T := e.task A field constants _ x) hcount
    (by rw [task, hL]; omega)
    (Parallel.start_ledger (e.task A field constants _ x) out pool before ((N + K - 1) / K))
    nofun hrun
  obtain ⟨htaken, hchunks⟩ := hledger.done (by rw [task, hL]; omega) hall
  rw [hcount]
  refine ⟨hchunks, fun point hpos hlt slot hslot => ?_⟩
  rw [hback] at hlt hout
  have hroom : N + 8 < 2 ^ 63 := by
    have : (N : Int) ≤ N * e.width.toInt := le_mul_of_one_le_right (by omega) (by omega)
    omega
  obtain ⟨entry, hentry, t, ht, hslot'⟩ := exists_entry hmake hslot
  have hle := Nat.div_mul_le_self point.toInt.toNat K
  -- The chunk of the point was taken, as all of them were.
  have htook : Int64.ofNat (point.toInt.toNat / K) ∈ events.filterMap Event.chunk? := by
    rw [htaken]
    exact List.mem_map_of_mem (List.mem_range.2 ((lt_ceil_iff hfits.pos).2 (by omega)))
  obtain ⟨i, hwrote⟩ := hhanded.done hall htook
    (mem_cells hentry ht (hfits.mem_chunkPoints hroom hpos hlt))
  refine ⟨i, ?_⟩
  rw [← hslot']
  exact hwrote

/-- What workers are given to evaluate the first five points. -/
def fivePoints (e : Engine Int) : Parallel.Task Int :=
  e.task integers (some fun id point => id.toInt - point.toInt) #[1, 2, 3, 4] 5 0

/-- Five points in two chunks are all evaluated, by a call and under a schedule of two workers. -/
theorem chunks_cover_transport :
    ∃ p e fresh out' stats schedule s events, make integers p 2 3 = .ok e ∧ e.Covers 5 ∧
      e.evaluateParallel integers fresh false 5 (some fun id point => id.toInt - point.toInt)
        #[1, 2, 3, 4] (Array.replicate 10 7) = .ok (out', stats) ∧ stats.points = 5 ∧
      Parallel.run (fivePoints e) schedule
        (.start (fivePoints e) (Array.replicate 10 7) ⟨2, []⟩ 9, []) = .ok (s, events) ∧
      s.chunks = 9 + e.chunkCount 5 ∧ ∃ i, .wrote i (4 * e.width.toInt + 1) ∈ events := by
  -- One worker does all, and then the other finds nothing left.
  have hready : ((transport.compile (fun _ => (0 : Int)) ⟨false, true⟩ []).toOption.any fun p =>
      (make integers p 2 3).toOption.any fun e => e.width == 2 && (e.arena 0).toOption.any fun fresh =>
        ((e.evaluateParallel integers fresh false 5 (some fun id point => id.toInt - point.toInt)
          #[1, 2, 3, 4] (Array.replicate 10 7)).toOption.any fun _ => true) &&
        (Parallel.run (fivePoints e) (List.replicate 60 (.worker 0) ++ List.replicate 3 (.worker 1))
          (.start (fivePoints e) (Array.replicate 10 7) ⟨2, []⟩ 9, [])).toOption.any fun x =>
            x.1.workers.all fun v => Parallel.finishes v == 1) = true := by
    simp only [transport_eq, evaluateParallel, check, Option.isNone_some]
    cbv
  obtain ⟨p, -, hready⟩ := toOption_any_iff.1 hready
  obtain ⟨e, hmake, hready⟩ := toOption_any_iff.1 hready
  obtain ⟨hwidth, hready⟩ := Bool.and_eq_true_iff.1 hready
  obtain ⟨fresh, -, hready⟩ := toOption_any_iff.1 hready
  obtain ⟨hevaluate, hready⟩ := Bool.and_eq_true_iff.1 hready
  obtain ⟨⟨out', stats⟩, hevaluate, -⟩ := toOption_any_iff.1 hevaluate
  obtain ⟨⟨s, events⟩, hrun, hfinished⟩ := toOption_any_iff.1 hready
  have hall : ∀ v ∈ s.workers, v = .finished := by
    intro v hv
    have hone := List.all_eq_true.1 hfinished v hv
    cases v with
    | finished => rfl
    | _ => cases hone
  have hwidth : e.width.toInt = 2 := by rw [eq_of_beq hwidth]; rfl
  obtain ⟨hiff, hcomplete⟩ := chunks_cover_iff (n := 5) hmake (by decide) (by decide) (by decide)
  have hcovers := hiff.2 (by decide)
  obtain ⟨hpoints, hschedule⟩ := hcomplete hcovers (some fun id point => id.toInt - point.toInt)
    #[1, 2, 3, 4] (Array.replicate 10 7)
  obtain ⟨hchunks, hwrote⟩ := hschedule 0 ⟨2, []⟩ 9 _ s events (by rw [hwidth]; decide) (by decide)
    hrun hall
  exact ⟨p, e, fresh, out', stats, _, s, events, hmake, hcovers, hevaluate,
    (hpoints fresh false out' stats hevaluate).1, hrun, hchunks,
    hwrote 4 (by decide) (by decide) 1 (by rw [hwidth]; decide)⟩

/-- With the largest option that is a whole number of batches, five points fall into no chunk: the
output stays as it was and no error is reported. The largest option of all is rounded up below zero. -/
theorem wrapped_chunks_skip :
    (∃ p e fresh, make integers p 1 9223372036854775804 = .ok e ∧ e.arena 0 = .ok fresh ∧
      ¬e.Covers 5 ∧
      e.evaluateParallel integers fresh false 5 (some fun id point => id.toInt - point.toInt)
        #[1, 2, 3, 4] (Array.replicate 10 7) = .ok (Array.replicate 10 7, Stats.zero)) ∧
    ∃ p e, make integers p 1 9223372036854775807 = .ok e ∧ e.chunk.toInt = -9223372036854775808 := by
  constructor
  · obtain ⟨p, e, fresh, -, -, hmake, hfresh, hsize, hwidth⟩ :=
      transport_accepted 1 9223372036854775804
    have hcovers := (covers_iff (n := 5) hmake (by decide) (by decide) (by decide)).not.2 (by decide)
    have hrange : e.checkRange 0 5 10 = .ok () := by
      rw [checkRange, show e.width = 2 from Int64.toInt_inj.1 hwidth]
      decide
    have hinputs : e.check (some fun id point => id.toInt - point.toInt) (#[1, 2, 3, 4] : Array Int)
        = .ok () := by
      rw [check, if_neg (by simp), if_neg (not_not.2 hsize)]
    have hnone : e.chunkCount 5 ≤ 0 := by
      obtain ⟨K, hK, hlength⟩ := exists_length hmake (by decide) (by decide) (by decide)
      have hback : (9223372036854775804 : Int64).toInt = 9223372036854775804 := by decide
      rw [Int64.le_iff_toInt_le]
      exact chunkCount_nonpos (N := 5) hK (by omega) (by decide) (by omega)
    refine ⟨p, e, fresh, hmake, hfresh, hcovers, ?_⟩
    rw [evaluateParallel, Array.size_replicate, hrange, ok_bind, hinputs, ok_bind]
    exact if_pos hnone
  · obtain ⟨p, e, -, -, -, hmake, -⟩ := transport_accepted 1 9223372036854775807
    refine ⟨p, e, hmake, ?_⟩
    rw [(make_options hmake (by decide) (by decide)).2]
    decide

end Engine

end Indicial
