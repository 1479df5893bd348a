import Indicial.Proofs.Engine.Batch
import Indicial.Proofs.Engine.Workers

/-!
# Parallel and sequential evaluation

However the workers of a parallel evaluation are scheduled, none of them faults, no chunk is taken
twice and no element of the output is written by two of them; when all have found that no chunk is
left, the output is what evaluating the points one after the other gives
(`parallel_eq_sequential`).
-/

namespace Indicial

open Indicial.Expr

variable {α : Type}

/-- The outputs of the first `N` points stand in their places, and everything else is as it was. -/
structure Filled (F : Int64 → Nat → α) (W N : Nat) (out out' : Array α) : Prop where
  size : out'.size = out.size
  value : ∀ p < N, ∀ slot < W, out'[p * W + slot]? = some (F (Int64.ofNat p) slot)
  rest : ∀ i, N * W ≤ i → out'[i]? = out[i]?

/-- Only one output is filled. -/
lemma Filled.unique {F : Int64 → Nat → α} {W N : Nat} {out a b : Array α} (hW : 0 < W)
    (ha : Filled F W N out a) (hb : Filled F W N out b) : a = b := by
  apply Array.ext_getElem?
  intro i
  rcases lt_or_ge i (N * W) with hi | hi
  · have hp : i / W < N := (Nat.div_lt_iff_lt_mul hW).2 hi
    have hvalue := ha.value (i / W) hp (i % W) (Nat.mod_lt i hW)
    rw [← hb.value (i / W) hp (i % W) (Nat.mod_lt i hW), Nat.div_add_mod'] at hvalue
    exact hvalue
  · rw [ha.rest i hi, hb.rest i hi]

namespace Parallel

variable {T : Task α} {F : Int64 → Nat → α} {W S K C L : Nat} {before : Int64} {out : Array α}
  {x : Parallel α × List Event} {events : List Event}

/-- A chunk that can be taken only once is taken by one worker. -/
lemma took_unique (h : (events.filterMap Event.chunk?).Nodup) {i j : Nat} {c : Int64}
    (hi : .took i c ∈ events) (hj : .took j c ∈ events) : i = j := by
  induction events with
  | nil => cases hi
  | cons event events ih =>
    cases event with
    | wrote w k =>
      rw [List.filterMap_cons_none rfl] at h
      exact ih h (by simpa using hi) (by simpa using hj)
    | took w k =>
      rw [List.filterMap_cons_some (show Event.chunk? (.took w k) = some k from rfl)] at h
      obtain ⟨hnew, h⟩ := List.nodup_cons.1 h
      have hmem : ∀ v, .took v k ∈ events → False := fun v hv =>
        hnew (List.mem_filterMap.2 ⟨_, hv, rfl⟩)
      rcases List.mem_cons.1 hi with hfirst | hlater
      · cases hfirst
        rcases List.mem_cons.1 hj with hfirst' | hlater'
        · cases hfirst'
          rfl
        · exact absurd hlater' (hmem j)
      · rcases List.mem_cons.1 hj with hfirst' | hlater'
        · cases hfirst'
          exact absurd hlater (hmem i)
        · exact ih h hlater hlater'

/-- No chunk is taken twice. -/
lemma Ledger.nodup {m : Nat} {s : Parallel α} (h : Ledger C L before m s events)
    (hC : C < 2 ^ 63) : (events.filterMap Event.chunk?).Nodup := by
  rw [h.taken]
  refine List.Nodup.map_on (fun a ha b hb hab => ?_) List.nodup_range
  rw [List.mem_range] at ha hb
  have heq := congrArg Int64.toInt hab
  rw [Int64.toInt_ofNat_of_lt (by omega), Int64.toInt_ofNat_of_lt (by omega)] at heq
  exact_mod_cast heq

/-- Two workers never write the same element. -/
lemma Work.wrote_unique {m : Nat} {s₀ : Sink α} {s : Parallel α} (hT : T.Sound F W S K C s₀)
    (hledger : Ledger C L before m s events) (hwork : Work T F W S s₀ s events) {i j : Nat} {k : Int}
    (hi : .wrote i k ∈ events) (hj : .wrote j k ∈ events) : i = j := by
  obtain ⟨c, p, slot, htook, hslot, hp, rfl⟩ := hwork.wrote i k hi
  obtain ⟨c', p', slot', htook', hslot', hp', heq⟩ := hwork.wrote j _ hj
  obtain ⟨a, ha, rfl⟩ := hledger.exists_chunk htook
  obtain ⟨b, hb, rfl⟩ := hledger.exists_chunk htook'
  obtain ⟨hpos, hlt, hchunk⟩ := (hT.chunked.mem a ha p).1 hp
  obtain ⟨hpos', hlt', hchunk'⟩ := (hT.chunked.mem b hb p').1 hp'
  have hsame : p.toInt = p'.toInt := by
    have hquot := congrArg (· / (W : Int)) heq
    simp only [Int.add_comm (_ * (W : Int)), Int.add_mul_ediv_right _ _ (show (W : Int) ≠ 0 by omega),
      Int.ediv_eq_zero_of_lt (Int.natCast_nonneg slot) (by omega : (slot : Int) < W),
      Int.ediv_eq_zero_of_lt (Int.natCast_nonneg slot') (by omega : (slot' : Int) < W),
      Int.zero_add] at hquot
    exact hquot
  obtain rfl : a = b := by
    rw [← hchunk, ← hchunk', hsame]
  have hsmall := hT.chunked.small
  exact took_unique (hledger.nodup (by omega)) htook htook'

/-- Without a cancellation a worker stops only where it has found nothing left to do. -/
lemma Work.finished {s₀ : Sink α} {s : Parallel α} (hwork : Work T F W S s₀ s events)
    (hcancelled : s.cancelled = false) (hstopped : ∀ v ∈ s.workers, v.Stopped) :
    ∀ v ∈ s.workers, v = .finished := by
  intro v hv
  have hstop := hstopped v hv
  cases v with
  | finished => rfl
  | aborted =>
    obtain ⟨i, hi⟩ := List.mem_iff_getElem?.1 hv
    have haborted := hwork.aborted i hi
    rw [hcancelled] at haborted
    cases haborted
  | idle | checking | fetching | working => exact hstop.elim

/-- On the way to the filled output every element is as it was or as it will be. -/
lemma Work.element_cases {width : Int64} (hwidth : width.toInt = W) {s : Parallel α}
    (hwork : Work T F W S (.flat out width 0) s events) {out' : Array α}
    (hfilled : Filled F W T.points.toInt.toNat out out') (k : Nat) :
    (Engine.flatOut s.sink)[k]? = out[k]? ∨ (Engine.flatOut s.sink)[k]? = out'[k]? := by
  obtain ⟨-, hread⟩ := hwork.layout.flat
  rw [← hread]
  rcases hwork.element (0, k) with hsame | ⟨slot, q, hslot, hq, hlt, haddress, hvalue⟩
  · exact .inl hsame
  · rw [Sink.address, Int64.toInt_zero, Int.sub_zero, hwidth, Int.toNat_natCast,
      Prod.mk.injEq] at haddress
    have hplace := hfilled.value q.toInt.toNat (by omega) slot hslot
    rw [ofNat_toNat_toInt hq, haddress.2] at hplace
    exact .inr (hvalue.trans hplace.symm)

/-- When no worker has found anything left to do, all is done. -/
lemma Inv.filled {width : Int64} (hT : T.Sound F W S K C (.flat out width 0))
    (hwidth : width.toInt = W) (hn : 0 ≤ T.points.toInt) (hL : L = 0 → C = 0)
    (h : Inv T F W S C L (.flat out width 0) before x) (hall : ∀ v ∈ x.1.workers, v = .finished) :
    Filled F W T.points.toInt.toNat out (Engine.flatOut x.1.sink) ∧
      x.1.chunks = before + Int64.ofNat C := by
  obtain ⟨m, hledger, hwork⟩ := h
  obtain ⟨htaken, hchunks⟩ := hledger.done hL hall
  have hplaced : ∀ p : Int64, 0 ≤ p.toInt → p.toInt < T.points.toInt → ∀ slot < W,
      x.1.sink.read (0, p.toInt.toNat * W + slot) = some (F p slot) := by
    intro p hpos hlt slot hslot
    have hk := hT.chunked.lt p hpos hlt
    have hmem : Int64.ofNat (p.toInt.toNat / K) ∈ x.2.filterMap Event.chunk? := by
      rw [htaken]
      exact List.mem_map_of_mem (List.mem_range.2 hk)
    obtain ⟨event, hevent, hchunk⟩ := List.mem_filterMap.1 hmem
    cases event with
    | wrote w k => cases hchunk
    | took w c =>
      cases hchunk
      -- A chunk that was taken is being worked on or written, and no worker is working.
      rcases hwork.chunk w _ hevent with ⟨a, rest, hw⟩ | hplaced
      · cases hall _ (List.mem_of_getElem? hw)
      · have hread := hplaced slot p ((hT.chunked.mem _ hk p).2 ⟨hpos, hlt, rfl⟩) hslot
          (hT.room p hpos hlt)
        rwa [Sink.address, Int64.toInt_zero, Int.sub_zero, hwidth, Int.toNat_natCast] at hread
  obtain ⟨hsize, hread⟩ := hwork.layout.flat
  refine ⟨⟨hsize, fun p hp slot hslot => ?_, fun i hi => ?_⟩, hchunks⟩
  · have hback : (Int64.ofNat p).toInt = p := Int64.toInt_ofNat_of_lt (by
      have := T.points.toInt_lt
      omega)
    have hvalue := hplaced (Int64.ofNat p) (by omega) (by omega) slot hslot
    rwa [hback, Int.toNat_natCast, hread] at hvalue
  · rcases hwork.element (0, i) with hsame | ⟨slot, p, hslot, hpos, hlt, haddress, -⟩
    · rw [← hread, hsame]
      rfl
    · rw [Sink.address, Int64.toInt_zero, Int.sub_zero, hwidth, Int.toNat_natCast,
        Prod.mk.injEq] at haddress
      have hrow : (p.toInt.toNat + 1) * W ≤ T.points.toInt.toNat * W :=
        Nat.mul_le_mul_right W (by omega)
      rw [Nat.add_mul, Nat.one_mul] at hrow
      omega

/-- At the beginning nothing is taken and nothing is written. -/
lemma start_inv {width : Int64} (hwidth : T.engine.width = width) {pool : Pool (Arena α)}
    (hpool : ∀ a ∈ pool.idle, a.Ready S) (out : Array α) (before : Int64) (C : Nat) :
    Inv T F W S C (min T.engine.workers (T.engine.chunkCount T.points)).toInt.toNat
      (.flat out width 0) before (start T out pool before, []) := by
  have hidle : ∀ v ∈ (start T out pool before).workers, v = .idle := fun v hv =>
    List.eq_of_mem_replicate hv
  refine ⟨0, start_ledger T out pool before C, ?_⟩
  refine ⟨?_, hpool, fun i v hv => ?_, nofun, fun _ => .inl ?_, nofun, fun i hi => ?_⟩
  · rw [start, hwidth]
    exact .refl _
  · rw [hidle v (List.mem_of_getElem? hv)]
    trivial
  · rw [start, hwidth]
  · cases hidle _ (List.mem_of_getElem? hi)

end Parallel

/-! ### The sequential evaluations -/

section Sequential

variable {A : Arith α} {D W S C K N : Nat} {w : Lowering α} {e : Engine α}
  {jobs : List (Job A D w W S C)} {field : Option (Field α)} {constants out : Array α}
  {a : Arena α} {n : Int64}

/-- An evaluation of an array puts each output of a point in its place and keeps the rest. -/
lemma Staffed.evaluateArray_filled (h : Staffed e jobs) (hpos : 0 < W) (hW : W < 2 ^ 63)
    (hcheck : e.check field constants = .ok ()) (hconstants : constants.size = C) (ha : a.Ready S)
    (hn : 0 ≤ n.toInt) (hout : n.toInt.toNat * W ≤ out.size) (hsize : out.size + 8 < 2 ^ 63) :
    ∃ out' stats, e.evaluateArray A a n field constants out = .ok (out', stats) ∧
      Filled (outputAt jobs (Engine.fieldOr A field) constants) W n.toInt.toNat out out' := by
  obtain ⟨out', stats, hrun, -, hsizes, hvalues, hrest⟩ := h.evaluateRange hpos hW hcheck hconstants
    ha (show 0 ≤ (0 : Int64).toInt by decide) hn hout hsize
  refine ⟨out', stats, hrun, hsizes, fun p hp slot hslot => ?_, fun i hi => hrest i (.inr hi)⟩
  have hback : (Int64.ofNat p).toInt = p := Int64.toInt_ofNat_of_lt (by
    have := n.toInt_lt
    omega)
  have hzero : (0 : Int64).toInt = 0 := Int64.toInt_zero
  have hvalue := hvalues (Int64.ofNat p) (by omega) (by omega) slot hslot
  rwa [hback, Int.toNat_natCast] at hvalue

/-- One chunk of a parallel evaluation, all of it by the same worker. -/
def Engine.chunkRound (A : Arith α) (e : Engine α) (field : Field α) (constants : Array α) (n : Int64) :
    Arena α × Sink α × Stats → Nat → Except Error (Arena α × Sink α × Stats)
  | (a, s, stats), c => do
    let (start, stop) := e.chunkRange n (Int64.ofNat c)
    let (a, s, more) ← e.span A field constants start stop 0 a s
    return (a, s, (stats.add more).add ⟨0, 0, 1⟩)

/-- An output that is long enough has room for every point. -/
lemma Staffed.holds_flat (h : Staffed e jobs) (hout : n.toInt.toNat * W ≤ out.size)
    (hsize : out.size < 2 ^ 63) (p : Int64) (hpos : 0 ≤ p.toInt) (hlt : p.toInt < n.toInt) :
    (Sink.flat out e.width 0).Holds W p := by
  refine ⟨h.width, by rw [Int64.toInt_zero]; omega, ?_, hsize⟩
  rw [Int64.toInt_zero, Int.sub_zero]
  exact (Nat.mul_le_mul_right W (by omega)).trans hout

/-- Chunk after chunk, every point of every chunk is written. -/
lemma Staffed.chunkRounds (h : Staffed e jobs) {chunks : Nat} (hchunked : e.Chunked n K chunks)
    (hconstants : constants.size = C) (ha : a.Ready S) {s : Sink α}
    (hroom : ∀ p : Int64, 0 ≤ p.toInt → p.toInt < n.toInt → s.Holds W p) :
    ∃ a' s' stats, (List.range chunks).foldlM
        (e.chunkRound A (Engine.fieldOr A field) constants n) (a, s, Stats.zero)
          = .ok (a', s', stats) ∧
      stats.chunks = Int64.ofNat chunks ∧
      Sink.Written W (outputAt jobs (Engine.fieldOr A field) constants)
        ((List.range chunks).flatMap fun c => pointCells W (e.chunkPoints n (Int64.ofNat c))) s s' := by
  -- The invariant: the chunks so far have been written and counted, and the arena is still ready.
  have hloop : ∃ y, (List.range chunks).foldlM (e.chunkRound A (Engine.fieldOr A field) constants n)
        (a, s, Stats.zero) = .ok y ∧
      (y.1.Ready S ∧ y.2.2.chunks = Int64.ofNat (List.range chunks).length ∧
        Sink.Written W (outputAt jobs (Engine.fieldOr A field) constants)
          ((List.range chunks).flatMap fun c => pointCells W (e.chunkPoints n (Int64.ofNat c)))
          s y.2.1) := by
    refine foldlM_ok_of_forall (P := fun (pre : List Nat) (y : Arena α × Sink α × Stats) =>
      y.1.Ready S ∧ y.2.2.chunks = Int64.ofNat pre.length ∧
        Sink.Written W (outputAt jobs (Engine.fieldOr A field) constants)
          (pre.flatMap fun c => pointCells W (e.chunkPoints n (Int64.ofNat c)))
          s y.2.1) ⟨ha, rfl, .refl _⟩ ?_
    rintro pre c post ⟨a, s₁, stats⟩ hsplit ⟨ha, hchunks, hwritten⟩
    have hc : c < chunks := List.mem_range.1 (by rw [hsplit]; simp)
    have hroom' : ∀ p ∈ Engine.visited (e.chunkRange n (Int64.ofNat c)).1
        (e.chunkRange n (Int64.ofNat c)).2 0, s₁.Holds W p := by
      intro p hp
      obtain ⟨hpos, hlt, -⟩ := (hchunked.mem c hc p).1 hp
      rw [hwritten.layout.holds_eq]
      exact hroom p hpos hlt
    obtain ⟨a', s', hspan, ha', hwritten'⟩ := h.span (Engine.fieldOr A field) hconstants ha hroom'
    obtain ⟨stats', hspan, hnone⟩ : ∃ stats' : Stats, e.span A (Engine.fieldOr A field) constants
        (e.chunkRange n (Int64.ofNat c)).1 (e.chunkRange n (Int64.ofNat c)).2 0 a s₁
        = .ok (a', s', stats') ∧ stats'.chunks = 0 := ⟨_, hspan, rfl⟩
    refine ⟨(a', s', (stats.add stats').add ⟨0, 0, 1⟩), ?_, ha', ?_, ?_⟩
    · simp only [Engine.chunkRound, hspan, liftM_ok, ok_bind, pure_eq_ok]
    · simp only at hchunks
      simp only [Stats.add, hnone, Int64.add_zero, hchunks, List.length_append,
        List.length_singleton, Int64.ofNat_add]
      rfl
    · rw [List.flatMap_append, List.flatMap_singleton]
      exact hwritten.trans hwritten'
  obtain ⟨⟨a', s', stats⟩, hrun, -, hchunks, hwritten⟩ := hloop
  exact ⟨a', s', stats, hrun, by simpa using hchunks, hwritten⟩

/-- When the points of all chunks are written, the output is filled. -/
lemma Engine.Chunked.filled {chunks : Nat} (hchunked : e.Chunked n K chunks) (hn : 0 ≤ n.toInt)
    {width : Int64} (hwidth : width.toInt = W) {F : Int64 → Nat → α} {s' : Sink α}
    (hwritten : Sink.Written W F
      ((List.range chunks).flatMap fun c => pointCells W (e.chunkPoints n (Int64.ofNat c)))
      (.flat out width 0) s') : Filled F W n.toInt.toNat out (Engine.flatOut s') := by
  obtain ⟨hsizes, hread⟩ := hwritten.layout.flat
  have haddress : ∀ (p : Int64) (slot : Nat), (Sink.flat out width 0).address slot p
      = (0, p.toInt.toNat * W + slot) := by
    intro p slot
    rw [Sink.address, hwidth, Int64.toInt_zero, Int.sub_zero, Int.toNat_natCast]
  refine ⟨hsizes, fun p hp slot hslot => ?_, fun i hi => ?_⟩
  · have hback : (Int64.ofNat p).toInt = p := Int64.toInt_ofNat_of_lt (by
      have := n.toInt_lt
      omega)
    have hk := hchunked.lt (Int64.ofNat p) (by omega) (by omega)
    have hp := (hchunked.mem _ hk (Int64.ofNat p)).2 ⟨by omega, by omega, rfl⟩
    have hhit := hwritten.hit (slot, Int64.ofNat p)
      (List.mem_flatMap.2 ⟨_, List.mem_range.2 hk, mem_pointCells.2 ⟨hslot, hp⟩⟩)
    rwa [haddress, hback, Int.toNat_natCast, hread] at hhit
  · have hmiss := hwritten.miss (0, i) fun cell hcell heq => by
      obtain ⟨c, hc, hcell⟩ := List.mem_flatMap.1 hcell
      obtain ⟨hslot, hp⟩ := mem_pointCells.1 hcell
      obtain ⟨hpos, hlt, -⟩ := (hchunked.mem c (List.mem_range.1 hc) _).1 hp
      have hrow : (cell.2.toInt.toNat + 1) * W ≤ n.toInt.toNat * W :=
        Nat.mul_le_mul_right W (by omega)
      rw [haddress, Prod.mk.injEq] at heq
      rw [Nat.add_mul, Nat.one_mul] at hrow
      omega
    rw [hread] at hmiss
    exact hmiss

/-- A parallel evaluation puts each output of a point in its place and keeps the rest. -/
lemma Staffed.evaluateParallel_filled (h : Staffed e jobs) (hW : W < 2 ^ 63) {chunks : Nat}
    (hchunked : e.Chunked n K chunks) (hcheck : e.check field constants = .ok ())
    (hrange : e.checkRange 0 n out.size = .ok ()) (hconstants : constants.size = C)
    (ha : a.Ready S) (hn : 0 ≤ n.toInt) (hout : n.toInt.toNat * W ≤ out.size)
    (hsize : out.size < 2 ^ 63) :
    ∃ out' stats, e.evaluateParallel A a false n field constants out = .ok (out', stats) ∧
      stats.chunks = Int64.ofNat chunks ∧
      Filled (outputAt jobs (Engine.fieldOr A field) constants) W n.toInt.toNat out out' := by
  have hwidth : e.width.toInt = W := by rw [h.width, Int64.toInt_ofNat_of_lt hW]
  have hcount : (e.chunkCount n).toInt = chunks := by
    have := hchunked.small
    rw [hchunked.count, Int64.toInt_ofNat_of_lt (by omega)]
  obtain ⟨a', s', stats, hrun, hchunks, hwritten⟩ := h.chunkRounds hchunked hconstants ha
    (h.holds_flat hout hsize)
  have hfilled := hchunked.filled hn hwidth hwritten
  rw [Engine.evaluateParallel, hrange, ok_bind, hcheck, ok_bind]
  simp only [Int64.le_iff_toInt_le, Int64.toInt_zero, hcount, Int.toNat_natCast]
  split
  · -- Without chunks there is nothing to do.
    obtain rfl : chunks = 0 := by omega
    refine ⟨out, Stats.zero, rfl, rfl, ?_⟩
    cases hrun
    exact hfilled
  · refine ⟨Engine.flatOut s', stats, ?_, hchunks, hfilled⟩
    rw [if_neg (by decide)]
    refine bind_eq_ok_iff.2 ⟨(a', s', stats), ?_, rfl⟩
    rw [← hrun]
    refine congrFun (congrFun (congrArg List.foldlM ?_) _) _
    funext x c
    obtain ⟨a, s, stats⟩ := x
    rw [Engine.chunkRound]

/-- Evaluating `n` points. -/
def Engine.task (A : Arith α) (e : Engine α) (field : Option (Field α)) (constants : Array α)
    (n : Int64) (blank : α) : Parallel.Task α :=
  ⟨A, e, Engine.fieldOr A field, constants, n, blank⟩

/-- A staffed engine can be given to workers. -/
lemma Staffed.sound (h : Staffed e jobs) (hW : W < 2 ^ 63) {chunks : Nat}
    (hchunked : e.Chunked n K chunks) (hconstants : constants.size = C)
    (hout : n.toInt.toNat * W ≤ out.size) (hsize : out.size < 2 ^ 63) {x : α} {fresh : Arena α}
    (hfresh : e.arena x = .ok fresh) (hready : fresh.Ready S) :
    (e.task A field constants n x).Sound
      (outputAt jobs (Engine.fieldOr A field) constants) W S K chunks (.flat out e.width 0) where
  chunked := hchunked
  width := by
    show e.width.toInt = W
    rw [h.width, Int64.toInt_ofNat_of_lt hW]
  room := h.holds_flat hout hsize
  supply := ⟨fresh, hfresh, hready⟩
  proceeds c a ha := h.actions_proceed (Engine.fieldOr A field) hconstants _ _ 0 ha
  writes c p slot hslot hp := h.mem_cells hslot hp

end Sequential

/-! ### Every schedule -/

namespace Engine

/-- Under every schedule of the workers the evaluation goes through, each chunk is taken at most once,
no element is written by two workers, and every element is as it was or has the value that the
sequential evaluation gives it. When all workers have stopped and nothing was cancelled, the output is
that of the sequential evaluation and as many chunks have been counted as there are, rounded up. The
workers can always go on until they have stopped. -/
theorem parallel_eq_sequential (A : Arith α) {value : Literal → α} {options : Compile.Options}
    {id : Bytes} {system : EquationSystem} {p : Program α} {workers chunk : Int64} {e : Engine α}
    {x : α} {fresh : Arena α} {constants : Array α} (field : Option (Field α)) (out : Array α)
    (n : Int64) (pool : Pool (Arena α)) (before : Int64) (hrhs : ∀ eq ∈ system.equations, Built eq.rhs)
    (hcompile : system.compile value options id = .ok p)
    (htotal : ∀ t ∈ p.trees, t.totalWindow < 2 ^ 31)
    (hmake : make A p workers chunk = .ok e) (hworkers : 0 < workers.toInt)
    (hchunk : 0 < chunk.toInt) (hfresh : e.arena x = .ok fresh)
    (hfield : field.isSome ∨ e.catalog.scalars = [])
    (hconstants : constants.size = e.catalog.constants.length) (hn : 0 ≤ n.toInt)
    (hfit : n.toInt + chunk.toInt + 4 < 2 ^ 63) (hout : n.toInt * e.width.toInt ≤ out.size)
    (hmemory : 8 * out.size < 2 ^ 64) (hpool : ∀ a ∈ pool.idle, a.SameShape fresh) :
    e.chunk.toInt = (chunk.toInt + 3) / 4 * 4 ∧
    ∃ out', (∀ a : Arena α, a.SameShape fresh →
        (∃ stats, e.evaluateArray A a n field constants out = .ok (out', stats)) ∧
        ∃ stats, e.evaluateParallel A a false n field constants out = .ok (out', stats) ∧
          stats.chunks.toInt = (n.toInt + e.chunk.toInt - 1) / e.chunk.toInt) ∧
      ∀ schedule : List Move, ∃ s events,
        Parallel.run (e.task A field constants n x) schedule
          (.start (e.task A field constants n x) out pool before, []) = .ok (s, events) ∧
        (events.filterMap Event.chunk?).Nodup ∧
        (∀ i j k, .wrote i k ∈ events → .wrote j k ∈ events → i = j) ∧
        (flatOut s.sink).size = out.size ∧
        (∀ k : Nat, (flatOut s.sink)[k]? = out[k]? ∨ (flatOut s.sink)[k]? = out'[k]?) ∧
        ((∀ v ∈ s.workers, v.Stopped) → .cancel ∉ schedule → flatOut s.sink = out' ∧
          s.chunks = before + Int64.ofInt ((n.toInt + e.chunk.toInt - 1) / e.chunk.toInt)) ∧
        ∃ more s' events', .cancel ∉ more ∧
          Parallel.run (e.task A field constants n x) more (s, events) = .ok (s', events') ∧
          ∀ v ∈ s'.workers, v.Stopped := by
  obtain ⟨sides, pending, c, hcompiled⟩ := system.compile_eq_ok hcompile
  have hwf : ∀ eq ∈ system.equations, eq.rhs.WellFormed := fun eq heq => (hrhs eq heq).wellFormed
  obtain ⟨jobs, h, hpending⟩ := exists_staffed hcompiled hwf htotal hmake
  have hready : ∀ {a : Arena α}, a.SameShape fresh → a.Ready p.stackDepth.toInt.toNat :=
    ready hmake hfresh
  have hcatalog : e.catalog = c := h.catalog
  rw [hcatalog] at hfield hconstants
  have hpos : 0 < p.width.toInt.toNat := width_pos hcompiled hwf hpending
  have hsmall : p.width.toInt.toNat < 2 ^ 63 := by
    have := p.width.toInt_lt
    omega
  have hwidth : e.width.toInt = p.width.toInt.toNat := by
    rw [h.width, Int64.toInt_ofNat_of_lt hsmall]
  have hroom : n.toInt.toNat * p.width.toInt.toNat ≤ out.size := by
    have hcast : ((n.toInt.toNat * p.width.toInt.toNat : Nat) : Int) = n.toInt * e.width.toInt := by
      rw [Nat.cast_mul, Int.toNat_of_nonneg hn, hwidth]
    omega
  have hmore := Nat.le_mul_of_pos_right n.toInt.toNat hpos
  obtain ⟨hworkers', hchunk'⟩ := make_options hmake hworkers hchunk
  have hK : e.chunk.toInt = (chunk.toInt + 3) / 4 * 4 := by
    rw [hchunk', alignUp_lanes (by omega) (by omega)]
  -- From here on chunks are counted in natural numbers: `K` points each, `C` of them.
  obtain ⟨K, hKlt, hKeq⟩ := exists_eq_ofNat (show 0 ≤ e.chunk.toInt by omega)
  have hback : e.chunk.toInt = K := by rw [hKeq, Int64.toInt_ofNat_of_lt hKlt]
  have hchunked := chunked hKeq (by omega) hn (by omega) (by omega)
  have hceil : (((n.toInt.toNat + K - 1) / K : Nat) : Int)
      = (n.toInt + e.chunk.toInt - 1) / e.chunk.toInt := by
    rw [Int.natCast_div, hback, Nat.cast_sub (by omega), Nat.cast_add, Int.toNat_of_nonneg hn]
    rfl
  generalize (n.toInt.toNat + K - 1) / K = C at hchunked hceil
  have hC := hchunked.small
  have hcheck : e.check field constants = .ok () := h.check rfl (by rwa [hcatalog]) hconstants
  -- `Filled` determines every element, so two evaluations that fill the output agree.
  obtain ⟨out', stats, harray, hfilled⟩ := h.evaluateArray_filled hpos hsmall hcheck hconstants
    (hready (.refl fresh)) hn hroom (by omega)
  rw [← hceil]
  refine ⟨hK, out', fun a ha => ⟨?_, ?_⟩, fun schedule => ?_⟩
  · obtain ⟨out'', stats', hrun, hfilled'⟩ := h.evaluateArray_filled hpos hsmall hcheck hconstants
      (hready ha) hn hroom (by omega)
    rw [hfilled.unique hpos hfilled']
    exact ⟨stats', hrun⟩
  · have hrange : e.checkRange 0 n out.size = .ok () := by
      obtain ⟨⟨⟩, hrange, -⟩ := bind_eq_ok_iff.1 harray
      exact hrange
    obtain ⟨out'', stats', hrun, hchunks, hfilled'⟩ := h.evaluateParallel_filled hsmall hchunked
      hcheck hrange hconstants (hready ha) hn hroom (by omega)
    rw [hfilled.unique hpos hfilled', ← Int64.toInt_ofNat_of_lt (by omega : C < 2 ^ 63), ← hchunks]
    exact ⟨stats', hrun, rfl⟩
  have hsound : (e.task A field constants n x).Sound _ _ _ K C (.flat out e.width 0) :=
    h.sound hsmall hchunked hconstants hroom (by omega) hfresh (hready (.refl fresh))
  have hL : (min e.workers (e.chunkCount n)).toInt = min workers.toInt C := by
    rw [toInt_min, hworkers', hchunked.count, Int64.toInt_ofNat_of_lt (by omega)]
  have hfew : C + (min e.workers (e.chunkCount n)).toInt.toNat < 2 ^ 63 := by omega
  -- The invariant holds when the workers start, and a run of the schedule keeps it.
  have hstart := Parallel.start_inv (T := e.task A field constants n x)
    (F := outputAt jobs (fieldOr A field) constants) (W := p.width.toInt.toNat) rfl
    (fun a ha => hready (hpool a ha)) out before C
  obtain ⟨⟨s, events⟩, hrun, hinv⟩ := hstart.run hsound hfew schedule
  have hbooks := hinv
  obtain ⟨m, hledger, hwork⟩ := hbooks
  refine ⟨s, events, hrun, hledger.nodup (by omega), fun i j k => hwork.wrote_unique hsound hledger,
    hwork.layout.flat.1, hwork.element_cases hwidth hfilled, fun hstopped hcancel => ?_, ?_⟩
  · have hfinished := hwork.finished (Parallel.cancelled_eq hrun hcancel) hstopped
    obtain ⟨hdone, hchunks⟩ := hinv.filled hsound hwidth hn (by omega) hfinished
    refine ⟨hdone.unique hpos hfilled, ?_⟩
    rw [hchunks, Int64.ofInt_eq_ofNat]
  · obtain ⟨more, ⟨s', events'⟩, hcancel, hrest, hend⟩ := hinv.exists_end hsound hfew
    exact ⟨more, s', events', hcancel, hrest, hend⟩

/-- Two workers and five points: a schedule that lets all of them stop leaves the array of the
sequential evaluation. -/
theorem parallel_eq_sequential_transport :
    ∃ p e fresh out' stats schedule s events,
      transport.compile (fun _ => (0 : Int)) ⟨false, true⟩ [] = .ok p ∧
      make integers p 2 3 = .ok e ∧ e.arena 0 = .ok fresh ∧
      e.evaluateArray integers fresh 5 (some fun id point => id.toInt - point.toInt) #[1, 2, 3, 4]
        (Array.replicate 11 7) = .ok (out', stats) ∧
      Parallel.run (e.task integers (some fun id point => id.toInt - point.toInt) #[1, 2, 3, 4] 5 0)
        schedule (.start (e.task integers (some fun id point => id.toInt - point.toInt)
          #[1, 2, 3, 4] 5 0) (Array.replicate 11 7) ⟨2, []⟩ 9, []) = .ok (s, events) ∧
      (∀ v ∈ s.workers, v.Stopped) ∧ flatOut s.sink = out' ∧ s.chunks = 11 := by
  obtain ⟨p, e, fresh, hcompile, htotal, hmake, hfresh, hsize, hwidth⟩ := transport_accepted 2 3
  obtain ⟨hchunk, out', hsequential, hschedule⟩ := parallel_eq_sequential integers
    (some fun id point => id.toInt - point.toInt) (Array.replicate 11 7) 5 ⟨2, []⟩ 9 transport_built
    hcompile htotal hmake (by decide) (by decide) hfresh (.inl rfl) hsize (by decide) (by decide)
    (by rw [hwidth]; decide) (by decide) (List.forall_mem_nil _)
  obtain ⟨stats, harray⟩ := (hsequential fresh (.refl fresh)).1
  -- All workers go on from the beginning until they have stopped.
  obtain ⟨s₀, events₀, hrun₀, -, -, -, -, -, more, s, events, hcancel, hrun, hstopped⟩ :=
    hschedule []
  cases hrun₀
  obtain ⟨s', events', hrun', -, -, -, -, hend, -⟩ := hschedule more
  rw [hrun] at hrun'
  cases hrun'
  obtain ⟨hsame, hchunks⟩ := hend hstopped hcancel
  refine ⟨p, e, fresh, out', stats, more, s, events, hcompile, hmake, hfresh, harray, hrun,
    hstopped, hsame, ?_⟩
  rw [hchunks, hchunk]
  rfl

end Engine

end Indicial
