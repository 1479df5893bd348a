import Indicial.Proofs.Engine.Actions
import Mathlib.Algebra.Order.BigOperators.Group.List

/-!
# Workers

A parallel evaluation hands out chunks of points to workers. All of them count the same counter up to
get a chunk, write to the same output and take arenas from the same pool; an arena is private for as
long as a worker has it. `Parallel.step` is one step of a worker, a write of a single number being one
step, and `Parallel.run` makes the moves of any schedule, in which the evaluation may be cancelled at
any point. Workers look out for that only between chunks.

Two invariants hold whatever the schedule. The `Ledger` is about the counters: chunks are taken in
order, each once. `Work` is about the output: an element is as it was or has its value, and what is
still missing of a chunk is going to be written by the worker that took it. So every schedule can be
carried out (`Inv.run`) and be continued until all workers have stopped (`Inv.exists_end`).
-/

namespace Indicial

variable {α : Type}

/-! ### Chunks -/

namespace Engine

/-- The points of chunk `c`, in the order in which they are evaluated. -/
def chunkPoints (e : Engine α) (n c : Int64) : List Int64 :=
  visited (e.chunkRange n c).1 (e.chunkRange n c).2 0

/-- The first `n` points fall into `C` chunks of `K` points. -/
structure Chunked (e : Engine α) (n : Int64) (K C : Nat) : Prop where
  count : e.chunkCount n = Int64.ofNat C
  small : C < 2 ^ 62
  mem : ∀ c < C, ∀ p, p ∈ e.chunkPoints n (Int64.ofNat c) ↔
    0 ≤ p.toInt ∧ p.toInt < n.toInt ∧ p.toInt.toNat / K = c
  lt : ∀ p : Int64, 0 ≤ p.toInt → p.toInt < n.toInt → p.toInt.toNat / K < C

/-- Chunks are whole batches, unless rounding up wraps around. -/
lemma alignUp_lanes {chunk : Int64} (hpos : 0 ≤ chunk.toInt) (hfit : chunk.toInt ≤ 2 ^ 63 - 4) :
    (Layout.alignUp chunk Layout.lanes).toInt = (chunk.toInt + 3) / 4 * 4 := by
  obtain ⟨K, hK, rfl⟩ := exists_eq_ofNat hpos
  have hback : (Int64.ofNat K).toInt = K := Int64.toInt_ofNat_of_lt hK
  have hmod : Int64.ofNat K % Layout.lanes = Int64.ofNat (K % 4) := by
    apply Int64.toInt_inj.1
    rw [Int64.toInt_mod, hback, Int64.toInt_ofNat_of_lt (by omega)]
    rfl
  rw [hback] at hfit ⊢
  rw [Layout.alignUp, hmod]
  split
  · rename_i hne
    have hrest : K % 4 ≠ 0 := fun hzero => hne (by rw [hzero]; rfl)
    -- The sum may wrap around and the difference back again.
    have hsum : Int64.ofNat K + Layout.lanes - Int64.ofNat (K % 4) = Int64.ofNat (K + 4 - K % 4) := by
      rw [Int64.sub_eq_iff_eq_add, ← Int64.ofNat_add, show K + 4 - K % 4 + K % 4 = K + 4 by omega,
        Int64.ofNat_add]
      rfl
    rw [hsum, Int64.toInt_ofNat_of_lt (by omega)]
    omega
  · rename_i heq
    have hzero := congrArg Int64.toInt (not_not.1 heq)
    rw [Int64.toInt_ofNat_of_lt (by omega), Int64.toInt_zero] at hzero
    rw [hback]
    omega

/-- The options that an engine works with. -/
lemma make_options {A : Arith α} {p : Program α} {workers chunk : Int64} {e : Engine α}
    (h : make A p workers chunk = .ok e) (hworkers : 0 < workers.toInt) (hchunk : 0 < chunk.toInt) :
    e.workers = workers ∧ e.chunk = Layout.alignUp chunk Layout.lanes := by
  obtain ⟨⟨⟩, -, h⟩ := bind_eq_ok_iff.1 h
  obtain ⟨plans, -, h⟩ := bind_eq_ok_iff.1 h
  cases h
  have hpos : ∀ {n : Int64}, 0 < n.toInt → 0 < n := fun hn => Int64.lt_iff_toInt_lt.2 hn
  exact ⟨if_pos (hpos hworkers), by rw [if_pos (hpos hchunk)]⟩

/-- A chunk has `K` points, and the sum with the number `N` of all points is almost a word: the ends of
chunks do not wrap around. -/
structure Fits (e : Engine α) (N K : Nat) : Prop where
  chunk : e.chunk = Int64.ofNat K
  pos : 0 < K
  chunk_lt : K < 2 ^ 63
  points_lt : N < 2 ^ 63
  sum_le : N + K ≤ 2 ^ 63

section Chunks

variable {e : Engine α} {N K c : Nat}

/-- The chunks below a quotient rounded up are those that begin in time. -/
lemma lt_ceil_iff (hpos : 0 < K) : c < (N + K - 1) / K ↔ c * K < N := by
  rw [← Nat.succ_le_iff, Nat.le_div_iff_mul_le hpos, Nat.succ_mul]
  omega

/-- The number of chunks is rounded up. -/
lemma Fits.chunkCount_eq (h : e.Fits N K) :
    e.chunkCount (Int64.ofNat N) = Int64.ofNat ((N + K - 1) / K) := by
  obtain ⟨hchunk, hpos, hK, -, hfit⟩ := h
  -- The sum may wrap around and the difference back again.
  have hsum : Int64.ofNat N + e.chunk - 1 = Int64.ofNat (N + K - 1) := by
    rw [Int64.sub_eq_iff_eq_add, hchunk, ← Int64.ofNat_add, show N + K = N + K - 1 + 1 by omega,
      Int64.ofNat_add]
    rfl
  have hback : (Int64.ofNat (N + K - 1)).toInt = ((N + K - 1 : Nat) : Int) :=
    Int64.toInt_ofNat_of_lt (by omega)
  have hmin : Int64.ofNat (N + K - 1) ≠ Int64.minValue := by
    intro heq
    rw [heq] at hback
    have : Int64.minValue.toInt = -2 ^ 63 := rfl
    omega
  have hle : (N + K - 1) / K ≤ N + K - 1 := Nat.div_le_self _ _
  apply Int64.toInt_inj.1
  rw [chunkCount, hsum, Int64.toInt_div_of_ne_left _ _ hmin, hback, hchunk,
    Int64.toInt_ofNat_of_lt hK, Int64.toInt_ofNat_of_lt (by omega),
    Int.tdiv_eq_ediv_of_nonneg (Int.natCast_nonneg _), Int.natCast_div]

/-- A chunk ends where the next one begins or with the last point. -/
lemma Fits.chunkRange_eq (h : e.Fits N K) (hc : c * K < N) :
    e.chunkRange (Int64.ofNat N) (Int64.ofNat c)
      = (Int64.ofNat (c * K), Int64.ofNat (min (c * K + K) N)) := by
  obtain ⟨hchunk, -, -, hN, hfit⟩ := h
  have hmin : min (Int64.ofNat (c * K + K)) (Int64.ofNat N) = Int64.ofNat (min (c * K + K) N) := by
    apply Int64.toInt_inj.1
    rw [toInt_min, Int64.toInt_ofNat_of_lt (by omega), Int64.toInt_ofNat_of_lt hN,
      Int64.toInt_ofNat_of_lt (by omega)]
    omega
  rw [chunkRange, hchunk, ← Int64.ofNat_mul, ← Int64.ofNat_add, hmin]

end Chunks

/-- Chunks that end in time partition the points. -/
lemma chunked {e : Engine α} {n : Int64} {K : Nat} (hchunk : e.chunk = Int64.ofNat K)
    (hpos : 1 < K) (hn : 0 ≤ n.toInt) (hfit : n.toInt + K < 2 ^ 63) (hroom : n.toInt + 8 < 2 ^ 63) :
    e.Chunked n K ((n.toInt.toNat + K - 1) / K) := by
  obtain ⟨N, hN, rfl⟩ := exists_eq_ofNat hn
  rw [Int64.toInt_ofNat_of_lt hN] at hfit hroom
  have hback := Int64.toInt_ofNat_of_lt hN
  have hfits : e.Fits N K := ⟨hchunk, by omega, by omega, hN, by omega⟩
  rw [hback, Int.toNat_natCast]
  refine ⟨hfits.chunkCount_eq, ?_, fun c hc p => ?_, fun p hpos hp => ?_⟩
  · rw [Nat.div_lt_iff_lt_mul (by omega)]
    omega
  · have hlt := (lt_ceil_iff (by omega)).1 hc
    rw [chunkPoints, hfits.chunkRange_eq hlt]
    dsimp only
    have hstart : (Int64.ofNat (c * K)).toInt = ((c * K : Nat) : Int) :=
      Int64.toInt_ofNat_of_lt (by omega)
    have hstop : (Int64.ofNat (min (c * K + K) N)).toInt = ((min (c * K + K) N : Nat) : Int) :=
      Int64.toInt_ofNat_of_lt (by omega)
    rw [mem_visited (by omega) (by omega) (by decide) (by omega), hstart, hstop]
    constructor
    · rintro ⟨hlow, hhigh⟩
      refine ⟨by omega, by omega, (Nat.div_eq_iff (by omega)).2 ⟨by omega, by omega⟩⟩
    · rintro ⟨hlow, hhigh, hc⟩
      have := (Nat.div_eq_iff (by omega)).1 hc
      omega
  · rw [lt_ceil_iff (by omega)]
    have := Nat.div_mul_le_self p.toInt.toNat K
    omega

/-- Evaluating chunk `c`. -/
def chunkActions (e : Engine α) (n c : Int64) : List (Action α) :=
  e.actions (e.chunkRange n c).1 (e.chunkRange n c).2 0

/-- Where an output of a point stands in the output vector. -/
def element (e : Engine α) (slot : Int32) (point : Int64) : Int :=
  point.toInt * e.width.toInt + slot.toInt

end Engine

/-! ### Workers -/

/-- A worker, by what it does next. -/
inductive Worker (α : Type) where
  /-- Takes an arena. -/
  | idle
  /-- Asks whether the evaluation is cancelled. -/
  | checking (a : Arena α)
  /-- Takes a chunk. -/
  | fetching (a : Arena α)
  /-- Does the rest of the actions for a chunk. -/
  | working (a : Arena α) (chunk : Int64) (rest : List (Action α))
  /-- Nothing: no chunk was left. -/
  | finished
  /-- Nothing: the evaluation was cancelled. -/
  | aborted

/-- What can be seen of an evaluation from outside. -/
inductive Event where
  | took (worker : Nat) (chunk : Int64)
  | wrote (worker : Nat) (element : Int)
deriving DecidableEq

/-- The number of the chunk that is taken. -/
def Event.chunk? : Event → Option Int64
  | took _ chunk => some chunk
  | wrote _ _ => none

/-- A parallel evaluation under way. The workers share everything but their arenas. -/
structure Parallel (α : Type) where
  /-- The number of the next chunk. -/
  next : Int64
  /-- How many chunks have been evaluated, these and earlier ones. -/
  chunks : Int64
  cancelled : Bool
  sink : Sink α
  pool : Pool (Arena α)
  workers : List (Worker α)

/-- One move of a schedule. -/
inductive Move where
  /-- A worker does what it does next. -/
  | worker (i : Nat)
  /-- The evaluation is cancelled. -/
  | cancel
deriving DecidableEq

namespace Parallel

/-- What an evaluation is given. -/
structure Task (α : Type) where
  arith : Arith α
  engine : Engine α
  field : Field α
  constants : Array α
  /-- The number of points. -/
  points : Int64
  /-- What new arenas are filled with. -/
  blank : α

/-- The beginning: no worker has an arena yet. There are no more workers than chunks. -/
def start (T : Task α) (out : Array α) (pool : Pool (Arena α)) (chunks : Int64) : Parallel α where
  next := 0
  chunks := chunks
  cancelled := false
  sink := .flat out T.engine.width 0
  pool := pool
  workers := List.replicate (min T.engine.workers (T.engine.chunkCount T.points)).toInt.toNat .idle

/-- The evaluation with one worker changed. -/
def assign (s : Parallel α) (i : Nat) (v : Worker α) : Parallel α :=
  { s with workers := s.workers.set i v }

/-- An arena from the pool, or a new one. -/
def takeArena (T : Task α) (pool : Pool (Arena α)) : Except Fault (Arena α × Pool (Arena α)) :=
  match pool.get? with
  | some taken => .ok taken
  | none => do return (← T.engine.arena T.blank, pool)

/-- Lets a worker do what it does next. -/
def step (T : Task α) (s : Parallel α) (i : Nat) : Except Fault (Parallel α × List Event) :=
  match s.workers[i]? with
  | none | some .finished | some .aborted => .ok (s, [])
  | some .idle => do
    let (a, pool) ← takeArena T s.pool
    return ({ s.assign i (.checking a) with pool }, [])
  | some (.checking a) =>
    if s.cancelled then .ok ({ s.assign i .aborted with pool := s.pool.put a }, [])
    else .ok (s.assign i (.fetching a), [])
  | some (.fetching a) =>
    if T.engine.chunkCount T.points ≤ s.next then
      .ok ({ s.assign i .finished with next := s.next + 1, pool := s.pool.put a }, [])
    else .ok ({ s.assign i (.working a s.next (T.engine.chunkActions T.points s.next)) with
      next := s.next + 1 }, [.took i s.next])
  | some (.working a _ []) => .ok ({ s.assign i (.checking a) with chunks := s.chunks + 1 }, [])
  | some (.working a c (act :: rest)) => do
    let (a, sink) ← act.exec T.arith T.field T.constants (a, s.sink)
    return ({ s.assign i (.working a c rest) with sink },
      act.cell?.toList.map fun cell => .wrote i (T.engine.element cell.1 cell.2))

/-- Makes a move and records what could be seen. -/
def move (T : Task α) (x : Parallel α × List Event) : Move → Except Fault (Parallel α × List Event)
  | .worker i => do
    let (s, more) ← x.1.step T i
    return (s, x.2 ++ more)
  | .cancel => .ok ({ x.1 with cancelled := true }, x.2)

/-- Makes the moves of a schedule. -/
def run (T : Task α) (schedule : List Move) (x : Parallel α × List Event) :
    Except Fault (Parallel α × List Event) :=
  schedule.foldlM (move T) x

end Parallel

/-- Whether a worker has nothing left to do. -/
def Worker.Stopped : Worker α → Prop
  | finished | aborted => True
  | _ => False

namespace Parallel

variable {T : Task α} {s s' : Parallel α} {i : Nat} {events more : List Event}

/-- All that a worker can do to an evaluation. -/
inductive Change (T : Task α) (s : Parallel α) (i : Nat) : Parallel α → List Event → Prop where
  | none (h : ∀ v, s.workers[i]? = some v → v.Stopped) : Change T s i s []
  | takeArena {a : Arena α} {pool : Pool (Arena α)} (hi : s.workers[i]? = some .idle)
      (htake : takeArena T s.pool = .ok (a, pool)) :
      Change T s i { s.assign i (.checking a) with pool } []
  | abort {a : Arena α} (hi : s.workers[i]? = some (.checking a)) (hcancelled : s.cancelled = true) :
      Change T s i { s.assign i .aborted with pool := s.pool.put a } []
  | goOn {a : Arena α} (hi : s.workers[i]? = some (.checking a)) :
      Change T s i (s.assign i (.fetching a)) []
  | finish {a : Arena α} (hi : s.workers[i]? = some (.fetching a))
      (hover : T.engine.chunkCount T.points ≤ s.next) :
      Change T s i { s.assign i .finished with next := s.next + 1, pool := s.pool.put a } []
  | fetch {a : Arena α} (hi : s.workers[i]? = some (.fetching a))
      (hleft : ¬T.engine.chunkCount T.points ≤ s.next) :
      Change T s i { s.assign i (.working a s.next (T.engine.chunkActions T.points s.next)) with
        next := s.next + 1 } [.took i s.next]
  | complete {a : Arena α} {c : Int64} (hi : s.workers[i]? = some (.working a c [])) :
      Change T s i { s.assign i (.checking a) with chunks := s.chunks + 1 } []
  | act {a a' : Arena α} {c : Int64} {act : Action α} {rest : List (Action α)} {sink : Sink α}
      (hi : s.workers[i]? = some (.working a c (act :: rest)))
      (hexec : act.exec T.arith T.field T.constants (a, s.sink) = .ok (a', sink)) :
      Change T s i { s.assign i (.working a' c rest) with sink }
        (act.cell?.toList.map fun cell => .wrote i (T.engine.element cell.1 cell.2))

/-- A step of a worker is one of the listed changes. -/
lemma change_of_step (h : s.step T i = .ok (s', more)) : Change T s i s' more := by
  rw [step] at h
  split at h
  case h_1 hi => cases h; exact .none (by simp [hi])
  case h_2 hi => cases h; exact .none (by simp [hi, Worker.Stopped])
  case h_3 hi => cases h; exact .none (by simp [hi, Worker.Stopped])
  case h_4 hi =>
    obtain ⟨⟨a, pool⟩, htake, h⟩ := bind_eq_ok_iff.1 h
    cases h
    exact .takeArena hi htake
  case h_5 a hi =>
    split at h
    case isTrue hcancelled => cases h; exact .abort hi hcancelled
    case isFalse => cases h; exact .goOn hi
  case h_6 a hi =>
    split at h
    case isTrue hover => cases h; exact .finish hi hover
    case isFalse hleft => cases h; exact .fetch hi hleft
  case h_7 a c hi => cases h; exact .complete hi
  case h_8 a c act rest hi =>
    obtain ⟨⟨a', sink⟩, hexec, h⟩ := bind_eq_ok_iff.1 h
    cases h
    exact .act hi hexec

/-! ### Counting -/

/-- The workers of an evaluation, each with a weight. -/
def count (f : Worker α → Nat) (s : Parallel α) : Nat := (s.workers.map f).sum

/-- Replacing an entry of a list changes a sum by the difference of the two. -/
lemma sum_map_set {β : Type} (f : β → Nat) {l : List β} {i : Nat} {v : β} (hi : l[i]? = some v)
    (v' : β) : ((l.set i v').map f).sum + f v = (l.map f).sum + f v' := by
  induction l generalizing i with
  | nil => cases hi
  | cons x l ih =>
    cases i with
    | zero =>
      cases hi
      simp only [List.set_cons_zero, List.map_cons, List.sum_cons]
      omega
    | succ i =>
      have := ih hi
      simp only [List.set_cons_succ, List.map_cons, List.sum_cons]
      omega

/-- Replacing a worker changes a count by the difference of the two. -/
lemma count_assign (f : Worker α → Nat) {v : Worker α} (hi : s.workers[i]? = some v)
    (v' : Worker α) : (s.assign i v').count f + f v = s.count f + f v' :=
  sum_map_set f hi v'

/-- Counts the workers that found no chunk left. -/
def finishes : Worker α → Nat
  | .finished => 1
  | _ => 0

/-- Counts the workers that evaluate a chunk. -/
def works : Worker α → Nat
  | .working .. => 1
  | _ => 0

/-- No more workers have finished than there are. -/
lemma count_finishes_le (s : Parallel α) : s.count finishes ≤ s.workers.length := by
  have hle := List.sum_le_card_nsmul (s.workers.map finishes) 1 fun k hk => by
    obtain ⟨v, -, rfl⟩ := List.mem_map.1 hk
    cases v <;> simp [finishes]
  simpa [count] using hle

/-- The books of `L` workers after `m` chunks have been asked for: the chunks are taken in order, and
those that are not being evaluated count as evaluated. -/
structure Ledger (C L : Nat) (before : Int64) (m : Nat) (s : Parallel α) (events : List Event) :
    Prop where
  length : s.workers.length = L
  next : s.next = Int64.ofNat m
  bound : m ≤ C + s.count finishes
  exhausted : 0 < s.count finishes → C < m
  taken : events.filterMap Event.chunk? = (List.range (min m C)).map Int64.ofNat
  chunks : s.chunks + Int64.ofNat (s.count works) = before + Int64.ofNat (min m C)

/-- The books after a worker has changed and no chunk was asked for or handed in. -/
lemma Ledger.same {C L m : Nat} {before : Int64} (h : Ledger C L before m s events)
    {v v' : Worker α} (hi : s.workers[i]? = some v) (hworkers : s'.workers = s.workers.set i v')
    (hfinishes : finishes v' = finishes v) (hworks : works v' = works v) (hnext : s'.next = s.next)
    (hchunks : s'.chunks = s.chunks) (hmore : more.filterMap Event.chunk? = []) :
    Ledger C L before m s' (events ++ more) := by
  have hcount : ∀ f : Worker α → Nat, f v' = f v → s'.count f = s.count f := by
    intro f hf
    have := count_assign f hi v'
    rw [count, hworkers]
    rw [count, assign] at this
    simp only at this
    omega
  refine ⟨?_, ?_, ?_, ?_, ?_, ?_⟩
  · rw [hworkers, List.length_set, h.length]
  · rw [hnext, h.next]
  · rw [hcount _ hfinishes]
    exact h.bound
  · rw [hcount _ hfinishes]
    exact h.exhausted
  · rw [List.filterMap_append, hmore, List.append_nil, h.taken]
  · rw [hchunks, hcount _ hworks, h.chunks]

/-- How many moves a worker has left before it takes another chunk. -/
def left : Worker α → Nat
  | .idle => 3
  | .checking _ => 2
  | .fetching _ => 1
  | .working _ _ rest => rest.length + 3
  | .finished | .aborted => 0

/-- The books stay in order. A worker that has not stopped brings the evaluation closer to its end:
fewer chunks are left to be taken, or as many and fewer moves until then. -/
theorem Ledger.change {C L m : Nat} {before : Int64} (h : Ledger C L before m s events)
    (hC : T.engine.chunkCount T.points = Int64.ofNat C) (hsmall : C + L < 2 ^ 63)
    (hchange : Change T s i s' more) :
    ∃ m', Ledger C L before m' s' (events ++ more) ∧
      ((∃ v, s.workers[i]? = some v ∧ ¬v.Stopped) →
        Prod.Lex (· < ·) (· < ·) (C - m', s'.count left) (C - m, s.count left)) := by
  have hbound := h.bound
  have hfinished := s.count_finishes_le
  rw [h.length] at hfinished
  -- The counter goes past the number of chunks, once for each worker that finds nothing left, and
  -- the bound `hbound` keeps it below the largest word.
  have hover : T.engine.chunkCount T.points ≤ s.next ↔ C ≤ m := by
    rw [hC, h.next, Int64.le_iff_toInt_le, Int64.toInt_ofNat_of_lt (by omega),
      Int64.toInt_ofNat_of_lt (by omega), Nat.cast_le]
  -- A move of a worker that takes no chunk leaves the first component and lowers the second.
  have hcloser : ∀ {v v' : Worker α} {s' : Parallel α}, s.workers[i]? = some v →
      s'.workers = s.workers.set i v' → left v' < left v →
      Prod.Lex (· < ·) (· < ·) (C - m, s'.count left) (C - m, s.count left) := by
    intro v v' s' hi hworkers hleft
    have := count_assign left hi v'
    refine .right _ ?_
    rw [count, hworkers]
    rw [count, assign] at this
    simp only at this
    omega
  cases hchange with
  | none hstopped =>
    refine ⟨m, by rwa [List.append_nil], ?_⟩
    rintro ⟨v, hv, hmoves⟩
    exact absurd (hstopped v hv) hmoves
  | takeArena hi _ =>
    exact ⟨m, h.same hi rfl rfl rfl rfl rfl rfl, fun _ => hcloser hi rfl (by simp [left])⟩
  | abort hi _ =>
    exact ⟨m, h.same hi rfl rfl rfl rfl rfl rfl, fun _ => hcloser hi rfl (by simp [left])⟩
  | goOn hi =>
    exact ⟨m, h.same hi rfl rfl rfl rfl rfl rfl, fun _ => hcloser hi rfl (by simp [left])⟩
  | act hi hexec =>
    refine ⟨m, h.same hi rfl rfl rfl rfl rfl ?_, fun _ => hcloser hi rfl (by simp [left])⟩
    simp [Event.chunk?]
  | @finish a hi hlast =>
    -- The counter moves on although no chunk is taken: the minimum with `C` hides it.
    have hm : C ≤ m := hover.1 hlast
    have hone := count_assign finishes hi .finished
    have hsame := count_assign works hi .finished
    simp only [finishes, works, Nat.add_zero] at hone hsame
    refine ⟨m + 1, ⟨?_, ?_, ?_, fun _ => by omega, ?_, ?_⟩, fun _ => ?_⟩
    · rw [← h.length]
      exact List.length_set
    · rw [h.next, Int64.ofNat_add]
      rfl
    · exact le_trans (by omega) (le_of_eq (congrArg (C + ·) hone.symm))
    · rw [List.append_nil, h.taken, Nat.min_eq_right hm, Nat.min_eq_right (by omega)]
    · rw [Nat.min_eq_right (by omega : C ≤ m + 1), ← Nat.min_eq_right hm, ← h.chunks]
      exact congrArg (fun k => s.chunks + Int64.ofNat k) hsame
    · rw [show C - (m + 1) = C - m by omega]
      exact hcloser hi rfl (by simp [left])
  | @fetch a hi hleft =>
    have hm : m < C := by
      rw [hover] at hleft
      omega
    have hone := count_assign works hi (.working a s.next (T.engine.chunkActions T.points s.next))
    have hsame := count_assign finishes hi
      (.working a s.next (T.engine.chunkActions T.points s.next))
    simp only [finishes, works, Nat.add_zero] at hone hsame
    refine ⟨m + 1, ⟨?_, ?_, by omega, ?_, ?_, ?_⟩, fun _ => .left _ _ (by omega)⟩
    · rw [← h.length]
      exact List.length_set
    · rw [h.next, Int64.ofNat_add]
      rfl
    · intro hpos
      have := h.exhausted (lt_of_lt_of_eq hpos hsame)
      omega
    · rw [List.filterMap_append, h.taken, Nat.min_eq_left hm.le, Nat.min_eq_left hm,
        List.range_succ, List.map_append, h.next]
      rfl
    · have hbooks := h.chunks
      rw [Nat.min_eq_left hm.le] at hbooks
      rw [Nat.min_eq_left (show m + 1 ≤ C from hm), Int64.ofNat_add, ← Int64.add_assoc, ← hbooks,
        Int64.add_assoc, ← Int64.ofNat_add]
      exact congrArg (fun k => s.chunks + Int64.ofNat k) hone
  | @complete a c hi =>
    have hone := count_assign works hi (.checking a)
    have hsame := count_assign finishes hi (.checking a)
    simp only [finishes, works, Nat.add_zero] at hone hsame
    refine ⟨m, ⟨?_, h.next, ?_, fun hpos => h.exhausted (lt_of_lt_of_eq hpos hsame), ?_, ?_⟩,
      fun _ => hcloser hi rfl (by simp [left])⟩
    · rw [← h.length]
      exact List.length_set
    · exact le_trans hbound (le_of_eq (congrArg (C + ·) hsame.symm))
    · rw [List.append_nil, h.taken]
    · rw [← h.chunks, ← hone, Int64.ofNat_add, Int64.add_comm (Int64.ofNat _) (Int64.ofNat 1),
        ← Int64.add_assoc]
      rfl

/-- At the beginning nothing is taken. -/
lemma start_ledger (T : Task α) (out : Array α) (pool : Pool (Arena α)) (before : Int64) (C : Nat) :
    Ledger C (min T.engine.workers (T.engine.chunkCount T.points)).toInt.toNat before 0
      (start T out pool before) [] := by
  have hcount : ∀ f : Worker α → Nat, f .idle = 0 → (start T out pool before).count f = 0 := by
    intro f hf
    refine List.sum_eq_zero fun k hk => ?_
    obtain ⟨v, hv, rfl⟩ := List.mem_map.1 hk
    rw [List.eq_of_mem_replicate hv, hf]
  refine ⟨List.length_replicate, rfl, by omega, ?_, ?_, ?_⟩
  · rw [hcount finishes rfl]
    exact fun h => absurd h (lt_irrefl 0)
  · rw [Nat.zero_min]
    rfl
  · rw [hcount works rfl, Nat.zero_min]
    rfl

/-- When every worker has found that no chunk is left, all chunks have been taken and handed in. -/
lemma Ledger.done {C L m : Nat} {before : Int64} (h : Ledger C L before m s events)
    (hL : L = 0 → C = 0) (hall : ∀ v ∈ s.workers, v = .finished) :
    events.filterMap Event.chunk? = (List.range C).map Int64.ofNat ∧
      s.chunks = before + Int64.ofNat C := by
  have hm : min m C = C := by
    rcases Nat.eq_zero_or_pos L with hzero | hpos
    · rw [hL hzero, Nat.min_zero]
    · rw [← h.length] at hpos
      have hcount : 0 < s.count finishes := by
        have hmem := List.getElem_mem hpos
        refine lt_of_lt_of_le ?_
          (List.single_le_sum (by simp) _ (List.mem_map_of_mem (f := finishes) hmem))
        rw [hall _ hmem]
        exact Nat.one_pos
      exact Nat.min_eq_right (h.exhausted hcount).le
  have hworks : s.count works = 0 := by
    refine List.sum_eq_zero fun k hk => ?_
    obtain ⟨v, hv, rfl⟩ := List.mem_map.1 hk
    rw [hall v hv]
    rfl
  have hbooks := h.chunks
  rw [hworks, hm] at hbooks
  exact ⟨by rw [h.taken, hm], hbooks ▸ (Int64.add_zero _).symm⟩

/-! ### The output -/

section Work

variable {F : Int64 → Nat → α} {W S K C : Nat} {s₀ : Sink α}

/-- An output of a point has its value, if there is room for the point. -/
def Placed (W : Nat) (F : Int64 → Nat → α) (s₀ s : Sink α) (slot : Nat) (p : Int64) : Prop :=
  slot < W → s₀.Holds W p → s.read (s₀.address slot p) = some (F p slot)

/-- What workers rely on: the chunks partition the points, there is room for them, and the actions for
a chunk proceed and write all outputs of its points. -/
structure Task.Sound (T : Task α) (F : Int64 → Nat → α) (W S K C : Nat) (s₀ : Sink α) : Prop where
  chunked : T.engine.Chunked T.points K C
  width : T.engine.width.toInt = W
  room : ∀ p : Int64, 0 ≤ p.toInt → p.toInt < T.points.toInt → s₀.Holds W p
  supply : ∃ a, T.engine.arena T.blank = .ok a ∧ a.Ready S
  proceeds : ∀ (c : Int64) (a : Arena α), a.Ready S →
    Action.Proceed T.arith T.field T.constants (Belongs W F (T.engine.chunkPoints T.points c))
      (·.Ready S) (T.engine.chunkActions T.points c) a
  writes : ∀ (c p : Int64) (slot : Nat), slot < W → p ∈ T.engine.chunkPoints T.points c →
    ∃ t : Int32, t.toInt.toNat = slot ∧
      (t, p) ∈ (T.engine.chunkActions T.points c).filterMap Action.cell?

/-- A worker is prepared for what it does next. What is not written yet of its chunk it is going to
write. -/
def Prepared (T : Task α) (F : Int64 → Nat → α) (W S : Nat) (s₀ s : Sink α) (events : List Event)
    (i : Nat) : Worker α → Prop
  | .idle | .finished | .aborted => True
  | .checking a | .fetching a => a.Ready S
  | .working a c rest => .took i c ∈ events ∧
    Action.Proceed T.arith T.field T.constants (Belongs W F (T.engine.chunkPoints T.points c))
      (·.Ready S) rest a ∧
    ∀ slot < W, ∀ p ∈ T.engine.chunkPoints T.points c, Placed W F s₀ s slot p ∨
      ∃ t : Int32, t.toInt.toNat = slot ∧ (t, p) ∈ rest.filterMap Action.cell?

/-- A worker stays prepared while others write and events are added. -/
lemma Prepared.mono {sink sink' : Sink α} {v : Worker α}
    (h : Prepared T F W S s₀ sink events i v)
    (hplaced : ∀ slot p, Placed W F s₀ sink slot p → Placed W F s₀ sink' slot p)
    (more : List Event) : Prepared T F W S s₀ sink' (events ++ more) i v := by
  cases v with
  | idle | finished | aborted => trivial
  | checking a | fetching a => exact h
  | working a c rest =>
    obtain ⟨htook, hproceed, hrest⟩ := h
    refine ⟨List.mem_append_left _ htook, hproceed, fun slot hslot p hp => ?_⟩
    exact (hrest slot hslot p hp).imp_left (hplaced slot p)

/-- What the workers have done so far. Every element of the output is as it was or has its value, and
the elements of a chunk that was taken have theirs as soon as nobody works on it. -/
structure Work (T : Task α) (F : Int64 → Nat → α) (W S : Nat) (s₀ : Sink α) (s : Parallel α)
    (events : List Event) : Prop where
  layout : s₀.SameLayout s.sink
  pool : ∀ a ∈ s.pool.idle, a.Ready S
  worker : ∀ i v, s.workers[i]? = some v → Prepared T F W S s₀ s.sink events i v
  chunk : ∀ i c, .took i c ∈ events → (∃ a rest, s.workers[i]? = some (.working a c rest)) ∨
    ∀ slot, ∀ p ∈ T.engine.chunkPoints T.points c, Placed W F s₀ s.sink slot p
  element : ∀ address, s.sink.read address = s₀.read address ∨
    ∃ slot p, slot < W ∧ 0 ≤ p.toInt ∧ p.toInt < T.points.toInt ∧ s₀.address slot p = address ∧
      s.sink.read address = some (F p slot)
  wrote : ∀ i k, .wrote i k ∈ events → ∃ c p, ∃ slot : Nat, .took i c ∈ events ∧ slot < W ∧
    p ∈ T.engine.chunkPoints T.points c ∧ k = p.toInt * W + slot
  aborted : ∀ i : Nat, s.workers[i]? = some .aborted → s.cancelled = true

/-- An entry of the new list is the new one or was there. -/
lemma getElem?_set_cases {β : Type} {l : List β} {i j : Nat} {v x : β}
    (h : (l.set i v)[j]? = some x) : (j = i ∧ x = v) ∨ (j ≠ i ∧ l[j]? = some x) := by
  rw [List.getElem?_set] at h
  split at h
  · rename_i heq
    split at h
    · exact .inl ⟨heq.symm, (Option.some.inj h).symm⟩
    · cases h
  · rename_i hne
    exact .inr ⟨Ne.symm hne, h⟩

/-- A worker changes and leaves the output alone. -/
lemma Work.quiet (h : Work T F W S s₀ s events) {v v' : Worker α} (hi : s.workers[i]? = some v)
    (hworkers : s'.workers = s.workers.set i v') (hsink : s'.sink = s.sink)
    (hpool : ∀ a ∈ s'.pool.idle, a.Ready S) (hcancelled : s'.cancelled = s.cancelled)
    (hworking : ∀ a c rest, v = .working a c rest →
      ∀ slot, ∀ p ∈ T.engine.chunkPoints T.points c, Placed W F s₀ s.sink slot p)
    (haborted : v' = .aborted → s.cancelled = true)
    (hprepared : Prepared T F W S s₀ s.sink events i v') :
    Work T F W S s₀ s' (events ++ []) := by
  rw [List.append_nil]
  refine ⟨by rw [hsink]; exact h.layout, hpool, ?_, ?_, ?_, h.wrote, ?_⟩
  · intro j x hx
    rw [hworkers] at hx
    rw [hsink]
    rcases getElem?_set_cases hx with ⟨rfl, rfl⟩ | ⟨-, hx⟩
    · exact hprepared
    · exact h.worker j x hx
  · intro j c htook
    rw [hsink, hworkers]
    -- Only the chunk of this worker could be affected, and it was finished if there was one.
    by_cases hji : j = i
    · subst hji
      rcases h.chunk j c htook with ⟨a, rest, hold⟩ | hplaced
      · rw [hi] at hold
        exact .inr (hworking a c rest (Option.some.inj hold))
      · exact .inr hplaced
    · rw [List.getElem?_set_ne (Ne.symm hji)]
      exact h.chunk j c htook
  · rw [hsink]
    exact h.element
  · intro j hj
    rw [hcancelled]
    rw [hworkers] at hj
    rcases getElem?_set_cases hj with ⟨-, hv'⟩ | ⟨-, hj⟩
    · exact haborted hv'.symm
    · exact h.aborted j hj

/-- In the pool there are, besides the arena put into it, those that were idle. -/
lemma mem_put {β : Type} {pool : Pool β} {a b : β} (h : b ∈ (pool.put a).idle) :
    b = a ∨ b ∈ pool.idle := by
  rw [Pool.put] at h
  split at h
  · rcases List.mem_append.1 h with h | h
    · exact .inr h
    · exact .inl (List.mem_singleton.1 h)
  · exact .inr h

/-- Arenas that are taken are ready. -/
lemma takeArena_ready (hT : T.Sound F W S K C s₀) {pool : Pool (Arena α)}
    (hpool : ∀ a ∈ pool.idle, a.Ready S) :
    ∃ a pool', takeArena T pool = .ok (a, pool') ∧ a.Ready S ∧ ∀ a ∈ pool'.idle, a.Ready S := by
  rw [takeArena, Pool.get?]
  split
  case h_1 taken htaken =>
    split at htaken
    · cases htaken
    · rename_i a rest hidle
      cases htaken
      rw [hidle, List.forall_mem_cons] at hpool
      exact ⟨a, _, rfl, hpool.1, hpool.2⟩
  case h_2 =>
    obtain ⟨a, ha, hready⟩ := hT.supply
    rw [ha]
    exact ⟨a, pool, rfl, hready, hpool⟩

/-- An action that is due goes through. If it writes, it puts a number in its place, and all else stays
as it was. -/
lemma exec_due {a : Arena α} {sink : Sink α} {act : Action α} {rest : List (Action α)}
    {points : List Int64} (hlayout : s₀.SameLayout sink) (hroom : ∀ p ∈ points, s₀.Holds W p)
    (h : Action.Proceed T.arith T.field T.constants (Belongs W F points) (·.Ready S)
      (act :: rest) a) :
    ∃ a' sink', act.exec T.arith T.field T.constants (a, sink) = .ok (a', sink') ∧
      s₀.SameLayout sink' ∧
      Action.Proceed T.arith T.field T.constants (Belongs W F points) (·.Ready S) rest a' ∧
      (∀ t p, act.cell? = some (t, p) → 0 ≤ t.toInt ∧ t.toInt < W ∧ p ∈ points ∧
        sink'.read (s₀.address t.toInt.toNat p) = some (F p t.toInt.toNat)) ∧
      ∀ address, (∀ t p, act.cell? = some (t, p) → s₀.address t.toInt.toNat p ≠ address) →
        sink'.read address = sink.read address := by
  cases h with
  | @compute part _ _ _ _ f hrun hwindow hrest =>
    refine ⟨a.set f part, sink, ?_, hlayout, hrest, nofun, fun _ _ => rfl⟩
    rw [Action.exec, hrun, ok_bind, hwindow, ok_bind, pure_eq_ok]
  | @write _ _ _ _ slot point _ _ x hresult hx hrest =>
    obtain ⟨hpos, hlt, hpoint, rfl⟩ := hx
    have hholds : sink.Holds W point := by
      rw [hlayout.holds_eq]
      exact hroom point hpoint
    obtain ⟨sink', hput, hsame, hread⟩ := Sink.put_eq_ok hholds
      (show slot.toInt.toNat < W by omega) (show slot.toInt = slot.toInt.toNat by omega)
      (F point slot.toInt.toNat)
    rw [hlayout.address_eq] at hread
    refine ⟨a, sink', ?_, hlayout.trans hsame, hrest, ?_, fun address haddress => ?_⟩
    · rw [Action.exec, hresult, ok_bind, hput, ok_bind, pure_eq_ok]
    · rintro t p ⟨⟩
      exact ⟨hpos, hlt, hpoint, by rw [hread, if_pos rfl]⟩
    · rw [hread, if_neg (haddress slot point rfl)]

/-- No worker is ever stuck. -/
lemma Work.exists_step (hT : T.Sound F W S K C s₀) (h : Work T F W S s₀ s events)
    (hvalid : ∀ i c, .took i c ∈ events → ∃ k < C, c = Int64.ofNat k) (i : Nat) :
    ∃ x, s.step T i = .ok x := by
  rw [step]
  split
  case h_1 | h_2 | h_3 => exact ⟨_, rfl⟩
  case h_4 hi =>
    obtain ⟨a, pool, htake, -⟩ := takeArena_ready hT h.pool
    rw [htake]
    exact ⟨_, rfl⟩
  case h_5 | h_6 =>
    split
    · exact ⟨_, rfl⟩
    · exact ⟨_, rfl⟩
  case h_7 => exact ⟨_, rfl⟩
  case h_8 a c act rest hi =>
    obtain ⟨htook, hproceed, -⟩ := h.worker i _ hi
    obtain ⟨k, hk, rfl⟩ := hvalid i c htook
    obtain ⟨a', sink', hexec, -⟩ := exec_due h.layout (fun p hp => by
      obtain ⟨hpos, hlt, -⟩ := (hT.chunked.mem k hk p).1 hp
      exact hT.room p hpos hlt) hproceed
    rw [hexec]
    exact ⟨_, rfl⟩

/-- A worker takes a chunk: all of it is left to be written. -/
lemma Work.fetch (hT : T.Sound F W S K C s₀) (h : Work T F W S s₀ s events) {a : Arena α}
    {c : Int64} (hi : s.workers[i]? = some (.fetching a))
    (hworkers : s'.workers = s.workers.set i (.working a c (T.engine.chunkActions T.points c)))
    (hsink : s'.sink = s.sink) (hpool : s'.pool = s.pool) (hcancelled : s'.cancelled = s.cancelled) :
    Work T F W S s₀ s' (events ++ [.took i c]) := by
  have hready : a.Ready S := h.worker i _ hi
  refine ⟨by rw [hsink]; exact h.layout, by rw [hpool]; exact h.pool, ?_, ?_, ?_, ?_, ?_⟩
  · intro j x hx
    rw [hworkers] at hx
    rw [hsink]
    rcases getElem?_set_cases hx with ⟨rfl, rfl⟩ | ⟨-, hx⟩
    · -- The worker itself: what it is to write is what belongs to its chunk.
      exact ⟨List.mem_append_right _ (List.mem_singleton.2 rfl), hT.proceeds c a hready,
        fun slot hslot p hp => .inr (hT.writes c p slot hslot hp)⟩
    · exact (h.worker j x hx).mono (fun _ _ hplaced => hplaced) _
  · intro j c' htook
    rw [hworkers, hsink]
    rcases List.mem_append.1 htook with htook | htook
    · rcases h.chunk j c' htook with ⟨a', rest, hold⟩ | hplaced
      · have hji : i ≠ j := by
          rintro rfl
          rw [hi] at hold
          cases hold
        exact .inl ⟨a', rest, (List.getElem?_set_ne hji).trans hold⟩
      · exact .inr hplaced
    · cases List.mem_singleton.1 htook
      exact .inl ⟨a, _, List.getElem?_set_self (List.getElem?_eq_some_iff.1 hi).1⟩
  · rw [hsink]
    exact h.element
  · intro j k hwrote
    rcases List.mem_append.1 hwrote with hwrote | hwrote
    · obtain ⟨c', p, slot, htook, hrest⟩ := h.wrote j k hwrote
      exact ⟨c', p, slot, List.mem_append_left _ htook, hrest⟩
    · cases List.mem_singleton.1 hwrote
  · intro j hj
    rw [hcancelled]
    rw [hworkers] at hj
    rcases getElem?_set_cases hj with ⟨-, hv'⟩ | ⟨-, hj⟩
    · cases hv'
    · exact h.aborted j hj

/-- A worker does one of the actions for its chunk. -/
lemma Work.act (hT : T.Sound F W S K C s₀) (h : Work T F W S s₀ s events) {a a' : Arena α}
    {k : Nat} (hk : k < C) {act : Action α} {rest : List (Action α)}
    (hi : s.workers[i]? = some (.working a (Int64.ofNat k) (act :: rest)))
    (hexec : act.exec T.arith T.field T.constants (a, s.sink) = .ok (a', s'.sink))
    (hworkers : s'.workers = s.workers.set i (.working a' (Int64.ofNat k) rest))
    (hpool : s'.pool = s.pool) (hcancelled : s'.cancelled = s.cancelled) :
    Work T F W S s₀ s' (events ++ act.cell?.toList.map fun cell =>
      .wrote i (T.engine.element cell.1 cell.2)) := by
  obtain ⟨htook, hproceed, hrest⟩ := h.worker i _ hi
  have hroom : ∀ p ∈ T.engine.chunkPoints T.points (Int64.ofNat k),
      0 ≤ p.toInt ∧ p.toInt < T.points.toInt ∧ s₀.Holds W p := by
    intro p hp
    obtain ⟨hpos, hlt, -⟩ := (hT.chunked.mem k hk p).1 hp
    exact ⟨hpos, hlt, hT.room p hpos hlt⟩
  obtain ⟨b, sink', hexec', hlayout, hproceed', hhit, hmiss⟩ :=
    exec_due h.layout (fun p hp => (hroom p hp).2.2) hproceed
  obtain ⟨rfl, rfl⟩ : a' = b ∧ s'.sink = sink' := by
    rw [hexec] at hexec'
    cases hexec'
    exact ⟨rfl, rfl⟩
  have hkeeps : ∀ slot p, Placed W F s₀ s.sink slot p → Placed W F s₀ s'.sink slot p := by
    intro slot p hplaced hslot hholds
    by_cases hcell : ∃ t q, act.cell? = some (t, q) ∧ s₀.address t.toInt.toNat q = s₀.address slot p
    · -- Whoever writes to this place writes this output.
      obtain ⟨t, q, hcell, haddress⟩ := hcell
      obtain ⟨hpos, hlt, hq, hvalue⟩ := hhit t q hcell
      obtain ⟨rfl, rfl⟩ := Sink.address_inj (hroom q hq).2.2 hholds (by omega) hslot haddress
      exact hvalue
    · rw [hmiss _ fun t q ht heq => hcell ⟨t, q, ht, heq⟩]
      exact hplaced hslot hholds
  refine ⟨hlayout, by rw [hpool]; exact h.pool, ?_, ?_, ?_, ?_, ?_⟩
  · intro j x hx
    rw [hworkers] at hx
    rcases getElem?_set_cases hx with ⟨rfl, rfl⟩ | ⟨-, hx⟩
    · refine ⟨List.mem_append_left _ htook, hproceed', fun slot hslot p hp => ?_⟩
      rcases hrest slot hslot p hp with hplaced | ⟨t, ht, hcell⟩
      · exact .inl (hkeeps slot p hplaced)
      · obtain ⟨act', hact', hcell'⟩ := List.mem_filterMap.1 hcell
        rcases List.mem_cons.1 hact' with rfl | hact'
        · subst ht
          exact .inl fun _ _ => (hhit t p hcell').2.2.2
        · exact .inr ⟨t, ht, List.mem_filterMap.2 ⟨act', hact', hcell'⟩⟩
    · exact (h.worker j x hx).mono hkeeps _
  · intro j c htook'
    have hold : .took j c ∈ events := by
      rcases List.mem_append.1 htook' with htook' | htook'
      · exact htook'
      · obtain ⟨cell, -, heq⟩ := List.mem_map.1 htook'
        cases heq
    rw [hworkers]
    rcases h.chunk j c hold with ⟨a₀, rest₀, hold⟩ | hplaced
    · by_cases hji : j = i
      · subst hji
        rw [hi] at hold
        cases hold
        exact .inl ⟨a', rest, List.getElem?_set_self (List.getElem?_eq_some_iff.1 hi).1⟩
      · exact .inl ⟨a₀, rest₀, (List.getElem?_set_ne (Ne.symm hji)).trans hold⟩
    · exact .inr fun slot p hp => hkeeps slot p (hplaced slot p hp)
  · intro address
    by_cases hcell : ∃ t q, act.cell? = some (t, q) ∧ s₀.address t.toInt.toNat q = address
    · obtain ⟨t, q, hcell, rfl⟩ := hcell
      obtain ⟨hpos, hlt, hq, hvalue⟩ := hhit t q hcell
      exact .inr ⟨t.toInt.toNat, q, by omega, (hroom q hq).1, (hroom q hq).2.1, rfl, hvalue⟩
    · rw [hmiss address fun t q ht heq => hcell ⟨t, q, ht, heq⟩]
      exact h.element address
  · intro j n hwrote
    rcases List.mem_append.1 hwrote with hwrote | hwrote
    · obtain ⟨c', p, slot, htook', hrest⟩ := h.wrote j n hwrote
      exact ⟨c', p, slot, List.mem_append_left _ htook', hrest⟩
    · obtain ⟨⟨t, q⟩, hcell, heq⟩ := List.mem_map.1 hwrote
      cases heq
      obtain ⟨hpos, hlt, hq, -⟩ := hhit t q (Option.mem_toList.1 hcell)
      refine ⟨Int64.ofNat k, q, t.toInt.toNat, List.mem_append_left _ htook, by omega, hq, ?_⟩
      rw [Engine.element, hT.width, Int.toNat_of_nonneg hpos]
  · intro j hj
    rw [hcancelled]
    rw [hworkers] at hj
    rcases getElem?_set_cases hj with ⟨-, hv'⟩ | ⟨-, hj⟩
    · cases hv'
    · exact h.aborted j hj

/-- The work goes on in order. -/
theorem Work.change (hT : T.Sound F W S K C s₀) (h : Work T F W S s₀ s events)
    (hvalid : ∀ i c, .took i c ∈ events → ∃ k < C, c = Int64.ofNat k)
    (hchange : Change T s i s' more) : Work T F W S s₀ s' (events ++ more) := by
  have hput : ∀ {a : Arena α}, a.Ready S → ∀ b ∈ (s.pool.put a).idle, b.Ready S := by
    intro a ha b hb
    rcases mem_put hb with rfl | hb
    · exact ha
    · exact h.pool b hb
  cases hchange with
  | none => rwa [List.append_nil]
  | takeArena hi htake =>
    obtain ⟨a', pool', htake', ha, hpool⟩ := takeArena_ready hT h.pool
    rw [htake] at htake'
    cases htake'
    exact h.quiet hi rfl rfl hpool rfl nofun nofun ha
  | @abort a hi hcancelled =>
    have hready : a.Ready S := h.worker i _ hi
    exact h.quiet hi rfl rfl (hput hready) rfl nofun (fun _ => hcancelled) trivial
  | @goOn a hi =>
    have hready : a.Ready S := h.worker i _ hi
    exact h.quiet hi rfl rfl h.pool rfl nofun nofun hready
  | @finish a hi hover =>
    have hready : a.Ready S := h.worker i _ hi
    exact h.quiet hi rfl rfl (hput hready) rfl nofun nofun trivial
  | fetch hi hleft => exact h.fetch hT hi rfl rfl rfl rfl
  | complete hi =>
    -- Nothing is left to be written, so the chunk is there.
    obtain ⟨-, hdone, hrest⟩ := h.worker i _ hi
    cases hdone with
    | nil hready =>
    refine h.quiet hi rfl rfl h.pool rfl ?_ nofun hready
    rintro a' c' rest ⟨⟩ slot p hp hslot
    rcases hrest slot hslot p hp with hplaced | ⟨t, -, ht⟩
    · exact hplaced hslot
    · cases ht
  | act hi hexec =>
    obtain ⟨k, hk, rfl⟩ := hvalid i _ (h.worker i _ hi).1
    exact h.act hT hk hi hexec rfl rfl rfl

/-! ### Schedules -/

/-- What holds however the workers are scheduled. -/
def Inv (T : Task α) (F : Int64 → Nat → α) (W S C L : Nat) (s₀ : Sink α) (before : Int64)
    (x : Parallel α × List Event) : Prop :=
  ∃ m, Ledger C L before m x.1 x.2 ∧ Work T F W S s₀ x.1 x.2

variable {L m : Nat} {before : Int64} {x : Parallel α × List Event}

/-- Chunks that were taken exist. -/
lemma Ledger.exists_chunk (h : Ledger C L before m s events) {c : Int64}
    (htook : .took i c ∈ events) : ∃ k < C, c = Int64.ofNat k := by
  have hmem : c ∈ events.filterMap Event.chunk? := List.mem_filterMap.2 ⟨_, htook, rfl⟩
  rw [h.taken] at hmem
  obtain ⟨k, hk, rfl⟩ := List.mem_map.1 hmem
  exact ⟨k, by rw [List.mem_range] at hk; omega, rfl⟩

/-- One step of a worker: it goes through, everything stays in order, and the end comes closer. -/
lemma step_ok (hT : T.Sound F W S K C s₀) (hsmall : C + L < 2 ^ 63)
    (hledger : Ledger C L before m s events) (hwork : Work T F W S s₀ s events) (i : Nat) :
    ∃ s' more m', s.step T i = .ok (s', more) ∧ Ledger C L before m' s' (events ++ more) ∧
      Work T F W S s₀ s' (events ++ more) ∧
      ((∃ v, s.workers[i]? = some v ∧ ¬v.Stopped) →
        Prod.Lex (· < ·) (· < ·) (C - m', s'.count left) (C - m, s.count left)) := by
  have hvalid : ∀ i c, .took i c ∈ events → ∃ k < C, c = Int64.ofNat k :=
    fun i c htook => hledger.exists_chunk htook
  obtain ⟨⟨s', more⟩, hstep⟩ := hwork.exists_step hT hvalid i
  have hchange := change_of_step hstep
  obtain ⟨m', hledger', hcloser⟩ := hledger.change hT.chunked.count hsmall hchange
  exact ⟨s', more, m', hstep, hledger', hwork.change hT hvalid hchange, hcloser⟩

/-- Every move succeeds and keeps the invariant. -/
lemma Inv.move (hT : T.Sound F W S K C s₀) (hsmall : C + L < 2 ^ 63)
    (h : Inv T F W S C L s₀ before x) (mv : Move) :
    ∃ x', Parallel.move T x mv = .ok x' ∧ Inv T F W S C L s₀ before x' := by
  obtain ⟨s, events⟩ := x
  obtain ⟨m, hledger, hwork⟩ := h
  cases mv with
  | worker i =>
    obtain ⟨s', more, m', hstep, hledger', hwork', -⟩ := step_ok hT hsmall hledger hwork i
    exact ⟨(s', events ++ more), by rw [Parallel.move, hstep]; rfl, m', hledger', hwork'⟩
  | cancel =>
    refine ⟨_, rfl, m, ?_, ?_⟩
    · exact ⟨hledger.length, hledger.next, hledger.bound, hledger.exhausted, hledger.taken,
        hledger.chunks⟩
    · exact ⟨hwork.layout, hwork.pool, hwork.worker, hwork.chunk, hwork.element, hwork.wrote,
        fun _ _ => rfl⟩

/-- Every schedule can be carried out. -/
theorem Inv.run (hT : T.Sound F W S K C s₀) (hsmall : C + L < 2 ^ 63)
    (h : Inv T F W S C L s₀ before x) (schedule : List Move) :
    ∃ x', Parallel.run T schedule x = .ok x' ∧ Inv T F W S C L s₀ before x' :=
  foldlM_ok_of_forall (P := fun _ x => Inv T F W S C L s₀ before x) h
    fun _ mv _ _ _ h => h.move hT hsmall mv

/-- A worker's change does not cancel. -/
lemma Change.cancelled_eq (h : Change T s i s' more) : s'.cancelled = s.cancelled := by
  cases h <;> rfl

/-- Only a cancellation cancels. -/
lemma cancelled_eq {x x' : Parallel α × List Event} {schedule : List Move}
    (h : run T schedule x = .ok x') (hcancel : .cancel ∉ schedule) :
    x'.1.cancelled = x.1.cancelled := by
  refine foldlM_preserves (P := fun y => y.1.cancelled = x.1.cancelled) ?_ rfl h
  intro mv hmv y y' hy hmove
  cases mv with
  | cancel => exact absurd hmv hcancel
  | worker i =>
    obtain ⟨⟨s, more⟩, hstep, hmove⟩ := bind_eq_ok_iff.1 hmove
    cases hmove
    exact (change_of_step hstep).cancelled_eq.trans hy

/-- From wherever they are, the workers can go on until all of them have stopped. -/
theorem Inv.exists_end (hT : T.Sound F W S K C s₀) (hsmall : C + L < 2 ^ 63)
    (h : Inv T F W S C L s₀ before x) :
    ∃ schedule x', .cancel ∉ schedule ∧ Parallel.run T schedule x = .ok x' ∧
      ∀ v ∈ x'.1.workers, v.Stopped := by
  obtain ⟨m, hledger, hwork⟩ := h
  -- What is left decreases with every move of a worker that has not stopped.
  have hwf : WellFounded (Prod.Lex (· < ·) (· < ·) : Nat × Nat → Nat × Nat → Prop) :=
    WellFounded.prod_lex wellFounded_lt wellFounded_lt
  generalize hleft : (C - m, x.1.count left) = rest
  induction rest using hwf.induction generalizing m x with
  | h rest ih =>
    obtain ⟨s, events⟩ := x
    subst hleft
    by_cases hstopped : ∀ v ∈ s.workers, v.Stopped
    · exact ⟨[], (s, events), by simp, rfl, hstopped⟩
    · obtain ⟨v, hv, hmoves⟩ : ∃ v ∈ s.workers, ¬v.Stopped := by simpa using hstopped
      obtain ⟨i, hi⟩ := List.mem_iff_getElem?.1 hv
      obtain ⟨s', more, m', hstep, hledger', hwork', hcloser⟩ := step_ok hT hsmall hledger hwork i
      obtain ⟨schedule, x', hcancel, hrun, hend⟩ := ih _ (hcloser ⟨v, hi, hmoves⟩)
        (x := (s', events ++ more)) m' hledger' hwork' rfl
      refine ⟨.worker i :: schedule, x', ?_, ?_, hend⟩
      · simpa using hcancel
      · rw [Parallel.run, List.foldlM_cons, Parallel.move, hstep]
        exact hrun

end Work

end Parallel

end Indicial
