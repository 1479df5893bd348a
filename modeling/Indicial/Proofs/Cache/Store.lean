import Indicial.Cache.Basic
import Indicial.Proofs.Compile.Portable
import Mathlib.Data.List.Permutation

/-!
# The cache as a map

A cache keeps files, and a lookup reads one. For programs that are read back this makes it a map from
keys to programs: after any calls a lookup gives what a map holds that was written by the same calls,
up to the identities of tensors (`run_refines_map`). A compiled program is read back exactly if its
names fit and tell its tensors apart and its payload fits. Tensors that share a name are different
symbols everywhere but in a file, and a program that reads two of them is lost (`put_loses_namesakes`).
-/

namespace Indicial

namespace Program

/-- A compiled program that its file can hold. -/
structure Storable (p : Program Binary64) : Prop where
  compiled : p.IsCompiled
  fits : p.FitsFile

/-- A file whose payload is refused is refused. -/
lemma toOption_decode_encode_eq_none {p : Program Binary64} (hid : p.id.length = 16)
    (hpayload : (Write.payload p).length < 2 ^ 32)
    (h : (Read.payload p.id (Write.payload p)).toOption = none) : (decode p.encode).toOption = none := by
  have hheader : Read.header p.encode = .ok p.id :=
    Read.header_ok_iff.2 ⟨[0, 0], _, rfl, hid, hpayload, rfl⟩
  have hdrop : p.encode.drop headerSize = Write.payload p := drop_frame rfl hid _
  cases hread : Read.payload p.id (Write.payload p) with
  | ok x =>
    rw [hread] at h
    cases h
  | error e =>
    have hfile : Read.file p.encode = .error e := by
      rw [Read.file, hheader, hdrop, ok_bind, hread, error_bind]
    rw [decode, hfile]
    rfl

end Program

namespace Cache

/-! ### Single calls -/

/-- What can be read of the file under a key. -/
def read? (c : Cache) (key : Bytes) : Option (Program Binary64) :=
  (c.find? key).bind fun data => (Program.decode data).toOption

/-- The cache with one lookup more on its counts. -/
def counted (c : Cache) (found : Bool) : Cache :=
  if found then { c with hits := c.hits + 1 } else { c with misses := c.misses + 1 }

section Calls

variable (c : Cache) (key : Bytes) (p : Program Binary64)
  (compile : Unit → Except Error (Program Binary64))

/-- Counting a lookup keeps the entries. -/
@[simp] lemma entries_counted (found : Bool) : (c.counted found).entries = c.entries := by
  cases found <;> rfl

/-- Counting a lookup keeps the files. -/
@[simp] lemma find?_counted (found : Bool) : (c.counted found).find? = c.find? := by
  funext k
  rw [find?, entries_counted, find?]

/-- Counting a lookup keeps what is read. -/
@[simp] lemma read?_counted (found : Bool) : (c.counted found).read? = c.read? := by
  funext k
  rw [read?, find?_counted, read?]

/-- A hit is counted if something was found. -/
lemma hits_counted (found : Bool) : (c.counted found).hits = c.hits + [found].count true := by
  cases found <;> rfl

/-- A miss is counted if nothing was found. -/
lemma misses_counted (found : Bool) : (c.counted found).misses = c.misses + [found].count false := by
  cases found <;> rfl

/-- Deleting removes the file of the key and no other. -/
lemma find?_delete : (c.delete key).find? = Function.update c.find? key none := by
  funext k
  rw [find?, delete, List.find?_filter, Function.update_apply]
  split
  case isTrue hk =>
    rw [List.find?_eq_none.2 (by simp [hk]), Option.map_none]
  case isFalse hk =>
    rw [find?]
    congr 2
    funext e
    by_cases he : e.1 = k
    · simp [he, hk]
    · simp [he]

/-- Putting replaces the file of the key and no other. -/
lemma find?_put : (c.put key p).find? = Function.update c.find? key (some p.encode) := by
  funext k
  rw [find?, put, List.find?_cons, Function.update_apply]
  split
  case h_1 hk =>
    rw [if_pos (beq_iff_eq.1 hk).symm, Option.map_some]
  case h_2 hk =>
    -- Behind the new entry stand the entries of the other keys.
    have hne : k ≠ key := fun h => by simp [h] at hk
    rw [if_neg hne]
    have hdelete := congrFun (c.find?_delete key) k
    rwa [Function.update_of_ne hne] at hdelete

/-- After putting, the lookup decodes what was encoded. -/
lemma read?_put_self : (c.put key p).read? key = (Program.decode p.encode).toOption := by
  rw [read?, find?_put, Function.update_self, Option.bind_some]

/-- A lookup gives what is read and counts it. -/
lemma get_eq : c.get key = (c.read? key, c.counted (c.read? key).isSome) := by
  rw [get, read?]
  split
  case h_1 hfind =>
    rw [hfind]
    rfl
  case h_2 data hfind =>
    rw [hfind, Option.bind_some]
    split
    case h_1 p hdecode =>
      rw [hdecode]
      rfl
    case h_2 e hdecode =>
      rw [hdecode]
      rfl

/-- A request for a program that is found. -/
lemma getOrCompile_of_found {q : Program Binary64} (h : c.read? key = some q) :
    c.getOrCompile key compile = ⟨.ok q, true, c.counted true⟩ := by
  rw [getOrCompile, get_eq, h]
  rfl

/-- A request for a program that is missing. -/
lemma getOrCompile_of_missing (h : c.read? key = none) :
    c.getOrCompile key compile = match compile () with
      | .ok p => ⟨.ok p, false, { (c.counted false).put key p with compiles := c.compiles + 1 }⟩
      | .error e => ⟨.error e, false, c.counted false⟩ := by
  rw [getOrCompile, get_eq, h]
  rfl

end Calls

/-! ### Sequences of calls -/

/-- A call. -/
inductive Request
  | put (key : Bytes) (p : Program Binary64)
  | get (key : Bytes)
  | delete (key : Bytes)
  | getOrCompile (key : Bytes) (compile : Unit → Except Error (Program Binary64))

/-- The program that a call may write. -/
def Request.offered? : Request → Option (Program Binary64)
  | .put _ p => some p
  | .get _ => none
  | .delete _ => none
  | .getOrCompile _ compile => (compile ()).toOption

/-- The cache after a call. -/
def after (c : Cache) : Request → Cache
  | .put key p => c.put key p
  | .get key => (c.get key).2
  | .delete key => c.delete key
  | .getOrCompile key compile => (c.getOrCompile key compile).cache

/-- Whether a call found a program, if it looks for one. -/
def found? (c : Cache) : Request → Option Bool
  | .put _ _ => none
  | .get key => some (c.get key).1.isSome
  | .delete _ => none
  | .getOrCompile key compile => some (c.getOrCompile key compile).hit

/-- The cache after calls. -/
def run (c : Cache) (requests : List Request) : Cache := requests.foldl after c

/-- For each lookup among the calls, whether it found a program. -/
def lookups : Cache → List Request → List Bool
  | _, [] => []
  | c, r :: requests => (c.found? r).toList ++ (c.after r).lookups requests

/-- What a map holds after a call. What is compiled goes where nothing is held. -/
def hold (held : Bytes → Option (Program Binary64)) : Request → Bytes → Option (Program Binary64)
  | .put key p => Function.update held key (some p)
  | .get _ => held
  | .delete key => Function.update held key none
  | .getOrCompile key compile => Function.update held key ((held key).or (compile ()).toOption)

/-- What a map holds after calls, if it is empty before. -/
def heldAfter (requests : List Request) : Bytes → Option (Program Binary64) :=
  requests.foldl hold fun _ => none

/-- The files of a cache are those of the programs that a map holds, and these are storable. -/
structure Represents (c : Cache) (held : Bytes → Option (Program Binary64)) : Prop where
  find? : ∀ key, c.find? key = (held key).map Program.encode
  storable : ∀ key, ∀ p ∈ held key, p.Storable

variable {c : Cache} {held : Bytes → Option (Program Binary64)} {requests : List Request}

/-- What is held is read back, and nothing else. -/
lemma Represents.read?_cases (h : c.Represents held) (key : Bytes) :
    (held key = none ∧ c.read? key = none) ∨
      ∃ p q, held key = some p ∧ c.read? key = some q ∧ p.SameButIdentities q := by
  rw [read?, h.find?]
  cases hkey : held key with
  | none => exact .inl ⟨rfl, rfl⟩
  | some p =>
    have hp := h.storable key p hkey
    obtain ⟨q, hdecode, hsame⟩ := hp.compiled.read_back_iff.2 hp.fits
    refine .inr ⟨p, q, rfl, ?_, hsame⟩
    rw [Option.map_some, Option.bind_some, hdecode]
    rfl

/-- A represented map does not depend on the counters. -/
lemma Represents.counted (h : c.Represents held) (found : Bool) :
    (c.counted found).Represents held where
  find? key := by rw [find?_counted, h.find?]
  storable := h.storable

/-- When files and map change at one key alike, the cache represents the map as before. -/
lemma Represents.update (h : c.Represents held) {c' : Cache} {key : Bytes}
    {o : Option (Program Binary64)}
    (hfind : c'.find? = Function.update c.find? key (o.map Program.encode))
    (ho : ∀ p ∈ o, p.Storable) : c'.Represents (Function.update held key o) where
  find? k := by
    rw [hfind, Function.update_apply, Function.update_apply]
    split
    · rfl
    · exact h.find? k
  storable k p hp := by
    rw [Function.update_apply] at hp
    split at hp
    · exact ho p hp
    · exact h.storable k p hp

/-- A call does to the cache what it does to the map. -/
lemma Represents.after (h : c.Represents held) {r : Request} (hr : ∀ p ∈ r.offered?, p.Storable) :
    (c.after r).Represents (hold held r) := by
  cases r with
  | put key p => exact h.update (c.find?_put key p) hr
  | delete key => exact h.update (c.find?_delete key) hr
  | get key =>
    rw [Cache.after, get_eq]
    exact h.counted _
  | getOrCompile key compile =>
    rw [Cache.after, hold]
    rcases h.read?_cases key with ⟨hkey, hread⟩ | ⟨p, q, hkey, hread, -⟩
    · rw [getOrCompile_of_missing _ _ _ hread, hkey, Option.none_or]
      rw [Request.offered?] at hr
      cases hcompile : compile () with
      | ok p =>
        rw [hcompile] at hr
        exact (h.counted false).update (find?_put _ key p) hr
      | error e =>
        -- Nothing is held under the key before and after.
        rw [Except.toOption, ← hkey, Function.update_eq_self]
        exact h.counted false
    · rw [getOrCompile_of_found _ _ _ hread, hkey, Option.some_or, ← hkey, Function.update_eq_self]
      exact h.counted true

/-- After calls that offer storable programs, a cache stands for the map that the calls write. -/
lemma Represents.run (h : c.Represents held) (hr : ∀ r ∈ requests, ∀ p ∈ r.offered?, p.Storable) :
    (c.run requests).Represents (requests.foldl hold held) := by
  induction requests generalizing c held with
  | nil => exact h
  | cons r requests ih =>
    rw [List.forall_mem_cons] at hr
    exact ih (h.after hr.1) hr.2

/-- The empty cache represents the map that holds nothing. -/
lemma represents_empty : empty.Represents fun _ => none where
  find? _ := rfl
  storable _ _ hp := nomatch hp

/-! ### Counts -/

/-- A call counts the lookup that it makes. -/
lemma counts_after (c : Cache) (r : Request) :
    (c.after r).hits = c.hits + (c.found? r).toList.count true ∧
      (c.after r).misses = c.misses + (c.found? r).toList.count false := by
  cases r with
  | put key p => exact ⟨rfl, rfl⟩
  | delete key => exact ⟨rfl, rfl⟩
  | get key =>
    rw [after, found?, get_eq]
    exact ⟨hits_counted _ _, misses_counted _ _⟩
  | getOrCompile key compile =>
    rw [after, found?]
    cases hread : c.read? key with
    | some q =>
      rw [getOrCompile_of_found _ _ _ hread]
      exact ⟨hits_counted _ _, misses_counted _ _⟩
    | none =>
      rw [getOrCompile_of_missing _ _ _ hread]
      cases compile () <;> exact ⟨hits_counted _ _, misses_counted _ _⟩

/-- A run counts each lookup once, as a hit or as a miss. -/
lemma counts_run (c : Cache) (requests : List Request) :
    (c.run requests).hits = c.hits + (c.lookups requests).count true ∧
      (c.run requests).misses = c.misses + (c.lookups requests).count false := by
  induction requests generalizing c with
  | nil => exact ⟨rfl, rfl⟩
  | cons r requests ih =>
    obtain ⟨hhits, hmisses⟩ := c.counts_after r
    obtain ⟨hhits', hmisses'⟩ := ih (c.after r)
    rw [run] at hhits' hmisses'
    rw [run, List.foldl_cons, lookups, List.count_append, List.count_append]
    omega

/-! ### Requests for programs -/

/-- What a request for a program does. It compiles exactly what a lookup misses: where one is found,
the outcome is that of the lookup whatever the compilation would give. A failed compilation leaves the
files as they are, and any other request makes the next lookup find the program. -/
structure Fetches (c : Cache) (key : Bytes) (compile : Unit → Except Error (Program Binary64)) : Prop
    where
  found : ∀ q, (c.get key).1 = some q → c.getOrCompile key compile = ⟨.ok q, true, (c.get key).2⟩
  missing : (c.get key).1 = none →
    (c.getOrCompile key compile).result = compile () ∧ (c.getOrCompile key compile).hit = false
  failed : ∀ e, (c.getOrCompile key compile).result = .error e →
    (c.getOrCompile key compile).cache.entries = c.entries
  next : ∀ p, (c.getOrCompile key compile).result = .ok p →
    ∃ q, ((c.getOrCompile key compile).cache.get key).1 = some q ∧ p.SameButIdentities q

/-- What is read is fetched from the files. -/
lemma fetches_of_found {key : Bytes} {q : Program Binary64} (hread : c.read? key = some q)
    (compile : Unit → Except Error (Program Binary64)) : c.Fetches key compile := by
  have hget : (c.get key).1 = some q := by rw [get_eq, hread]
  have hfetch := c.getOrCompile_of_found key compile hread
  refine ⟨fun q' hq' => ?_, fun hnone => (nomatch hget.symm.trans hnone), fun e he => ?_, fun p hp => ?_⟩
  · obtain rfl := Option.some.inj (hget.symm.trans hq')
    rw [hfetch, get_eq, hread]
    rfl
  · rw [hfetch] at he
    cases he
  · rw [hfetch] at hp ⊢
    cases hp
    exact ⟨q, by rw [get_eq, read?_counted, hread], .refl q⟩

/-- What is missing is compiled and kept. -/
lemma fetches_of_missing {key : Bytes} (hread : c.read? key = none)
    {compile : Unit → Except Error (Program Binary64)}
    (hcompile : ∀ p ∈ (compile ()).toOption, p.Storable) : c.Fetches key compile := by
  have hget : (c.get key).1 = none := by rw [get_eq, hread]
  have hfetch := c.getOrCompile_of_missing key compile hread
  cases hresult : compile () with
  | error e =>
    rw [hresult] at hfetch
    refine ⟨fun q hq => (nomatch hget.symm.trans hq), fun _ => ?_, fun e' _ => ?_, fun p hp => ?_⟩
    · rw [hfetch, hresult]
      exact ⟨rfl, rfl⟩
    · rw [hfetch]
      exact c.entries_counted false
    · rw [hfetch] at hp
      cases hp
  | ok p =>
    rw [hresult] at hfetch hcompile
    have hp := hcompile p rfl
    obtain ⟨q, hdecode, hsame⟩ := hp.compiled.read_back_iff.2 hp.fits
    refine ⟨fun q hq => (nomatch hget.symm.trans hq), fun _ => ?_, fun e he => ?_, fun p' hp => ?_⟩
    · rw [hfetch, hresult]
      exact ⟨rfl, rfl⟩
    · rw [hfetch] at he
      cases he
    · rw [hfetch] at hp ⊢
      cases hp
      refine ⟨q, ?_, hsame⟩
      rw [get_eq]
      exact ((c.counted false).read?_put_self key p).trans (congrArg Except.toOption hdecode)

/-- A compiled program that is put is found again exactly if its file can hold it. -/
lemma found_after_put_iff {p : Program Binary64} (hp : p.IsCompiled) (c : Cache) (key : Bytes) :
    (∃ q, ((c.put key p).get key).1 = some q ∧ p.SameButIdentities q) ↔ p.FitsFile := by
  rw [← hp.read_back_iff, get_eq, read?_put_self]
  refine exists_congr fun q => and_congr_left fun _ => ?_
  cases Program.decode p.encode <;> simp [Except.toOption]

/-- A cache of storable programs is a map. After any calls a lookup gives what a map holds that the
calls have written, up to the identities of tensors; a request compiles exactly what a lookup misses;
and the counts are those of the lookups that found a program and of those that did not. Of the compiled
programs no others are given back. -/
theorem run_refines_map (hstorable : ∀ r ∈ requests, ∀ p ∈ r.offered?, p.Storable) :
    (∀ key, Option.Rel Program.SameButIdentities (heldAfter requests key)
        ((run empty requests).get key).1) ∧
      (∀ key (compile : Unit → Except Error (Program Binary64)),
        (∀ p ∈ (compile ()).toOption, p.Storable) → (run empty requests).Fetches key compile) ∧
      (run empty requests).hits = (lookups empty requests).count true ∧
      (run empty requests).misses = (lookups empty requests).count false ∧
      ∀ key (p : Program Binary64), p.IsCompiled →
        ((∃ q, (((run empty requests).put key p).get key).1 = some q ∧ p.SameButIdentities q) ↔
          p.FitsFile) := by
  have h : (run empty requests).Represents (heldAfter requests) := represents_empty.run hstorable
  obtain ⟨hhits, hmisses⟩ := counts_run empty requests
  refine ⟨fun key => ?_, fun key compile hcompile => ?_, ?_, ?_, fun key p hp => ?_⟩
  · rw [get_eq]
    rcases h.read?_cases key with ⟨hkey, hread⟩ | ⟨p, q, hkey, hread, hsame⟩
    · rw [hkey, hread]
      exact .none
    · rw [hkey, hread]
      exact .some hsame
  · cases hread : (run empty requests).read? key with
    | some q => exact fetches_of_found hread compile
    | none => exact fetches_of_missing hread hcompile
  · rw [hhits, empty, Nat.zero_add]
  · rw [hmisses, empty, Nat.zero_add]
  · exact found_after_put_iff hp _ key

/-- The equation `u = a v_i v_i` in one dimension, for a scalar `a` and a vector of some name. -/
def square (vector : Bytes) : EquationSystem :=
  let u : Tensor := ⟨Bytes.ofString "u", 0, 0⟩
  let a : Tensor := ⟨Bytes.ofString "a", 0, 1⟩
  let v : Tensor := ⟨vector, 1, 2⟩
  ⟨Bytes.ofString "square", 1,
    [⟨u, [], .product (.product (.tensor a []) (.tensor v [105])) (.tensor v [105])⟩], [u]⟩

/-- What it is compiled to. -/
def squareProgram (vector : Bytes) : Program Binary64 where
  id := List.replicate 16 0
  name := Bytes.ofString "square"
  dim := 1
  catalog := some ⟨[⟨⟨Bytes.ofString "a", 0, 1⟩, ⟨[]⟩, ⟨[]⟩, true⟩, ⟨⟨vector, 1, 2⟩, ⟨[0]⟩, ⟨[]⟩, true⟩], []⟩
  outputs := [⟨Bytes.ofString "u", 0, 0, []⟩]
  kernels := [⟨0, [0], some {
    dim := 1
    tags := #[15, 15, 3, 15, 3]
    left := #[-1, -1, 0, -1, 2]
    outer := ⟨#[0, 0, 0, 0, 0, 0], #[]⟩
    inner := ⟨#[0, 0, 0, 0, 0, 0], #[]⟩
    binding := ⟨#[0, 0, 0, 0, 0, 0], #[]⟩
    ids := ⟨#[0, 1, 2, 2, 3, 3], #[0, 1, 1]⟩
    values := #[⟨0⟩, ⟨0⟩, ⟨0⟩, ⟨0⟩, ⟨0⟩]
    funcs := #[0, 0, 0, 0, 0]
    offsets := #[0, 1, 2, 3, 4]
    depth := 5 }⟩]

/-- The two tensors on the right side are the scalar and the vector. -/
lemma square_isRead {vector : Bytes} {t : Tensor} (h : (square vector).IsRead t) :
    t = ⟨Bytes.ofString "a", 0, 1⟩ ∨ t = ⟨vector, 1, 2⟩ := by
  obtain ⟨eq, heq, ht⟩ := h
  rw [square, List.mem_singleton] at heq
  subst heq
  have hmem : t ∈ [⟨Bytes.ofString "a", 0, 1⟩, ⟨vector, 1, 2⟩, ⟨vector, 1, 2⟩] := List.mem_eraseDups.1 ht
  simpa using hmem

/-- The system is as its constructors make it, provided that the vector has a name. -/
lemma square_wellMade {vector : Bytes} (h : vector ≠ []) : (square vector).WellMade where
  rhs := by
    intro eq heq
    apply Expr.WellFormed.built
    rw [square, List.mem_singleton] at heq
    subst heq
    simp [Expr.WellFormed, Expr.outer, Index.capacity, Index.exclusive, Index.symmetricDifference,
      Index.minus]
  tensors := by
    intro t ht
    rcases square_isRead ht with rfl | rfl
    · decide
    · exact ⟨h, show 1 ≤ Tensor.maxOrder by decide⟩
  references := by
    intro eq heq r hr
    rw [square, List.mem_singleton] at heq
    subst heq
    simp [Expr.postorder] at hr

/-- The program is what compiling gives, for a name of its own and for the name of the scalar. -/
lemma squareProgram_isCompiled {vector : Bytes} (h : vector = [118] ∨ vector = [97]) :
    (squareProgram vector).IsCompiled := by
  have hname : vector ≠ [] := by rcases h with rfl | rfl <;> decide
  have hrun : ((square vector).compile Literal.toBinary64 ⟨true, true⟩
      (List.replicate 16 0)).toOption.any (fun p => p == squareProgram vector) = true := by
    -- With its names as bytes, the system is small enough to be compiled here.
    simp only [square, squareProgram, show Bytes.ofString "u" = [117] from rfl,
      show Bytes.ofString "a" = [97] from rfl,
      show Bytes.ofString "square" = [115, 113, 117, 97, 114, 101] from rfl]
    rcases h with rfl | rfl <;> cbv
  obtain ⟨p, hcompile, hp⟩ := toOption_any_iff.1 hrun
  rw [beq_iff_eq.1 hp] at hcompile
  exact ⟨_, _, _, square_wellMade hname, hcompile, rfl⟩

/-- With two names, the program fits a file. -/
lemma squareProgram_storable : (squareProgram (Bytes.ofString "v")).Storable where
  compiled := squareProgram_isCompiled (.inl rfl)
  fits := ⟨by decide, by decide, by decide, by decide, by decide +kernel⟩

/-- A program is compiled on request under one key, put under another and deleted there. -/
def squareRequests : List Request :=
  let p := squareProgram (Bytes.ofString "v")
  [.getOrCompile [1] fun _ => .ok p, .put [2] p, .get [2], .delete [2]]

/-- The program is found under the key that kept it, and not under the one it was deleted from. -/
theorem run_refines_map_square :
    (∃ q, ((run empty squareRequests).get [1]).1 = some q ∧
        (squareProgram (Bytes.ofString "v")).SameButIdentities q) ∧
      ((run empty squareRequests).get [2]).1 = none := by
  have hstorable : ∀ r ∈ squareRequests, ∀ p ∈ r.offered?, p.Storable := by
    simp [squareRequests, Request.offered?, Except.toOption, squareProgram_storable]
  obtain ⟨hget, -⟩ := run_refines_map hstorable
  have hkept := hget [1]
  have hgone := hget [2]
  rw [show heldAfter squareRequests [1] = some (squareProgram (Bytes.ofString "v")) from rfl] at hkept
  rw [show heldAfter squareRequests [2] = none from rfl] at hgone
  constructor
  · generalize ((run empty squareRequests).get [1]).1 = answer at hkept
    cases hkept with
    | some hsame => exact ⟨_, rfl, hsame⟩
  · generalize ((run empty squareRequests).get [2]).1 = answer at hgone
    cases hgone
    rfl

/-- A vector that has the name of the scalar. The program is compiled and passes the checks, but a
lookup misses what was put. -/
theorem put_loses_namesakes :
    (squareProgram (Bytes.ofString "a")).IsCompiled ∧
      (squareProgram (Bytes.ofString "a")).validate = .ok () ∧
      ∀ key, heldAfter [.put key (squareProgram (Bytes.ofString "a"))] key
          = some (squareProgram (Bytes.ofString "a")) ∧
        ((run empty [.put key (squareProgram (Bytes.ofString "a"))]).get key).1 = none := by
  -- The reader takes the vector for the scalar and refuses its order.
  have hlost := Program.toOption_decode_encode_eq_none (p := squareProgram (Bytes.ofString "a")) rfl
    (by decide +kernel) (by decide +kernel)
  refine ⟨squareProgram_isCompiled (.inr rfl), by decide +kernel, fun key => ⟨?_, ?_⟩⟩
  · simp [heldAfter, hold]
  · rw [get_eq]
    exact (empty.read?_put_self key _).trans hlost

end Cache

end Indicial
