import Indicial.Cache.Digest
import Indicial.Compile
import Indicial.Program.Codec

/-!
# The program cache

A cache keeps program files by key. Looking a key up decodes the file; an entry that does not decode
counts as missing. The key of a compilation is the digest of the options and the source.
-/

namespace Indicial

/-- The text that a cache key is the digest of. -/
def Cache.keyText (options : Compile.Options) (source : Bytes) : Bytes :=
  let truth (b : Bool) : Bytes := Bytes.ofString (if b then "true" else "false")
  "tensorc/v" ++ Bytes.ofNat Program.version.toNat ++ " scalarize=" ++ truth options.scalarize
    ++ " validate=" ++ truth options.validate ++ "\n" ++ source

/-- The key under which the program of a source is kept. -/
def Cache.key (options : Compile.Options) (source : Bytes) : Bytes :=
  Bytes.toHex (Digest.sha256 (Cache.keyText options source))

/-- Program files by key, and counts of the traffic. -/
structure Cache where
  entries : List (Bytes × Bytes)
  hits : Nat
  misses : Nat
  compiles : Nat
deriving DecidableEq, Inhabited

namespace Cache

/-- A cache without entries. -/
def empty : Cache := ⟨[], 0, 0, 0⟩

/-- A cache kept in memory or, with a path, in a directory. -/
def create (inMemory : Bool) (path : Bytes) : Except Error Cache :=
  if !inMemory && path.isEmpty then .error (.problem .cachePath) else .ok empty

/-- The file under a key. -/
def find? (c : Cache) (key : Bytes) : Option Bytes :=
  (c.entries.find? fun e => e.1 == key).map (·.2)

/-- The program under a key, counting a hit or a miss. -/
def get (c : Cache) (key : Bytes) : Option (Program Binary64) × Cache :=
  match c.find? key with
  | none => (none, { c with misses := c.misses + 1 })
  | some data => match Program.decode data with
    | .ok p => (some p, { c with hits := c.hits + 1 })
    | .error _ => (none, { c with misses := c.misses + 1 })

/-- The cache without the entry of a key. -/
def delete (c : Cache) (key : Bytes) : Cache :=
  { c with entries := c.entries.filter fun e => e.1 != key }

/-- Keeps a program under a key, in place of what was there. -/
def put (c : Cache) (key : Bytes) (p : Program Binary64) : Cache :=
  { c with entries := (key, p.encode) :: (c.delete key).entries }

/-- What came of a request for a program. -/
structure Outcome where
  result : Except Error (Program Binary64)
  /-- Whether the program came from the cache. -/
  hit : Bool
  cache : Cache

/-- The program under a key, or else the result of compiling it, which is then kept. -/
def getOrCompile (c : Cache) (key : Bytes) (compile : Unit → Except Error (Program Binary64)) :
    Outcome :=
  match c.get key with
  | (some p, c) => ⟨.ok p, true, c⟩
  | (none, c) => match compile () with
    | .ok p => ⟨.ok p, false, { c.put key p with compiles := c.compiles + 1 }⟩
    | .error e => ⟨.error e, false, c⟩

end Cache

end Indicial
