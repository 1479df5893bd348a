import Indicial.Error

/-!
# Files

What a command needs from its surroundings: reading and writing files, making directories, and
printing. Commands are written against this interface, so they run on the file system of the machine
as well as on a store in memory.
-/

namespace Indicial.Command

/-- The surroundings of a command. Failures are problems that name the file. -/
structure Surroundings (m : Type → Type) where
  read : Bytes → m (Except Problem Bytes)
  write : Bytes → Bytes → m (Except Problem Unit)
  makeDirectory : Bytes → m (Except Problem Unit)
  print : Bytes → m Unit

/-- Files and directories in memory, by path from the working directory, and what was printed. -/
structure Store where
  files : List (List Bytes × Bytes)
  directories : List (List Bytes)
  printed : Bytes

namespace Store

/-- The parts of a text between separators. -/
def split (sep : UInt8) : Bytes → List Bytes
  | [] => [[]]
  | b :: rest =>
    if b == sep then [] :: split sep rest
    else match split sep rest with
      | part :: parts => (b :: part) :: parts
      | [] => [[b]]

/-- The parts of a path. Empty parts and single dots do not count. -/
def parts (path : Bytes) : List Bytes := (split 47 path).filter fun p => !p.isEmpty && p != [46]

/-- The path of parts. -/
def join (ps : List Bytes) : Bytes := Bytes.join [47] ps

/-- A store with files in its working directory. -/
def ofFiles (files : List (Bytes × Bytes)) : Store :=
  ⟨files.map fun (path, data) => (parts path, data), [], []⟩

def isDirectory (s : Store) (ps : List Bytes) : Bool := ps.isEmpty || s.directories.contains ps

def file? (s : Store) (ps : List Bytes) : Option Bytes :=
  (s.files.find? fun f => f.1 == ps).map (·.2)

/-- Every proper beginning of a path, the shortest first. -/
def ancestors (ps : List Bytes) : List (List Bytes) :=
  (List.range ps.length).map fun n => ps.take n

/-- Why a path cannot be opened: it leads through a file, or nothing is there. -/
def reason (s : Store) (ps : List Bytes) : String :=
  if (ancestors ps).any fun a => (s.file? a).isSome then "not a directory"
  else "no such file or directory"

/-- The contents of a file. -/
def read (s : Store) (path : Bytes) : Except Problem Bytes :=
  let ps := parts path
  if path.isEmpty || path.head? == some 47 then
    .error (.file (Bytes.ofString "open") path "no such file or directory")
  else if s.isDirectory ps then .error (.file (Bytes.ofString "read") path "is a directory")
  else match s.file? ps with
    | some data => .ok data
    | none => .error (.file (Bytes.ofString "open") path (s.reason ps))

/-- The store after writing a file. -/
def write (s : Store) (path data : Bytes) : Except Problem Store :=
  let ps := parts path
  if path.isEmpty || path.head? == some 47 then
    .error (.file (Bytes.ofString "open") path "no such file or directory")
  else if s.isDirectory ps then .error (.file (Bytes.ofString "open") path "is a directory")
  else if s.isDirectory ps.dropLast then
    .ok { s with files := (ps, data) :: s.files.filter fun f => f.1 != ps }
  else .error (.file (Bytes.ofString "open") path (s.reason ps))

/-- The store after making a directory and all above it. -/
def makeDirectory (s : Store) (path : Bytes) : Except Problem Store :=
  let ps := parts path
  let wanted := ancestors ps ++ [ps]
  match wanted.find? fun a => (s.file? a).isSome with
  | some a =>
    .error (.file (Bytes.ofString "mkdir") (if a == ps then path else join a) "not a directory")
  | none =>
    .ok { s with directories := s.directories ++ wanted.filter fun a => !s.isDirectory a }

/-- The names in the working directory, in order. -/
def names (s : Store) : List Bytes :=
  let all := s.files.map (·.1) ++ s.directories
  let tops := all.filterMap List.head?
  tops.eraseDups.mergeSort fun a b => !Bytes.less b a

/-- A store as the surroundings of a command. -/
def surroundings : Surroundings (StateM Store) where
  read path := do return (← get).read path
  write path data := do
    match (← get).write path data with
    | .ok s => do
      set s
      return .ok ()
    | .error e => return .error e
  makeDirectory path := do
    match (← get).makeDirectory path with
    | .ok s => do
      set s
      return .ok ()
    | .error e => return .error e
  print text := modify fun s => { s with printed := s.printed ++ text }

end Store

end Indicial.Command
