import Indicial.Error

/-!
# Command-line flags

A command has flags with long names, and a few with a letter. A flag takes a value, joined by an equals
sign or as the next argument; a switch takes one only when joined, and is on without. Arguments that
are no flags may stand between flags, and `--` ends the flags.
-/

namespace Indicial.Command

/-- What kind of value a flag takes. -/
inductive FlagKind where
  | text | number | switch
deriving DecidableEq

/-- A flag. -/
structure Flag where
  name : String
  letter : Option Char
  kind : FlagKind
deriving DecidableEq

/-- The value of a flag. -/
inductive Setting where
  | text (s : Bytes)
  | number (n : Int64)
  | switch (b : Bool)
deriving DecidableEq

/-- The flags that were given with their values, the last first, and the other arguments. -/
structure Parsed where
  settings : List (String × Setting)
  arguments : List Bytes

/-- The flag with a long name. -/
def byName (flags : List Flag) (name : Bytes) : Option Flag :=
  flags.find? fun f => Bytes.ofString f.name == name

/-- The flag with a letter. -/
def byLetter (flags : List Flag) (b : UInt8) : Option Flag :=
  flags.find? fun f => match f.letter with
    | some c => Bytes.ofChar c == b
    | none => false

/-- How messages name a flag. -/
def Flag.title (f : Flag) : Bytes :=
  let long := Bytes.ofString ("--" ++ f.name)
  match f.letter with
  | some c => [45, Bytes.ofChar c] ++ Bytes.ofString ", " ++ long
  | none => long

/-- The words for a truth value. -/
def truth? (s : Bytes) : Option Bool :=
  let isOneOf (words : List String) : Bool := words.any fun w => Bytes.ofString w == s
  if isOneOf ["1", "t", "T", "TRUE", "true", "True"] then some true
  else if isOneOf ["0", "f", "F", "FALSE", "false", "False"] then some false
  else none

/-- Reads the value of a flag. -/
def Flag.read (f : Flag) (value : Bytes) : Except Error Setting :=
  match f.kind with
  | .text => .ok (.text value)
  | .number => match Number.readInt64 none value with
    | .ok n => .ok (.number n)
    | .error why => .error (.within (.argument value f.title) (.problem (.notInt value why)))
  | .switch => match truth? value with
    | some b => .ok (.switch b)
    | none => .error (.within (.argument value f.title) (.problem (.notBool value)))

/-- A flag that waits for the next argument, and the error if none comes. -/
structure Waiting where
  flag : Flag
  missing : Error

/-- One argument read as a long flag without its two dashes: a setting, or a flag that waits. -/
def longFlag (flags : List Flag) (argument body : Bytes) :
    Except Error (Option (String × Setting) × Option Waiting) :=
  match body with
  | [] => .error (.problem (.flagForm argument))
  | b :: _ =>
    if b == 45 || b == 61 then .error (.problem (.flagForm argument))
    else
      let (name, value) : Bytes × Option Bytes := match Bytes.cut 61 body with
        | some (name, value) => (name, some value)
        | none => (body, none)
      match byName flags name, value with
      | none, _ => .error (.problem (.unknownFlag name))
      | some f, some value => do return (some (f.name, ← f.read value), none)
      | some f, none =>
        if f.kind = .switch then .ok (some (f.name, .switch true), none)
        else .ok (none, some ⟨f, .problem (.missingArgument name)⟩)

/-- How a message names a letter that is no flag: by the first byte of its encoding. -/
def shownLetter (b : UInt8) : UInt8 := (Utf8.encode (Char.ofNat b.toNat)).headD b

/-- A group of letters behind one dash: the settings, the last first, and a flag that waits. A group
that begins with `test.` is meant for somebody else and passed over. -/
def letterGroup (flags : List Flag) : List (String × Setting) → Bytes →
    Except Error (List (String × Setting) × Option Waiting)
  | settings, [] => .ok (settings, none)
  | settings, b :: rest =>
    if Bytes.startsWith (b :: rest) (Bytes.ofString "test.") then .ok (settings, none)
    else match byLetter flags b with
    | none => .error (.problem (.unknownShorthand (shownLetter b) (b :: rest)))
    | some f =>
      match rest with
      | 61 :: c :: value => do return ((f.name, ← f.read (c :: value)) :: settings, none)
      | rest =>
        if f.kind = .switch then letterGroup flags ((f.name, .switch true) :: settings) rest
        else if rest.isEmpty then
          .ok (settings, some ⟨f, .problem (.missingShorthandArgument b [b])⟩)
        else do return ((f.name, ← f.read rest) :: settings, none)

/-- Reads arguments one by one. -/
def parseArguments (flags : List Flag) : Parsed → Option Waiting → List Bytes →
    Except Error Parsed
  | p, none, [] => .ok { p with arguments := p.arguments.reverse }
  | _, some w, [] => .error w.missing
  | p, some w, s :: rest => do
    let value ← w.flag.read s
    parseArguments flags { p with settings := (w.flag.name, value) :: p.settings } none rest
  | p, none, s :: rest =>
    match s with
    | 45 :: 45 :: [] => .ok { p with arguments := p.arguments.reverse ++ rest }
    | 45 :: 45 :: body => do
      let (setting, waiting) ← longFlag flags s body
      parseArguments flags { p with settings := setting.toList ++ p.settings } waiting rest
    | 45 :: c :: body => do
      let (settings, waiting) ← letterGroup flags p.settings (c :: body)
      parseArguments flags { p with settings } waiting rest
    | s => parseArguments flags { p with arguments := s :: p.arguments } none rest

/-- Reads flags and arguments. -/
def parseFlags (flags : List Flag) (args : List Bytes) : Except Error Parsed :=
  parseArguments flags ⟨[], []⟩ none args

namespace Parsed

/-- The last value of a text flag. -/
def text (p : Parsed) (name : String) (default : String) : Bytes :=
  match p.settings.find? fun e => e.1 == name with
  | some (_, .text s) => s
  | _ => Bytes.ofString default

/-- The last value of a number flag. -/
def number (p : Parsed) (name : String) (default : Int64) : Int64 :=
  match p.settings.find? fun e => e.1 == name with
  | some (_, .number n) => n
  | _ => default

/-- The last value of a switch. -/
def switch (p : Parsed) (name : String) : Bool :=
  match p.settings.find? fun e => e.1 == name with
  | some (_, .switch b) => b
  | _ => false

/-- All values of a text flag, in the order given. -/
def texts (p : Parsed) (name : String) : List Bytes :=
  p.settings.reverse.filterMap fun
    | (n, .text s) => if n == name then some s else none
    | _ => none

end Parsed

/-- Whether an argument is a flag whose value is the next argument. Switches of the list are not. -/
def takesNext (flags : List Flag) (s : Bytes) : Bool :=
  let isSwitch : Option Flag → Bool
    | some f => f.kind == .switch
    | none => false
  !s.contains 61 && match s with
    | 45 :: 45 :: name => !isSwitch (byName flags name)
    | [45, b] => !isSwitch (byLetter flags b)
    | _ => false

/-- The arguments that are neither flags nor their values. A flag that would take the last argument
ends the search. -/
def withoutFlags (flags : List Flag) : List Bytes → List Bytes
  | [] => []
  | s :: rest =>
    if s == [45, 45] then []
    else if takesNext flags s then
      match rest with
      | _ :: t :: others => withoutFlags flags (t :: others)
      | _ => []
    else if s.head? == some 45 || s.isEmpty then withoutFlags flags rest
    else s :: withoutFlags flags rest

/-- The arguments without the first one that is `x` and is not the value of a flag. -/
def withoutFirst (flags : List Flag) (x : Bytes) : List Bytes → List Bytes
  | [] => []
  | s :: rest =>
    if s == [45, 45] then s :: rest
    else if takesNext flags s then
      match rest with
      | [] => [s]
      | value :: others => s :: value :: withoutFirst flags x others
    else if s.head? != some 45 && s == x then rest
    else s :: withoutFirst flags x rest

end Indicial.Command
