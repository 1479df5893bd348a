import Indicial.Yaml.Character

/-!
# Places in a text

A cursor is a place in a text: what is left of it, and the line and column it begins in. This module
also says what lies between two tokens, namely blanks, line breaks and comments.
-/

namespace Indicial.Yaml

/-- A place in a text. -/
structure Cursor where
  rest : List Char
  /-- How many characters lie before it. -/
  index : Nat
  line : Nat
  column : Nat
  /-- Whether it is preceded by a line break, blanks aside. -/
  fresh : Bool

namespace Cursor

/-- The place before a text. -/
def start (text : List Char) : Cursor := ⟨text, 0, 0, 0, false⟩

/-- The character behind the cursor, unless the text ends. -/
def next? (c : Cursor) : Option Char := c.rest.head?

/-- The place one character further. -/
def step (c : Cursor) : Cursor :=
  match c.rest with
  | [] => c
  | ch :: rest =>
    if isBreak ch then ⟨rest, c.index + 1, c.line + 1, 0, true⟩
    else ⟨rest, c.index + 1, c.line, c.column + 1, c.fresh && isBlank ch⟩

/-- The place `n` characters further. -/
def skip : (n : Nat) → Cursor → Cursor
  | 0, c => c
  | n + 1, c => skip n c.step

/-- The characters of a class that follow, and the place after them. -/
def span (p : Char → Bool) (c : Cursor) : List Char × Cursor :=
  let run := c.rest.takeWhile p
  (run, c.skip run.length)

/-- Passes over the characters of a class. -/
def skipWhile (p : Char → Bool) (c : Cursor) : Cursor := (c.span p).2

/-- Whether a blank, a line break or the end follows. -/
def endsWord (c : Cursor) : Bool := Yaml.endsWord c.rest

/-- Whether the line ends here. -/
def atLineEnd (c : Cursor) : Bool := (c.next?.map isBreak).getD true

/-- Whether a line begins here with the mark three times, which begins or ends a document. -/
def atMarker (mark : Char) (c : Cursor) : Bool :=
  c.column == 0 && c.rest.take 3 == [mark, mark, mark] && Yaml.endsWord (c.rest.drop 3)

/-- Whether a document begins or ends here. -/
def atBoundary (c : Cursor) : Bool := c.atMarker '-' || c.atMarker '.'

/-- The end of the line. -/
def skipLine (c : Cursor) : Option Cursor :=
  let c := c.skipWhile fun ch => !isBreak ch && ch != unreadable
  if c.next? == some unreadable then none else some c

/-- How far ahead a comment is looked for. -/
def commentReach : Nat := 512

/-- Passes over a comment in the line of a token. -/
def skipLineComment (c : Cursor) : Option Cursor :=
  if c.fresh then some c
  else
    let blanks := (c.rest.take commentReach).takeWhile isBlank
    let after := (c.rest.drop blanks.length).head?
    if after == some unreadable then none
    else if after == some '#' && blanks.length < commentReach then (c.skip blanks.length).skipLine
    else some c

/-- Passes over a comment and over those that follow it in the next lines. -/
def skipComments : (fuel : Nat) → Cursor → Option Cursor
  | 0, _ => none
  | fuel + 1, c => do
    let c ← c.skipLine
    let gap := ((c.rest.drop 1).take (commentReach - 1)).takeWhile isSpace
    if (c.rest.drop (1 + gap.length)).head? == some '#' && gap.length < commentReach - 1 then
      skipComments fuel (c.skip (1 + gap.length))
    else return c

/-- The place behind a byte order mark at the beginning of a line. -/
def skipMark (c : Cursor) : Cursor :=
  { c with rest := c.rest.drop 1, index := c.index + 1, column := 1, fresh := false }

/-- The place of the next token, and whether a key may begin there. Outside of flow collections a
line break allows a key, and where a key may begin tabs do not count as blanks. Lines among the first
`marked` characters begin with a byte order mark. -/
def toToken (flow : Bool) (marked : Nat) :
    (fuel : Nat) → (keyAllowed : Bool) → Cursor → Option (Cursor × Bool)
  | 0, _, _ => none
  | fuel + 1, keyAllowed, c => do
    let c := if c.column = 0 ∧ c.index < marked then c.skipMark else c
    let c := c.skipWhile fun ch => ch == ' ' || (flow || !keyAllowed) && ch == '\t'
    let c ← if c.next? == some '#' then c.skipComments (c.rest.length + 1) else some c
    match c.next? with
    | some ch =>
      if isBreak ch then toToken flow marked fuel (keyAllowed || !flow) c.step
      else return (c, keyAllowed)
    | none => return (c, keyAllowed)

end Cursor

end Indicial.Yaml
