import Indicial.Yaml.Basic
import Indicial.Yaml.Token

/-!
# From text to tokens

The scanner turns a text into tokens on demand. It knows the columns in which the open block
collections begin, and emits their beginnings and ends as the columns of tokens change.

Whether a token is a key shows only when a colon follows. Until then it is pending, one token for
every level of flow brackets, and its place in the queue is remembered: the tokens that say that a key
(and perhaps a mapping) begins are put in front of it afterwards. A key stands in one line, has at most
1024 characters, and is required where an open block mapping goes on.

Tokens are scanned a little ahead of their use: there are three of them in the queue at least, and the
first is not pending. So a fault in the text is noticed only if the scanner comes that far. Nobody
waits for brackets that closed without a pending token between them; they are keys only if a colon is
among the tokens scanned anyway.
-/

namespace Indicial.Yaml

/-- A token that is a key if a colon follows. -/
structure PendingKey where
  required : Bool
  /-- How many tokens come before it. -/
  number : Nat
  index : Nat
  line : Nat
  column : Nat
  /-- Whether it stays in the queue until it is certain what it is. -/
  awaited : Bool

/-- Whether a colon at the cursor would still make it a key. -/
def PendingKey.isLive (k : PendingKey) (c : Cursor) : Bool :=
  k.line == c.line && c.index ≤ k.index + 1024

/-- A level of flow brackets. -/
structure Level where
  pending : Option PendingKey
  /-- The number of the token that was pending last, at first that of the opening bracket. It is not
  smaller than those of the outer levels. -/
  number : Nat
  /-- How many brackets are open. -/
  depth : Nat

/-- The level with nobody waiting for the token with a number. -/
def Level.release (l : Level) (number : Nat) : Level :=
  let release (k : PendingKey) : PendingKey :=
    if k.number = number then { k with awaited := false } else k
  { l with pending := l.pending.map release }

/-- A scanner in a text. -/
structure Scanner where
  cursor : Cursor
  /-- The column of the innermost open block collection, and those of the outer ones. -/
  indent : Int
  indents : List Int
  /-- The innermost level of flow brackets, and the outer ones. -/
  level : Level
  outer : List Level
  keyAllowed : Bool
  queue : List Token
  /-- How many tokens were taken from the queue. -/
  taken : Nat
  /-- How many characters at the beginning of the text have lines with a byte order mark. -/
  marked : Nat
  /-- The length of the text, which bounds every loop. -/
  size : Nat

namespace Scanner

/-- The scanner before a text. -/
def start (text : Text) : Scanner where
  cursor := Cursor.start text.characters
  indent := -1
  indents := []
  level := ⟨none, 0, 0⟩
  outer := []
  keyAllowed := true
  queue := []
  taken := 0
  marked := text.marked
  size := text.characters.length

/-- Whether a flow collection is open. -/
def inFlow (s : Scanner) : Bool := 0 < s.level.depth

/-- Appends a token. -/
def push (s : Scanner) (t : Token) : Scanner := { s with queue := s.queue ++ [t] }

/-- Puts a token in front of the one with a number, or last if that one was taken already. -/
def insert (s : Scanner) (number : Nat) (t : Token) : Scanner :=
  if number < s.taken then s.push t
  else
    let (before, after) := s.queue.splitAt (number - s.taken)
    { s with queue := before ++ t :: after }

/-- Passes over characters. -/
def skip (s : Scanner) (n : Nat) : Scanner := { s with cursor := s.cursor.skip n }

/-- Opens a block collection in a column right of the innermost one. Its token goes in front of the
token with the number. -/
def openBlock (s : Scanner) (column number : Nat) (t : Token) : Option Scanner :=
  if s.inFlow || column ≤ s.indent then some s
  else if maxDepth ≤ s.indents.length then none
  else some (insert { s with indent := column, indents := s.indent :: s.indents } number t)

/-- The number that the next token will have. -/
def nextNumber (s : Scanner) : Nat := s.taken + s.queue.length

/-- Closes block collections until `indent` is not right of the column: the columns that stay open,
and how many were closed. -/
def closed (column : Int) : (indent : Int) → (indents : List Int) → Int × List Int × Nat
  | indent, [] => (indent, [], 0)
  | indent, next :: indents =>
    if column < indent then
      let (indent, indents, n) := closed column next indents
      (indent, indents, n + 1)
    else (indent, next :: indents, 0)

/-- Closes the block collections that begin right of a column. -/
def closeBlocks (s : Scanner) (column : Int) : Scanner :=
  if s.inFlow then s
  else
    let (indent, indents, n) := closed column s.indent s.indents
    { s with indent, indents, queue := s.queue ++ List.replicate n Token.blockEnd }

/-- Forgets the pending key. -/
def forget (s : Scanner) : Scanner := { s with level := { s.level with pending := none } }

/-- Gives up the pending key, which must not be a required one. -/
def dropKey (s : Scanner) : Option Scanner :=
  match s.level.pending with
  | some k => if k.required then none else some s.forget
  | none => some s

/-- Makes the next token pending where a key is allowed. -/
def awaitKey (s : Scanner) : Option Scanner :=
  if s.keyAllowed then do
    let s ← s.dropKey
    let c := s.cursor
    let required := !s.inFlow && s.indent == c.column
    let key : PendingKey := ⟨required, s.nextNumber, c.index, c.line, c.column, true⟩
    return { s with level := { s.level with pending := some key, number := s.nextNumber } }
  else some s

/-- Appends a token that may be a key, and goes on behind it. -/
def pushContent (s : Scanner) (t : Token) (c : Cursor) : Scanner :=
  { s.push t with cursor := c, keyAllowed := false }

/-- The end of the text, which closes every block collection. -/
def streamEnd (s : Scanner) : Option Scanner := do
  let c := s.cursor
  let c := if c.column = 0 then c else { c with line := c.line + 1, column := 0 }
  let s ← (closeBlocks { s with cursor := c } (-1)).dropKey
  return ({ s with keyAllowed := false }).push .streamEnd

/-- The beginning or the end of a document, or a directive, all of which close every block
collection. -/
def boundary (s : Scanner) (t : Token) (after : Cursor) : Option Scanner := do
  let s ← (s.closeBlocks (-1)).dropKey
  return s.pushContent t after

/-- A bracket that opens a flow collection. -/
def openFlow (s : Scanner) (t : Token) : Option Scanner := do
  let s ← s.awaitKey
  if maxDepth ≤ s.level.depth then none
  else
    let level := ⟨none, s.nextNumber, s.level.depth + 1⟩
    return { (s.push t).skip 1 with level, outer := s.level :: s.outer, keyAllowed := true }

/-- A bracket that closes a flow collection. -/
def closeFlow (s : Scanner) (t : Token) : Option Scanner := do
  let s ← s.dropKey
  let s := match s.outer with
    | [] => s
    | level :: outer => { s with level := level.release s.level.number, outer }
  return s.pushContent t s.cursor.step

/-- A comma in a flow collection. -/
def flowEntry (s : Scanner) : Option Scanner := do
  let s ← s.dropKey
  return { (s.push .flowEntry).skip 1 with keyAllowed := true }

/-- A hyphen before an item, which opens a sequence in its column. -/
def blockEntry (s : Scanner) : Option Scanner := do
  let s ← if s.inFlow then some s
    else if s.keyAllowed then s.openBlock s.cursor.column s.nextNumber .blockSequence
    else none
  let s ← s.dropKey
  return { (s.push .blockEntry).skip 1 with keyAllowed := true }

/-- A question mark before a key, or a colon without one before it. Either opens a mapping in its
column. -/
def explicit (s : Scanner) (t : Token) : Option Scanner := do
  let s ← if s.inFlow then some s
    else if s.keyAllowed then s.openBlock s.cursor.column s.nextNumber .blockMapping
    else none
  return { (s.push t).skip 1 with keyAllowed := !s.inFlow }

/-- A colon, which makes the pending token a key if it still may be one. -/
def value (s : Scanner) : Option Scanner :=
  match s.level.pending with
  | some k =>
    if k.isLive s.cursor then do
      let s ← (s.insert k.number .key).openBlock k.column k.number .blockMapping
      return s.forget.pushContent .value s.cursor.step
    else do
      let s ← s.dropKey
      s.explicit .value
  | none => s.explicit .value

/-- A scalar in an indented block. -/
def block (s : Scanner) (literal : Bool) : Option Scanner := do
  let s ← s.dropKey
  let (text, c) ← blockScalar literal s.indent (s.size + 1) s.cursor.step
  return { s.pushContent (.scalar false text) c with keyAllowed := true }

/-- A scalar in quotes. -/
def quoted (s : Scanner) (reader : Nat → Cursor → Scanned) : Option Scanner := do
  let s ← s.awaitKey
  let (text, c) ← reader (s.size + 1) s.cursor.step
  return s.pushContent (.scalar false text) c

/-- A scalar without quotes. After it a key is allowed if it ended with its line. -/
def plain (s : Scanner) : Option Scanner := do
  let s ← s.awaitKey
  let (text, broken, c) ← plainScalar s.inFlow (s.indent + 1) (s.size + 1) s.cursor
  return { s.pushContent (.scalar true text) c with keyAllowed := broken }

/-- An anchor or a reference to one. -/
def named (s : Scanner) (token : List Char → Token) : Option Scanner := do
  let s ← s.awaitKey
  let (name, c) ← anchorName s.cursor.step
  return s.pushContent (token name) c

/-- A tag. -/
def tag (s : Scanner) : Option Scanner := do
  let s ← s.awaitKey
  let (token, c) ← tagToken (s.size + 1) s.cursor
  return s.pushContent token c

/-- Whether a plain scalar begins with the text. -/
def startsPlain (flow : Bool) : List Char → Bool
  | [] => false
  | ch :: rest =>
    if ch == '-' then !endsWord rest
    else if ch == '?' || ch == ':' then !flow && !endsWord rest
    else !(isSpace ch || isFlowMark ch
      || ['#', '&', '*', '!', '|', '>', '\x27', '"', '%', '@', '\x60'].contains ch)

/-- Scans the token that begins with a character. -/
def content (s : Scanner) (ch : Char) (rest : List Char) : Option Scanner :=
  let marks := s.inFlow || endsWord rest
  match ch with
  | '[' => s.openFlow .flowSequence
  | '{' => s.openFlow .flowMapping
  | ']' => s.closeFlow .flowSequenceEnd
  | '}' => s.closeFlow .flowMappingEnd
  | ',' => s.flowEntry
  | '*' => s.named .alias
  | '&' => s.named .anchor
  | '!' => s.tag
  | '\x27' => s.quoted singleQuoted
  | '"' => s.quoted doubleQuoted
  | _ =>
    if ch == '-' && endsWord rest then s.blockEntry
    else if ch == '?' && marks then do (← s.dropKey).explicit .key
    else if ch == ':' && marks then s.value
    else if ch == '|' && !s.inFlow then s.block true
    else if ch == '>' && !s.inFlow then s.block false
    else if startsPlain s.inFlow (ch :: rest) then s.plain
    else none

/-- Scans the next token. A comment in its line is passed over, except behind the hyphen of an
item. -/
def fetch (s : Scanner) : Option Scanner := do
  let (c, keyAllowed) ← s.cursor.toToken s.inFlow s.marked (s.size + 1) s.keyAllowed
  let s := closeBlocks { s with cursor := c, keyAllowed } c.column
  if (c.rest.take 4).contains unreadable then none
  else match c.rest with
    | [] => s.streamEnd
    | ch :: rest =>
      if c.column == 0 && ch == '%' then do
        let (token, after) ← directive (s.size + 1) c.step
        s.boundary token after
      else if c.atMarker '-' then s.boundary .documentStart (c.skip 3)
      else if c.atMarker '.' then s.boundary .documentEnd (c.skip 3)
      else do
        let s ← s.content ch rest
        if s.queue.getLast? == some .blockEntry then return s
        else return { s with cursor := ← s.cursor.skipLineComment }

/-- Whether a token of the level may still be in the queue. -/
def mayWait (s : Scanner) (l : Level) : Bool := s.taken ≤ l.number

/-- The pending key that is first in the queue, if it is awaited. -/
def firstKey (s : Scanner) : Option PendingKey :=
  ((s.level :: s.outer).takeWhile s.mayWait).findSome? fun l =>
    l.pending.filter fun k => k.awaited && k.number == s.taken

/-- Gives up the pending key that is first in the queue. -/
def dropFirstKey (s : Scanner) : Scanner :=
  let drop (l : Level) : Level :=
    { l with pending := l.pending.filter fun k => k.number != s.taken }
  let (near, far) := s.outer.span s.mayWait
  { s with level := drop s.level, outer := near.map drop ++ far }

/-- Scans until it is certain what the first token in the queue is. -/
def fill : (fuel : Nat) → Scanner → Option Scanner
  | 0, _ => none
  | fuel + 1, s =>
    if 3 ≤ s.queue.length then
      match s.firstKey with
      | none => some s
      | some k =>
        if k.isLive s.cursor then do fill fuel (← s.fetch)
        else if k.required then none
        else some s.dropFirstKey
    else do fill fuel (← s.fetch)

/-- The next token, which stays in the queue. -/
def peek (s : Scanner) : Option (Token × Scanner) := do
  let s ← fill (s.size + 4) s
  return (← s.queue.head?, s)

/-- Takes the next token from the queue. -/
def pop (s : Scanner) : Scanner := { s with queue := s.queue.drop 1, taken := s.taken + 1 }

end Scanner

end Indicial.Yaml
