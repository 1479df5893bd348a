import Indicial.Yaml.Cursor

/-!
# Scalars

The text of scalars without quotes, in quotes, and in indented blocks. In all but literal blocks line
breaks are folded: a single one becomes a space, and of more the first is dropped. Line and paragraph
separators are never dropped.
-/

namespace Indicial.Yaml

/-- A scanned text and the place after it. -/
abbrev Scanned := Option (List Char × Cursor)

/-- Puts text in front of what is scanned after it. -/
def Scanned.after (text : List Char) (s : Scanned) : Scanned :=
  s.map fun (more, c) => (text ++ more, c)

/-- What blanks and line breaks between two words stand for. -/
def fold (run : List Char) : List Char :=
  match run.filter isBreak with
  | [] => run
  | ['\n'] => [' ']
  | '\n' :: more => more
  | breaks => breaks

/-- Whether a tab stands left of the column `indent` in a line that begins inside the run. The column
is unknown until the first line break. -/
def tabIndents (indent : Int) : (column : Option Nat) → List Char → Bool
  | _, [] => false
  | column, ch :: rest =>
    if isBreak ch then tabIndents indent (some 0) rest
    else match column with
      | none => tabIndents indent none rest
      | some n => ch == '\t' && n < indent || tabIndents indent (some (n + 1)) rest

/-- The beginning of a text that belongs to one word of a plain scalar. A colon ends it if a blank
follows. -/
def plainWord (flow : Bool) : List Char → List Char
  | [] => []
  | ch :: rest =>
    if isSpace ch || ch == ':' && endsWord rest || flow && isFlowMark ch then []
    else ch :: plainWord flow rest

/-- The words of a plain scalar after its first one, and whether a line break follows it. It goes on
over lines that are indented at least to `indent`, and ends before a comment. -/
def plainTail (flow : Bool) (indent : Int) :
    (fuel : Nat) → Cursor → Option (List Char × Bool × Cursor)
  | 0, _ => none
  | fuel + 1, c =>
    let (run, after) := c.span isSpace
    let broken := run.any isBreak
    if run.isEmpty then some ([], false, c)
    else if tabIndents indent none run || after.next? == some unreadable then none
    else if !flow && after.column < indent || after.atBoundary || after.next? == some '#' then
      some ([], broken, after)
    else match plainWord flow after.rest with
      | [] => some ([], broken, after)
      | word => do
        let (more, broken, c) ← plainTail flow indent fuel (after.skip word.length)
        return (fold run ++ word ++ more, broken, c)

/-- A plain scalar, whether a line break follows it, and the place after it. -/
def plainScalar (flow : Bool) (indent : Int) (fuel : Nat) (c : Cursor) :
    Option (List Char × Bool × Cursor) := do
  let word := plainWord flow c.rest
  let (more, broken, c) ← plainTail flow indent fuel (c.skip word.length)
  if word.contains unreadable || more.contains unreadable then none
  else return (word ++ more, broken, c)

/-- A scalar behind its opening single quote. A quote is written twice. -/
def singleQuoted : (fuel : Nat) → Cursor → Scanned
  | 0, _ => none
  | fuel + 1, c =>
    if c.atBoundary then none
    else match c.rest with
      | [] => none
      | '\x27' :: '\x27' :: _ => (singleQuoted fuel (c.skip 2)).after ['\x27']
      | '\x27' :: _ => some ([], c.step)
      | ch :: _ =>
        if ch == unreadable then none
        else if isSpace ch then
          let (run, after) := c.span isSpace
          (singleQuoted fuel after).after (fold run)
        else (singleQuoted fuel c.step).after [ch]

/-- The character with a number in hexadecimal digits, if there are `width` of them. -/
def numbered (width : Nat) (digits : List Char) : Option (Char × Nat) := do
  let values ← (digits.take width).mapM hexValue
  let n := values.foldl (fun n v => 16 * n + v) 0
  if values.length = width ∧ n.isValidChar then some (Char.ofNat n, 1 + width) else none

/-- What a backslash before the text stands for, and how many characters belong to it. -/
def escape : List Char → Option (Char × Nat)
  | [] => none
  | ch :: rest =>
    match ch with
    | '0' => some (Char.ofNat 0, 1)
    | 'a' => some ('\x07', 1)
    | 'b' => some ('\x08', 1)
    | 't' | '\t' => some ('\t', 1)
    | 'n' => some ('\n', 1)
    | 'v' => some ('\x0b', 1)
    | 'f' => some ('\x0c', 1)
    | 'r' => some ('\r', 1)
    | 'e' => some ('\x1b', 1)
    | ' ' => some (' ', 1)
    | '"' => some ('"', 1)
    | '\x27' => some ('\x27', 1)
    | '\\' => some ('\\', 1)
    | 'N' => some ('\u0085', 1)
    | '_' => some ('\u00A0', 1)
    | 'L' => some ('\u2028', 1)
    | 'P' => some ('\u2029', 1)
    | 'x' => numbered 2 rest
    | 'u' => numbered 4 rest
    | 'U' => numbered 8 rest
    | _ => none

/-- A scalar behind its opening double quote. A backslash at the end of a line joins it to the next
one. -/
def doubleQuoted : (fuel : Nat) → Cursor → Scanned
  | 0, _ => none
  | fuel + 1, c =>
    if c.atBoundary then none
    else match c.rest with
      | [] => none
      | '"' :: _ => some ([], c.step)
      | '\\' :: rest =>
        if (rest.head?.map isBreak).getD false then
          let (run, after) := (c.skip 2).span isSpace
          (doubleQuoted fuel after).after (run.filter isBreak)
        else do
          let (ch, width) ← escape rest
          (doubleQuoted fuel (c.skip (1 + width))).after [ch]
      | ch :: _ =>
        if ch == unreadable then none
        else if isSpace ch then
          let (run, after) := c.span isSpace
          (doubleQuoted fuel after).after (fold run)
        else (doubleQuoted fuel c.step).after [ch]

/-- What happens to the line breaks at the end of a block. -/
inductive Chomping where
  | strip
  | clip
  | keep
deriving DecidableEq

/-- How the end of a block is treated, if that is said. -/
def chompingMark (c : Cursor) : Option Chomping × Cursor :=
  match c.next? with
  | some '+' => (some .keep, c.step)
  | some '-' => (some .strip, c.step)
  | _ => (none, c)

/-- How far a block is indented, if that is said. -/
def indentMark (c : Cursor) : Option Nat × Cursor :=
  match c.next? with
  | some ch => if ch.isDigit then (some (ch.toNat - 48), c.step) else (none, c)
  | none => (none, c)

/-- The heading of a block, behind its first character. The two marks come in either order. -/
def blockHeader (c : Cursor) : Option (Chomping × Option Nat × Cursor) := do
  let (ending, indent, c) := match chompingMark c with
    | (some ending, c) => let (indent, c) := indentMark c; (some ending, indent, c)
    | (none, c) =>
      match indentMark c with
      | (some n, c) => let (ending, c) := chompingMark c; (ending, some n, c)
      | (none, c) => (none, none, c)
  if indent = some 0 then none
  else do
    let c := c.skipWhile isBlank
    let c ← if c.next? == some '#' then c.skipLine else some c
    if c.atLineEnd then return (ending.getD .clip, indent, c.step) else none

/-- The line breaks before a line of a block that holds text, the largest indentation among them and
the place in that line. The indentation is at most `indent`, unless that is zero. -/
def blockBreaks (indent : Nat) : (fuel deepest : Nat) → Cursor → Option (List Char × Nat × Cursor)
  | 0, _, _ => none
  | fuel + 1, deepest, c =>
    let spaces := (c.rest.takeWhile (· == ' ')).length
    let c := c.skip (if indent = 0 then spaces else min spaces (indent - c.column))
    let deepest := max deepest c.column
    match c.next? with
    | some ch =>
      if ch == unreadable || ch == '\t' && (indent = 0 || c.column < indent) then none
      else if isBreak ch then do
        let (breaks, deepest, c) ← blockBreaks indent fuel deepest c.step
        return (ch :: breaks, deepest, c)
      else some ([], deepest, c)
    | none => some ([], deepest, c)

/-- The lines of a block: their text, the line break after the last of them and those that follow.
`blank` says whether the line before began with a blank, and `final` and `empty` are its line break
and those after it. -/
def blockLines (literal : Bool) (indent : Nat) : (fuel : Nat) → (blank : Bool) →
    (final empty : List Char) → Cursor → Option (List Char × List Char × List Char × Cursor)
  | 0, _, _, _, _ => none
  | fuel + 1, blank, final, empty, c =>
    match c.next? with
    | none => some ([], final, empty, c)
    | some ch =>
      if c.column != indent then some ([], final, empty, c)
      else do
        let joined :=
          if !literal && !blank && !isBlank ch && final == ['\n'] then
            if empty.isEmpty then [' '] else empty
          else final ++ empty
        let (line, c) := c.span fun ch => !isBreak ch
        if line.contains unreadable then none
        else do
          let (empty, _, after) ← blockBreaks indent (c.rest.length + 1) 0 c.step
          let (more, rest) ←
            blockLines literal indent fuel (isBlank ch) (c.rest.take 1) empty after
          return (joined ++ line ++ more, rest)

/-- A scalar in an indented block, behind the character that begins it. `outer` is the indentation of
what the block belongs to. -/
def blockScalar (literal : Bool) (outer : Int) (fuel : Nat) (c : Cursor) : Scanned := do
  let (ending, indent, c) ← blockHeader c
  let indent := (indent.map fun n => outer.toNat + n).getD 0
  let (empty, deepest, c) ← blockBreaks indent fuel 0 c
  let indent := if indent = 0 then max deepest (max (outer + 1).toNat 1) else indent
  let (text, final, empty, c) ← blockLines literal indent fuel false [] empty c
  return match ending with
    | .strip => (text, c)
    | .clip => (text ++ final, c)
    | .keep => (text ++ final ++ empty, c)

end Indicial.Yaml
