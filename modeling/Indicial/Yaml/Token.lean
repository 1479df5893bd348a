import Indicial.Yaml.Scalar

/-!
# Tokens

The tokens of a YAML text, and the readers of those that carry a text of their own: names of anchors,
tags and directives.
-/

namespace Indicial.Yaml

/-- A token. The beginning and the end of block collections are tokens too, although nothing is
written for them. -/
inductive Token where
  | streamEnd
  | documentStart
  | documentEnd
  | version (major minor : Nat)
  | tagHandle (handle start : List Char)
  | blockSequence
  | blockMapping
  | blockEnd
  | flowSequence
  | flowSequenceEnd
  | flowMapping
  | flowMappingEnd
  | blockEntry
  | flowEntry
  | key
  | value
  | alias (name : List Char)
  | anchor (name : List Char)
  | tag (handle suffix : List Char)
  | scalar (isPlain : Bool) (text : List Char)
deriving DecidableEq

/-- The name of an anchor, behind the character that begins it. -/
def anchorName (c : Cursor) : Scanned :=
  let (name, after) := c.span isNameChar
  let ends := after.endsWord
    || (after.next?.map ['?', ':', ',', ']', '}', '%', '@', '\x60'].contains).getD false
  if !name.isEmpty && ends then some (name, after) else none

/-- The characters of a tag that stand for themselves. -/
def isTagChar (c : Char) : Bool :=
  isNameChar c || [';', '/', '?', ':', '@', '&', '=', '+', '$', ',', '.', '!', '~', '*', '\x27', '(',
    ')', '[', ']'].contains c

/-- The bytes that follow as percent signs with two hexadecimal digits each. -/
def percentBytes : (count : Nat) → List Char → Option Bytes
  | 0, _ => some []
  | count + 1, '%' :: high :: low :: rest => do
    let b := 16 * (← hexValue high) + (← hexValue low)
    return b.toUInt8 :: (← percentBytes count rest)
  | _, _ => none

/-- The character whose encoding is written with percent signs, and its number of bytes. -/
def percentChar (text : List Char) : Option (Char × Nat) := do
  let first ← (← percentBytes 1 text).head?
  let count := if first < 0x80 then 1 else if first < 0xE0 then 2 else if first < 0xF0 then 3 else 4
  match Utf8.scan (← percentBytes count text) with
  | [.char ch] => some (ch, count)
  | _ => none

/-- The text of a tag. -/
def tagText : (fuel : Nat) → Cursor → Scanned
  | 0, _ => none
  | fuel + 1, c =>
    match c.next? with
    | some '%' => do
      let (ch, count) ← percentChar c.rest
      (tagText fuel (c.skip (3 * count))).after [ch]
    | some ch => if isTagChar ch then (tagText fuel c.step).after [ch] else some ([], c)
    | none => some ([], c)

/-- A handle of tags: an exclamation mark, or a name between two of them. What begins with one mark
only may be the beginning of a tag without a handle. -/
def handleText (c : Cursor) : Scanned :=
  if c.next? != some '!' then none
  else
    let (name, after) := c.step.span isNameChar
    if after.next? == some '!' then some ('!' :: name ++ ['!'], after.step)
    else some ('!' :: name, after)

/-- A tag, at the exclamation mark that begins it. A tag in angle brackets has no handle. -/
def tagToken (fuel : Nat) (c : Cursor) : Option (Token × Cursor) := do
  let (token, c) ←
    if (c.rest.drop 1).head? == some '<' then do
      let (text, c) ← tagText fuel (c.skip 2)
      if !text.isEmpty && c.next? == some '>' then some (Token.tag [] text, c.step) else none
    else do
      let (handle, after) ← handleText c
      if 1 < handle.length && handle.getLast? == some '!' then do
        let (suffix, c) ← tagText fuel after
        if suffix.isEmpty then none else pure (Token.tag handle suffix, c)
      else do
        let (suffix, c) ← (tagText fuel after).after (handle.drop 1)
        pure (if suffix.isEmpty then Token.tag [] ['!'] else Token.tag ['!'] suffix, c)
  if c.endsWord then return (token, c) else none

/-- A number of at most two digits. -/
def versionNumber (c : Cursor) : Option (Nat × Cursor) :=
  let (digits, c) := c.span Char.isDigit
  if digits.isEmpty || 2 < digits.length then none
  else some (digits.foldl (fun n d => 10 * n + (d.toNat - 48)) 0, c)

/-- A directive, behind its percent sign: the version of the language or a handle for tags. It takes
the whole line. -/
def directive (fuel : Nat) (c : Cursor) : Option (Token × Cursor) := do
  let (name, c) := c.span isNameChar
  let body := c.skipWhile isBlank
  let (token, c) ←
    if !c.endsWord then none
    else if name == "YAML".toList then do
      let (major, c) ← versionNumber body
      if c.next? != some '.' then none
      else do
        let (minor, c) ← versionNumber c.step
        pure (Token.version major minor, c)
    else if name == "TAG".toList then do
      let (handle, c) ← handleText body
      let text := c.skipWhile isBlank
      let isHandle := handle == ['!'] || 1 < handle.length && handle.getLast? == some '!'
      if !isHandle || text.index == c.index then none
      else do
        let (start, c) ← tagText fuel text
        if start.isEmpty || !c.endsWord then none else pure (Token.tagHandle handle start, c)
    else none
  let c := c.skipWhile isBlank
  let c ← if c.next? == some '#' then c.skipLine else some c
  if c.atLineEnd then return (token, c.step) else none

end Indicial.Yaml
