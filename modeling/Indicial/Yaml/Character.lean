import Indicial.Text.Utf8

/-!
# Characters of YAML text

A text is UTF-8, with or without a byte order mark, or UTF-16 with one, and holds printable
characters, tabs and line breaks. It is read in portions: a bad character spoils its portion, which
matters to those who read that far and to nobody else. The spoilt part is represented by one character
that no text contains.

Carriage returns, alone or before a line feed, and the next-line character are line breaks like the
line feed. The line and paragraph separators are line breaks too, and are kept as they are.
-/

namespace Indicial.Yaml

/-- Stands where the text cannot be read any further. -/
def unreadable : Char := Char.ofNat 0

/-- A space or a tab. -/
def isBlank (c : Char) : Bool := c == ' ' || c == '\t'

/-- A line break. -/
def isBreak (c : Char) : Bool := c == '\n' || c == '\u2028' || c == '\u2029'

/-- A blank or a line break. -/
def isSpace (c : Char) : Bool := isBlank c || isBreak c

/-- A letter, a digit, a hyphen or an underscore: what names are made of. -/
def isNameChar (c : Char) : Bool := c.isAlphanum || c == '-' || c == '_'

/-- A bracket, comma or question mark, which ends a plain scalar in a flow collection. -/
def isFlowMark (c : Char) : Bool := [',', '?', '[', ']', '{', '}'].contains c

/-- Whether the text ends or goes on with a blank or a line break. -/
def endsWord : List Char → Bool
  | [] => true
  | c :: _ => isSpace c

/-- The value of a hexadecimal digit. -/
def hexValue (c : Char) : Option Nat :=
  if c.isDigit then some (c.toNat - 48)
  else if 'a' ≤ c && c ≤ 'f' then some (c.toNat - 87)
  else if 'A' ≤ c && c ≤ 'F' then some (c.toNat - 55)
  else none

/-- Whether a character may stand in a document. -/
def isAllowed (c : Char) : Bool :=
  let n := c.toNat
  n == 9 || n == 10 || n == 13 || 0x20 ≤ n && n ≤ 0x7E || n == 0x85
    || 0xA0 ≤ n && n ≤ 0xD7FF || 0xE000 ≤ n && n ≤ 0xFFFD || 0x10000 ≤ n

/-- A character of an encoded text, unless the encoding is broken there, and its number of bytes. -/
structure Encoded where
  char : Option Char
  width : Nat

/-- The characters of a text in UTF-8. -/
def ofUtf8 (source : Bytes) : List Encoded :=
  (Utf8.scan source).map fun
    | .char c => ⟨some c, c.utf8Size⟩
    | .stray _ => ⟨none, 1⟩

/-- The number of two bytes, of which the first is the higher one if `big` is set. -/
def unit16 (big : Bool) (a b : UInt8) : Nat :=
  if big then 256 * a.toNat + b.toNat else 256 * b.toNat + a.toNat

/-- The characters of a text in UTF-16. -/
def ofUtf16 (big : Bool) : Bytes → List Encoded
  | [] => []
  | [_] => [⟨none, 1⟩]
  | a :: b :: rest =>
    let high := unit16 big a b
    if high < 0xD800 || 0xDFFF < high then ⟨some (Char.ofNat high), 2⟩ :: ofUtf16 big rest
    else match rest with
      | c :: d :: rest =>
        let low := unit16 big c d
        if high < 0xDC00 && 0xDC00 ≤ low && low ≤ 0xDFFF then
          let n := 0x10000 + (high - 0xD800) * 0x400 + (low - 0xDC00)
          ⟨some (Char.ofNat n), 4⟩ :: ofUtf16 big rest
        else [⟨none, 2⟩]
      | _ => [⟨none, 2⟩]

/-- The characters of a text, and the size of its byte order mark. -/
def decode (source : Bytes) : List Encoded × Nat :=
  match source with
  | 0xEF :: 0xBB :: 0xBF :: rest => (ofUtf8 rest, 3)
  | 0xFE :: 0xFF :: rest => (ofUtf16 true rest, 2)
  | 0xFF :: 0xFE :: rest => (ofUtf16 false rest, 2)
  | source => (ofUtf8 source, 0)

/-- The number of bytes in a portion. -/
def portion : Nat := 512

/-- The characters up to the first spoilt portion, with `room` bytes left in the current one and its
characters so far in `held`, last first. A character that does not fit begins the next portion. -/
def readable : (room : Nat) → (held : List Char) → List Encoded → List Char
  | _, held, [] => held.reverse
  | room, held, ⟨char, width⟩ :: rest =>
    match char.filter isAllowed with
    | some c =>
      if room < width then held.reverse ++ readable (portion - width) [c] rest
      else readable (room - width) (c :: held) rest
    | none => if room < width then held.reverse ++ [unreadable] else [unreadable]

/-- How many characters begin in `room` bytes. -/
def countWithin : (room : Nat) → List Encoded → Nat
  | _, [] => 0
  | room, e :: rest => if room < e.width then 0 else countWithin (room - e.width) rest + 1

/-- Every line break that is not a separator as a line feed. -/
def unifyBreaks : List Char → List Char
  | [] => []
  | '\r' :: '\n' :: rest => '\n' :: unifyBreaks rest
  | '\r' :: rest => '\n' :: unifyBreaks rest
  | '\u0085' :: rest => '\n' :: unifyBreaks rest
  | c :: rest => c :: unifyBreaks rest

/-- A text to be scanned. -/
structure Text where
  characters : List Char
  /-- Lines that begin among the first so many characters have a byte order mark in front. -/
  marked : Nat

/-- The text that bytes encode. If a second byte order mark follows the first one, the lines of the
first portion are taken to begin with one each, whatever stands there. -/
def Text.ofBytes (source : Bytes) : Text :=
  let (text, mark) := decode source
  let first := (text.head?.bind Encoded.char) == some '\uFEFF'
  { characters := unifyBreaks (readable (portion - mark) [] text)
    marked := if first then max 1 (countWithin (portion - mark) text - 3) else 0 }

/-- The UTF-8 encoding of characters. -/
def encode (text : List Char) : Bytes := text.flatMap Utf8.encode

end Indicial.Yaml
