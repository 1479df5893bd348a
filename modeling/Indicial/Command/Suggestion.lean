import Indicial.Text.Utf8

/-!
# Suggestions for mistyped names

A name is suggested when it is at most two edits away from what was typed, or begins with it. Cases do
not count.
-/

namespace Indicial.Command

/-- The next row of the table of edit distances: `above` is the row before, `corner` its first entry,
and `left` the entry just made. -/
def editRow (b : UInt8) : (corner left : Nat) → Bytes → List Nat → List Nat
  | corner, left, c :: cs, up :: ups =>
    let cost := if b == c then corner else 1 + min corner (min left up)
    cost :: editRow b up cost cs ups
  | _, _, _, _ => []

/-- The rows of the table, one for each byte of the first name; the last one is given. -/
def editRows (t : Bytes) : Bytes → (row : List Nat) → List Nat
  | [], row => row
  | b :: rest, row =>
    match row with
    | [] => []
    | corner :: ups => editRows t rest ((corner + 1) :: editRow b corner (corner + 1) t ups)

/-- The number of insertions, removals and replacements between two names. -/
def distance (s t : Bytes) : Nat :=
  ((editRows t s (List.range (t.length + 1))).getLast?).getD 0

/-- The code points of the capital letters whose small letter takes another number of bytes, and of the
small letter. -/
def resized : List (Nat × Nat) :=
  [(0x130, 0x69), (0x23a, 0x2c65), (0x23e, 0x2c66), (0x1e9e, 0xdf), (0x2126, 0x3c9),
    (0x212a, 0x6b), (0x212b, 0xe5), (0x2c62, 0x26b), (0x2c64, 0x27d), (0x2c6d, 0x251),
    (0x2c6e, 0x271), (0x2c6f, 0x250), (0x2c70, 0x252), (0x2c7e, 0x23f), (0x2c7f, 0x240),
    (0xa78d, 0x265), (0xa7aa, 0x266), (0xa7ab, 0x25c), (0xa7ac, 0x261), (0xa7ad, 0x26c),
    (0xa7ae, 0x26a), (0xa7b0, 0x29e), (0xa7b1, 0x287), (0xa7b2, 0x29d), (0xa7c5, 0x282),
    (0xa7cb, 0x264), (0xa7dc, 0x19b)]

/-- A text in lower case, as far as edits go: a letter that is no ASCII letter before or after is as
good as any other of its size. -/
def lowered (text : Bytes) : Bytes :=
  (Utf8.scan text).flatMap fun
    | .char c => Bytes.lower (Utf8.encode (Char.ofNat ((resized.lookup c.toNat).getD c.toNat)))
    | .stray _ => Utf8.encode (Char.ofNat 0xFFFD)

/-- The names that what was typed may stand for. -/
def suggestions (names : List String) (typed : Bytes) : List Bytes :=
  let typed := lowered typed
  (names.map Bytes.ofString).filter fun name =>
    distance typed (Bytes.lower name) ≤ 2 || Bytes.startsWith (Bytes.lower name) typed

end Indicial.Command
