import Indicial.Error

/-!
# Log records

A record has a level, a message and attributes. It is written as a line of `key=value` pairs or as a
JSON object. The text form puts a key or value in quotes when it is empty, or holds a space, an equals
sign, a quote, a control character or a character that cannot be printed.
-/

namespace Indicial.Log

/-- The four named levels; numbers between and beyond them are levels too. -/
inductive Level where
  | debug | info | warn | error
deriving DecidableEq, Inhabited

/-- The number of a named level. -/
def Level.number : Level → Int
  | .debug => -4
  | .info => 0
  | .warn => 4
  | .error => 8

/-- A level as the nearest named level below it and the distance to that. -/
def levelName (n : Int) : Bytes :=
  let above (base : String) (level : Level) : Bytes :=
    let d := n - level.number
    if d = 0 then Bytes.ofString base
    else Bytes.ofString base ++ (if d < 0 then [] else [43]) ++ Bytes.ofInt d
  if n < 0 then above "DEBUG" .debug
  else if n < 4 then above "INFO" .info
  else if n < 8 then above "WARN" .warn
  else above "ERROR" .error

/-- How records are written. -/
inductive Format where
  | text | json
deriving DecidableEq, Inhabited

/-- Characters that count as white space. -/
def isSpace (c : Char) : Bool :=
  let n := c.toNat
  9 ≤ n && n ≤ 13 || n == 32 || n == 0x85 || n == 0xA0 || n == 0x1680 || 0x2000 ≤ n && n ≤ 0x200A
    || n == 0x2028 || n == 0x2029 || n == 0x202F || n == 0x205F || n == 0x3000

/-- Whether a piece is white space. -/
def isSpacePiece : Utf8.Piece → Bool
  | .char c => isSpace c
  | .stray _ => false

/-- The pieces without white space at both ends. -/
def trim (ps : List Utf8.Piece) : List Utf8.Piece :=
  ((ps.dropWhile isSpacePiece).reverse.dropWhile isSpacePiece).reverse

/-- A character in lower case, as far as the words of this module go: the capital letter I with a dot
becomes a plain `i`. -/
def lowerChar (c : Char) : Char := if c.toNat = 0x130 then 'i' else c.toLower

/-- Whether the pieces spell a word, cases aside. -/
def spells (ps : List Utf8.Piece) (word : String) : Bool :=
  let lowered : List (Option Char) := ps.map fun
    | .char c => some (lowerChar c)
    | .stray _ => none
  lowered == word.toList.map some

/-- Reads the name of a level; white space around it does not count. -/
def parseLevel (s : Bytes) : Except Error Level :=
  let is (word : String) : Bool := spells (trim (Utf8.scan s)) word
  if is "debug" then .ok .debug
  else if is "" || is "info" then .ok .info
  else if is "warn" || is "warning" then .ok .warn
  else if is "error" then .ok .error
  else .error (.problem (.logLevel s))

/-- Reads the name of a format. -/
def parseFormat (s : Bytes) : Except Error Format :=
  let is (word : String) : Bool := spells (Utf8.scan s) word
  if is "text" || is "" then .ok .text
  else if is "json" then .ok .json
  else .error (.problem (.logFormat s))

/-- A record. -/
structure Record where
  level : Int
  message : Bytes
  attributes : List (Bytes × Bytes)

/-- Whether a piece calls for quotes in the text form. -/
def callsForQuotes : Utf8.Piece → Bool
  | .stray _ => true
  | .char c =>
    let n := c.toNat
    if n < 128 then n ≤ 32 || n == 61 || n == 34
    else n == 0xFFFD || !Printable.isPrintable c

/-- A key or value in the text form. -/
def textItem (s : Bytes) : Bytes :=
  if s.isEmpty || (Utf8.scan s).any callsForQuotes then Quoted.text s else s

/-- A piece of a JSON string. -/
def jsonPiece : Utf8.Piece → Bytes
  | .stray _ => Bytes.ofString "\\ufffd"
  | .char c =>
    let n := c.toNat
    if n = 34 || n = 92 then [92, n.toUInt8]
    else if n = 10 then Bytes.ofString "\\n"
    else if n = 13 then Bytes.ofString "\\r"
    else if n = 9 then Bytes.ofString "\\t"
    else if n < 32 then Bytes.ofString "\\u" ++ Bytes.hexOfNat 4 n
    else if n = 0x2028 || n = 0x2029 then Bytes.ofString "\\u" ++ Bytes.hexOfNat 4 n
    else Utf8.encode c

/-- A JSON string. -/
def jsonItem (s : Bytes) : Bytes := [34] ++ (Utf8.scan s).flatMap jsonPiece ++ [34]

/-- The pairs of a record's line: the level, the message, the service if it has a name, and the
attributes. -/
def pairs (service : Bytes) (r : Record) : List (Bytes × Bytes) :=
  [(Bytes.ofString "level", levelName r.level), (Bytes.ofString "msg", r.message)]
    ++ (if service.isEmpty then [] else [(Bytes.ofString "service", service)]) ++ r.attributes

/-- The line of a record. -/
def line (format : Format) (service : Bytes) (r : Record) : Bytes :=
  let pairs := pairs service r
  match format with
  | .text => Bytes.join [32] (pairs.map fun (k, v) => textItem k ++ [61] ++ textItem v) ++ [10]
  | .json => [123] ++ Bytes.join [44] (pairs.map fun (k, v) => jsonItem k ++ [58] ++ jsonItem v)
      ++ [125, 10]

/-- The lines of the records that have at least a level. -/
def lines (level : Level) (format : Format) (service : Bytes) (rs : List Record) : Bytes :=
  (rs.filter fun r => level.number ≤ r.level).flatMap (line format service)

end Indicial.Log
