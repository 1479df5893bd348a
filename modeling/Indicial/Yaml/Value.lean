import Indicial.Literal
import Indicial.Number.Reader
import Indicial.Yaml.Basic

/-!
# What YAML nodes stand for

A plain scalar stands for nothing, a truth value, a number or a string, as its text says; a quoted one
is always a string. The readers of this module take a node as a value of a wanted type. A node that
stands for nothing leaves the default of that type, and a node of another type is refused.
-/

namespace Indicial.Yaml

/-- What a plain scalar stands for. -/
inductive Value where
  | nothing
  | truth (b : Bool)
  | integer (n : Int)
  | float (x : Binary64)
  | string
deriving DecidableEq

/-- Whether the text is one of the words. -/
def isOneOf (words : List String) (text : Bytes) : Bool :=
  words.any fun w => Bytes.ofString w == text

/-- Digits with at most one point, and an exponent: what a decimal number looks like. -/
def isDecimal (text : Bytes) : Bool :=
  let (_, body) := Number.splitSign text
  let whole := body.takeWhile Bytes.isDigit
  let rest := body.drop whole.length
  let (places, rest) := match rest with
    | 46 :: more => (more.takeWhile Bytes.isDigit, more.dropWhile Bytes.isDigit)
    | rest => ([], rest)
  let exponentOk := match rest with
    | [] => true
    | e :: more =>
      let digits := (Number.splitSign more).2
      Bytes.lowerByte e == 101 && !digits.isEmpty && digits.all Bytes.isDigit
  (!whole.isEmpty || !places.isEmpty) && exponentOk

/-- The floating-point number of a text, if it is one. -/
def float? (text : Bytes) : Option Value :=
  match Number.readFloat text with
  | .ok x => some (.float x)
  | .error _ => none

/-- An integer of 64 bits, with a sign or without. -/
def integer? (base : Option Nat) (text : Bytes) : Option Value :=
  match Number.readInt64 base text, Number.readWord base text with
  | .ok n, _ => some (.integer n.toInt)
  | .error _, .ok n => some (.integer n)
  | .error _, .error _ => none

/-- An integer behind the mark of its base. A minus sign stands before the mark or behind it. -/
def marked? (mark : String) (base : Nat) (text : Bytes) : Option Value :=
  let mark := Bytes.ofString mark
  if text.startsWith mark then integer? (some base) (text.drop mark.length)
  else if text.startsWith (45 :: mark) then integer? (some base) (45 :: text.drop (mark.length + 1))
  else none

/-- The number of a text that begins with a sign or a digit. Underscores count for nothing. -/
def number? (text : Bytes) : Option Value :=
  let digits := text.filter (· != 95)
  integer? none digits
    <|> (if isDecimal digits then float? digits else none)
    <|> marked? "0b" 2 digits
    <|> marked? "0o" 8 digits

/-- What the text of a plain scalar stands for. -/
def resolve (text : Bytes) : Value :=
  if text.isEmpty || isOneOf ["~", "null", "Null", "NULL"] text then .nothing
  else if isOneOf ["true", "True", "TRUE"] text then .truth true
  else if isOneOf ["false", "False", "FALSE"] text then .truth false
  else if isOneOf [".nan", ".NaN", ".NAN"] text then .float Binary64.nan
  else if isOneOf [".inf", ".Inf", ".INF", "+.inf", "+.Inf", "+.INF"] text then
    .float Binary64.infinity
  else if isOneOf ["-.inf", "-.Inf", "-.INF"] text then .float Binary64.infinity.neg
  else match text with
    | 46 :: _ => (float? text).getD .string
    | b :: _ =>
      if Bytes.isDigit b || b == 43 || b == 45 then (number? text).getD .string else .string
    | [] => .nothing

/-- The tag of a value. -/
def Value.tag : Value → String
  | .nothing => ownTags ++ "null"
  | .truth _ => ownTags ++ "bool"
  | .integer _ => ownTags ++ "int"
  | .float _ => ownTags ++ "float"
  | .string => ownTags ++ "str"

/-- What a scalar stands for. A tag has to be that of the value, except that an integer may be taken
for a floating-point number. -/
def scalar? : Yaml → Option Value
  | plain text => some (resolve text)
  | quoted _ => some .string
  | tagged tag text =>
    let value := resolve text
    if tag == Bytes.ofString value.tag then some value
    else match value with
      | .integer n =>
        if tag == Bytes.ofString (ownTags ++ "float") && Number.fitsWord n then
          some (.float (Binary64.ofInt n))
        else none
      | _ => none
  | _ => none

/-- Whether a node stands for nothing. -/
def isNothing (node : Yaml) : Bool := node.scalar? == some .nothing

/-- The text of a scalar, whatever it stands for. -/
def scalarText? : Yaml → Option Bytes
  | plain text | quoted text | tagged _ text => some text
  | _ => none

/-- A node as a string: the text of any scalar that stands for something. -/
def asString (node : Yaml) : Option Bytes :=
  match node.scalar? with
  | some .nothing => some []
  | some _ => node.scalarText?
  | none => none

/-- A number as a 64-bit integer, rounded towards zero, if it lies below the largest one. -/
def truncate (x : Binary64) : Option Int64 :=
  if x.isNaN then none
  else if x.isInfinite then (if x.signed then some Int64.minValue else none)
  else
    let (m, e) := x.parts
    let size := m * Nat.pow 2 e.toNat / Nat.pow 2 (-e).toNat
    if Number.wordLimit < size then if x.signed then some Int64.minValue else none
    else some (Int64.ofInt (if x.signed then -size else size))

/-- A node as an integer. -/
def asInt (node : Yaml) : Option Int64 :=
  match node.scalar? with
  | some .nothing => some 0
  | some (.integer n) => if Number.fitsWord n then some (Int64.ofInt n) else none
  | some (.float x) => truncate x
  | _ => none

/-- A node as a floating-point number. -/
def asFloat (node : Yaml) : Option Binary64 :=
  match node.scalar? with
  | some .nothing => some Binary64.zero
  | some (.integer n) => some (Binary64.ofInt n)
  | some (.float x) => some x
  | _ => none

/-- A node as a list. Items that stand for nothing are left out. -/
def asList {α : Type} (item : Yaml → Option α) : Yaml → Option (List α)
  | sequence items => (items.filter fun n => !n.isNothing).mapM item
  | node => if node.isNothing then some [] else none

/-- Whether a list has an entry twice. -/
def hasRepeat : List Bytes → Bool
  | [] => false
  | k :: rest => rest.contains k || hasRepeat rest

/-- Whether a key asks for the entries of other mappings. -/
def isMerge : Yaml → Bool
  | plain text => text == Bytes.ofString "<<"
  | tagged tag text =>
    text == Bytes.ofString "<<" && tag == Bytes.ofString (ownTags ++ "merge")
  | _ => false

/-- The mappings that a merged value stands for: it is one or a list of them. -/
def mergeable : Yaml → Option (List Yaml)
  | mapping entries => some [mapping entries]
  | sequence items => items.mapM fun
    | mapping entries => some (mapping entries)
    | _ => none
  | _ => none

/-- The first entry of every key. -/
def distinct : List (Bytes × Yaml) → List (Bytes × Yaml)
  | [] => []
  | e :: rest => e :: (distinct rest).filter fun f => f.1 != e.1

/-- The entries of a mapping with those of the mappings merged into it, `depth` deep at most. Keys are
scalars, each text occurs once, and a key that stands for nothing is left out. -/
def entries : (depth : Nat) → Yaml → Option (List (Bytes × Yaml))
  | 0, _ => none
  | depth + 1, mapping pairs => do
    let texts ← pairs.mapM fun e => e.1.scalarText?
    if hasRepeat texts then none
    else do
      let (merged, own) := pairs.partition fun e => e.1.isMerge
      let own ← (own.filter fun e => !e.1.isNothing).mapM fun e => do return (← e.1.asString, e.2)
      let sources ← merged.mapM fun e => e.2.mergeable
      let others ← sources.flatten.mapM (entries depth)
      return distinct (own ++ others.flatten)
  | _, node => if node.isNothing then some [] else none

/-- A node as keys and values. -/
def asEntries (node : Yaml) : Option (List (Bytes × Yaml)) := entries maxDepth node

/-- The value of a key, or nothing. -/
def field (entries : List (Bytes × Yaml)) (key : String) : Yaml :=
  match entries.find? fun e => e.1 == Bytes.ofString key with
  | some (_, node) => node
  | none => null

end Indicial.Yaml
