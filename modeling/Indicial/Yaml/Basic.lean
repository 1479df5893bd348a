import Indicial.Text.Bytes

/-!
# YAML documents

The tree of a YAML document: scalars, sequences and mappings. References to anchored nodes are
already replaced by what they refer to, and the tag of a collection says nothing that its shape does
not say.
-/

namespace Indicial

/-- A node of a document. -/
inductive Yaml where
  /-- A scalar without quotes, whose text decides what it stands for. -/
  | plain (text : Bytes)
  /-- A scalar that is a string, whatever its text. -/
  | quoted (text : Bytes)
  /-- A scalar that has to stand for a value of the type that its tag names. -/
  | tagged (tag text : Bytes)
  | sequence (items : List Yaml)
  | mapping (entries : List (Yaml × Yaml))
  /-- A reference to a collection from inside it, which stands for no value. -/
  | cyclic
deriving Inhabited

namespace Yaml

/-- A missing node, which stands for nothing. -/
def null : Yaml := plain []

/-- The beginning of the tags that name a type of values. -/
def ownTags : String := "!!"

/-- Collections and flow brackets nest at most this deep. -/
def maxDepth : Nat := 10000

end Yaml

end Indicial
