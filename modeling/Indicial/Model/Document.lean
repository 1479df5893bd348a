import Indicial.Model.Basic
import Indicial.Yaml.Parser
import Indicial.Yaml.Value

/-!
# Model documents

A model is described by a YAML document with the keys `name`, `dimension`, `tensors`, `equations` and
`constants`. Other keys are passed over, and a missing one has the default of its type. Constants are
keyed by binding name.
-/

namespace Indicial.Model

open Yaml

/-- A declaration, `{name, order}`. -/
def declarationOf (node : Yaml) : Option Declaration := do
  let entries ← node.asEntries
  return ⟨← (field entries "name").asString, ← (field entries "order").asInt⟩

/-- An equation, `{lhs, index, rhs}`. -/
def equationOf (node : Yaml) : Option EquationSource := do
  let entries ← node.asEntries
  return ⟨← (field entries "lhs").asString, ← (field entries "index").asString,
    ← (field entries "rhs").asString⟩

/-- The constants, a mapping from names to numbers. -/
def constantsOf (node : Yaml) : Option (List (Binding Binary64)) := do
  let entries ← node.asEntries
  entries.mapM fun (name, value) => do return ⟨name, ← value.asFloat⟩

/-- The description of a model in a document. -/
def sourceOf (node : Yaml) : Option Source := do
  let entries ← node.asEntries
  return {
    name := ← (field entries "name").asString
    dimension := ← (field entries "dimension").asInt
    tensors := ← (field entries "tensors").asList declarationOf
    equations := ← (field entries "equations").asList equationOf
    constants := ← constantsOf (field entries "constants") }

/-- Reads the description of a model. -/
def Source.parse (text : Bytes) : Except Error Source :=
  match Yaml.parse text >>= sourceOf with
  | some src => .ok src
  | none => .error .document

/-- Reads a model and builds its system. -/
def parse (text : Bytes) : Except Error Model := do
  let src ← Source.parse text
  src.build

end Indicial.Model
