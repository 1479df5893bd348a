import Indicial.Log
import Indicial.Model.Basic
import Indicial.Program.Basic

/-!
# Binding constants

The constants of a program get their values by name. The first binding of a name counts; bindings that
the program does not read, and further bindings of a name, are passed over with a warning. Every
constant has to be bound.
-/

namespace Indicial

/-- A binding that was passed over. -/
inductive Warning (α : Type) where
  | unused (name : Bytes) (dim : Int64)
  | duplicate (name : Bytes) (kept ignored : α)

/-- The log record of a warning; `write` gives the text of a value. -/
def Warning.record {α : Type} (write : α → Bytes) : Warning α → Log.Record
  | .unused name dim => ⟨Log.Level.warn.number, "ignoring binding of unused constant",
      [("constant", name), ("dim", Bytes.ofInt dim.toInt)]⟩
  | .duplicate name kept ignored => ⟨Log.Level.warn.number, "ignoring duplicate constant binding",
      [("constant", name), ("kept", write kept), ("ignored", write ignored)]⟩

namespace Catalog

/-- The constant that a name stands for: the last one of that name. -/
def constantOf? (c : Catalog) (name : Bytes) : Option Nat :=
  (c.constantKeys.zipIdx.reverse.find? fun entry => entry.1 == name).map (·.2)

end Catalog

namespace Constants

variable {α : Type}

/-- Values found so far, by constant, and the warnings given. -/
structure Progress (α : Type) where
  values : List (Option α)
  warnings : List (Warning α)

/-- Takes one binding. -/
def bind (c : Catalog) (dim : Int64) (s : Progress α) (b : Binding α) : Progress α :=
  match c.constantOf? b.name with
  | none => { s with warnings := s.warnings ++ [.unused b.name dim] }
  | some i =>
    match (s.values[i]?).getD none with
    | some kept => { s with warnings := s.warnings ++ [.duplicate b.name kept b.value] }
    | none => { s with values := s.values.set i (some b.value) }

/-- Takes all bindings in order. -/
def bindAll (c : Catalog) (dim : Int64) (bs : List (Binding α)) : Progress α :=
  bs.foldl (bind c dim) ⟨c.constants.map fun _ => none, []⟩

/-- The names of the constants without a value. -/
def missing (c : Catalog) (values : List (Option α)) : List Bytes :=
  (c.constantKeys.zip values).filterMap fun entry => if entry.2.isNone then some entry.1 else none

end Constants

/-- The values of a program's constants in the order of its table, and the warnings. -/
def Program.mapConstants {α : Type} (p : Program α) (bs : List (Binding α)) :
    List (Warning α) × Except Error (List α) :=
  let c := p.catalog.getD ⟨[], []⟩
  let s := Constants.bindAll c p.dim bs
  (s.warnings,
    match Constants.missing c s.values with
    | [] => .ok (s.values.filterMap fun v => v)
    | keys => .error (.unbound keys))

end Indicial
