import Indicial.Func
import Indicial.Number.Decimal
import Indicial.Program.Basic

/-!
# Listings of programs

A listing has a line for each kernel with the outputs it writes, and a line for each node of its tree.
-/

namespace Indicial.Program

/-- A number to the left of spaces up to a width. -/
def column (width : Nat) (text : Bytes) : Bytes := Bytes.padRight width (Utf8.count text) text

/-- The names of the scalars that a leaf reads. -/
def leafNames (p : Program Binary64) (t : Tree Binary64) (i : Nat) : List Bytes :=
  let c := p.catalog.getD ⟨[], []⟩
  let refs := if t.kind? i = some .constant then c.constants else c.scalars
  (t.ids.row i).map fun e => match refs[e.toInt.toNat]? with
    | some r => r.key
    | none => []

/-- What a line says about a node of its kind. -/
def detail (p : Program Binary64) (t : Tree Binary64) (i : Nat) : Bytes :=
  match t.kind? i with
  | some .literal => " value=" ++ (t.values.getD i Binary64.zero).toBytes
  | some .function => " func=" ++ Bytes.ofString (Func.nameOfCode (t.funcs.getD i 0))
  | some .scalar | some .constant => " refs=" ++ Bytes.join [44] (leafNames p t i)
  | _ => []

/-- The line of a node. -/
def nodeLine (p : Program Binary64) (t : Tree Binary64) (i : Nat) : Bytes :=
  let place := Bytes.ofNat i
  let (left, right) := t.children i
  let operand (name : String) (c : Int) : Bytes :=
    if c = Tree.noChild then [] else Bytes.ofString name ++ Bytes.ofInt c
  "  " ++ Bytes.padLeft 3 place.length place
    ++ " " ++ column 9 (Bytes.ofString (Kind.nameOfCode (t.tag i)))
    ++ " outer=" ++ column 4 (Quoted.text (t.outer.row i))
    ++ " off=" ++ column 4 (Bytes.ofInt (t.offset i).toInt)
    ++ " size=" ++ column 3 (Bytes.ofInt (t.size i).toInt)
    ++ operand " left=" left ++ operand " right=" right
    ++ detail p t i ++ "\n"

/-- The lines of kernel `number`, given the names of all outputs. -/
def kernelLines (p : Program Binary64) (keys : List Bytes) (number : Nat) (k : Kernel Binary64) :
    Bytes :=
  let t := k.tree.getD (Tree.empty 0)
  let targets := k.targets.map fun s => (keys[s.toInt.toNat]?).getD []
  "kernel " ++ Bytes.ofNat number ++ " -> " ++ Bytes.join [32] targets
    ++ " (depth " ++ Bytes.ofInt t.depth.toInt ++ ")\n"
    ++ (List.range t.nodes).flatMap (nodeLine p t)

/-- The listing of a program. -/
def listing (p : Program Binary64) : Except Fault Bytes := do
  let keys ← p.outputKeys
  return p.kernels.zipIdx.flatMap fun entry => kernelLines p keys entry.2 entry.1

end Indicial.Program
