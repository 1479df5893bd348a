import Indicial.Number.Binary64
import Indicial.Program.Basic
import Indicial.Program.Checksum

/-!
# Program files

A program file is a header of 32 bytes and a payload. The header holds the mark `TNSR`, the version of
the format, two reserved bytes, the sixteen bytes of the program's id, and the length and checksum of
the payload. All integers are little-endian.

Writing cuts each number to the width of its field. Reading checks the header, bounds every stated
count by the bytes that are left before it is used, joins references to one tensor by name, takes the
whole payload, and checks the program.
-/

namespace Indicial

namespace Bytes

/-- The `width` low bytes of a number, the lowest first. -/
def littleEndian : (width : Nat) → Nat → Bytes
  | 0, _ => []
  | width + 1, n => n.toUInt8 :: littleEndian width (n / 256)

/-- The number whose bytes these are, the lowest first. -/
def ofLittleEndian : Bytes → Nat
  | [] => 0
  | b :: rest => b.toNat + 256 * ofLittleEndian rest

end Bytes

namespace Program

/-- The mark at the beginning of a program file. -/
def magic : UInt32 := 0x52534E54

/-- The version of the format. -/
def version : UInt16 := 1

/-- The length of the header. -/
def headerSize : Nat := 32

namespace Write

def u8 (n : Int) : Bytes := Bytes.littleEndian 1 (n % 256).toNat
def u16 (n : Int) : Bytes := Bytes.littleEndian 2 (n % 65536).toNat
def u32 (n : Int) : Bytes := Bytes.littleEndian 4 (n % 4294967296).toNat
def u64 (n : UInt64) : Bytes := Bytes.littleEndian 8 n.toNat
def word (n : Int32) : Bytes := u32 n.toInt

/-- A string behind its length. -/
def text (s : Bytes) : Bytes := u16 s.length ++ s

/-- A coordinate behind its length. -/
def coord (c : Coord) : Bytes := u8 c.size ++ c.values

def reference (r : ScalarRef) : Bytes :=
  text r.tensor.name ++ u8 r.tensor.order ++ coord r.component ++ coord r.derivs

def references (refs : List ScalarRef) : Bytes := u32 refs.length ++ refs.flatMap reference

def output (o : Output) : Bytes :=
  text o.name ++ u8 o.order.toInt ++ u32 o.base.toInt ++ text o.labels

/-- A table of labels: the count of labels, the offsets, the labels. -/
def labels (c : Rows UInt8) : Bytes :=
  u32 c.data.size ++ c.offsets.toList.flatMap word ++ c.data.toList

/-- The table of ids: the count of ids, the offsets, the ids. -/
def ids (c : Rows Int32) : Bytes :=
  u32 c.data.size ++ c.offsets.toList.flatMap word ++ c.data.toList.flatMap word

def tree (t : Tree Binary64) : Bytes :=
  u16 t.dim.toInt ++ u32 t.nodes
    ++ t.tags.toList
    ++ (t.funcs.extract 0 t.nodes).toList
    ++ t.left.toList.flatMap word
    ++ labels t.outer ++ labels t.inner ++ labels t.binding
    ++ ids t.ids
    ++ t.values.toList.flatMap (fun v => u64 v.bits)
    ++ t.offsets.toList.flatMap word
    ++ word t.depth

def kernel (k : Kernel Binary64) : Bytes :=
  u32 k.equation.toInt ++ u32 k.targets.length ++ k.targets.flatMap word
    ++ tree (k.tree.getD (Tree.empty 0))

def payload (p : Program Binary64) : Bytes :=
  let c := p.catalog.getD ⟨[], []⟩
  text p.name ++ u16 p.dim.toInt
    ++ references c.constants ++ references c.scalars
    ++ u32 p.outputs.length ++ p.outputs.flatMap output
    ++ u32 p.kernels.length ++ p.kernels.flatMap kernel

end Write

/-- The bytes of a program file. -/
def encode (p : Program Binary64) : Bytes :=
  let payload := Write.payload p
  Write.u32 magic.toNat ++ Write.u16 version.toNat ++ Write.u16 0 ++ p.id
    ++ Write.u32 payload.length ++ Write.u32 (Checksum.crc32 payload).toNat ++ payload

/-- A step of reading: it takes bytes from the front of what is left. -/
abbrev Reader := StateT Bytes (Except Corruption)

namespace Read

/-- The next `n` bytes. -/
def take (n : Nat) : Reader Bytes := fun rest =>
  let taken := rest.take n
  if taken.length = n then .ok (taken, rest.drop n)
  else .error (if rest.isEmpty then .endOfInput else .endInsideItem)

/-- Whether at least `n` bytes are left. -/
def holds : (n : Nat) → Bytes → Bool
  | 0, _ => true
  | _ + 1, [] => false
  | n + 1, _ :: rest => holds n rest

def u8 : Reader Nat := Bytes.ofLittleEndian <$> take 1
def u16 : Reader Nat := Bytes.ofLittleEndian <$> take 2
def u32 : Reader Nat := Bytes.ofLittleEndian <$> take 4

/-- The bytes in groups of `width`. -/
def group (width : Nat) : (count : Nat) → Bytes → List Bytes
  | 0, _ => []
  | count + 1, bs => bs.take width :: group width count (bs.drop width)

/-- The next `n` 32-bit words. -/
def words (n : Nat) : Reader (List Int32) := do
  let bs ← take (4 * n)
  return (group 4 n bs).map fun b => Int32.ofNat (Bytes.ofLittleEndian b)

/-- The next `n` patterns. -/
def patterns (n : Nat) : Reader (List Binary64) := do
  let bs ← take (8 * n)
  return (group 8 n bs).map fun b => ⟨(Bytes.ofLittleEndian b).toUInt64⟩

/-- A count of items that take at least `size` bytes each. -/
def count (size : Nat) : Reader Nat := do
  let n ← u32
  let rest ← get
  if holds (n * size) rest then return n else throw (.count n rest.length)

/-- A string behind its length. -/
def text : Reader Bytes := do
  let n ← u16
  if holds n (← get) then take n else throw (.string n)

/-- A coordinate behind its length. -/
def coord : Reader Coord := do
  let n ← u8
  if Coord.capacity < n then throw (.coord n)
  return ⟨← take n⟩

/-- The tensor of a name among those met before, or a new one. -/
def tensor (known : List Tensor) (name : Bytes) (order : Nat) :
    Except Corruption (Tensor × List Tensor) :=
  match known.find? fun t => t.name == name with
  | some t =>
    if t.order = order then .ok (t, known) else .error (.tensorOrders name t.order order)
  | none =>
    if name.isEmpty || Index.capacity < order then .error (.tensor name order)
    else
      let t : Tensor := ⟨name, order, known.length⟩
      .ok (t, known ++ [t])

/-- One reference, with the tensors met so far. -/
def reference (constant : Bool) (known : List Tensor) : Reader (ScalarRef × List Tensor) := do
  let name ← text
  let order ← u8
  let component ← coord
  let derivs ← coord
  let (t, known) ← tensor known name order
  if component.size ≠ order then throw (.scalar name component.toBytes order)
  return (⟨t, component, derivs, constant⟩, known)

/-- `n` references, with the tensors met so far. -/
def manyReferences (constant : Bool) : (n : Nat) → List Tensor →
    Reader (List ScalarRef × List Tensor)
  | 0, known => return ([], known)
  | n + 1, known => do
    let (r, known) ← reference constant known
    let (rest, known) ← manyReferences constant n known
    return (r :: rest, known)

/-- A table of references. -/
def references (constant : Bool) (known : List Tensor) :
    Reader (List ScalarRef × List Tensor) := do
  manyReferences constant (← count 5) known

/-- `n` items one after the other. -/
def many {β : Type} (item : Reader β) : (n : Nat) → Reader (List β)
  | 0 => return []
  | n + 1 => do
    let x ← item
    return x :: (← many item n)

def output : Reader Output := do
  let name ← text
  let order ← u8
  let base ← u32
  let labels ← text
  if Index.capacity < labels.length then throw (.outputLabels name labels.length)
  return ⟨name, Int64.ofNat order, Int64.ofNat base, labels⟩

/-- A table of labels with the given number of rows. -/
def labels (rows : Nat) : Reader (Rows UInt8) := do
  let n ← count 1
  let offsets ← words (rows + 1)
  let data ← take n
  return ⟨offsets.toArray, data.toArray⟩

/-- The table of ids with the given number of rows. -/
def ids (rows : Nat) : Reader (Rows Int32) := do
  let n ← count 4
  let offsets ← words (rows + 1)
  let data ← words n
  return ⟨offsets.toArray, data.toArray⟩

def tree : Reader (Tree Binary64) := do
  let dim ← u16
  let n ← count 1
  let tags ← take n
  let funcs ← take n
  let left ← words n
  let outer ← labels n
  let inner ← labels n
  let binding ← labels n
  let ids ← ids n
  let values ← patterns n
  let offsets ← words n
  let depth ← words 1
  return {
    dim := Int64.ofNat dim, tags := tags.toArray, left := left.toArray, outer, inner, binding, ids,
    values := values.toArray, funcs := funcs.toArray, offsets := offsets.toArray,
    depth := depth.headD 0 }

def kernel : Reader (Kernel Binary64) := do
  let equation ← u32
  let targets ← words (← count 4)
  return ⟨Int64.ofNat equation, targets, some (← tree)⟩

/-- The payload of the program with an id. -/
def payload (id : Bytes) : Reader (Program Binary64) := do
  let name ← text
  let dim ← u16
  let (constants, known) ← references true []
  let (scalars, _) ← references false known
  let outputs ← many output (← count 4)
  let kernels ← many kernel (← count 8)
  return {
    id, name, dim := Int64.ofNat dim, catalog := some ⟨constants, scalars⟩, outputs, kernels }

/-- Takes a header apart, checks it against the payload, and gives the id. -/
def header (data : Bytes) : Except Corruption Bytes := do
  let field (start width : Nat) : Nat := Bytes.ofLittleEndian ((data.drop start).take width)
  let payload := data.drop headerSize
  if data.length < headerSize then throw (.short data.length)
  if field 0 4 ≠ magic.toNat then throw (.magic (field 0 4).toUInt32)
  if field 4 2 ≠ version.toNat then throw (.version (field 4 2).toUInt16)
  if field 24 4 ≠ payload.length then throw (.payloadLength payload.length (field 24 4))
  if field 28 4 ≠ (Checksum.crc32 payload).toNat then throw .checksum
  return (data.drop 8).take 16

/-- A whole file, before the program is checked. -/
def file (data : Bytes) : Except Corruption (Program Binary64) := do
  let id ← header data
  let (p, rest) ← payload id (data.drop headerSize)
  if rest.isEmpty then return p else throw (.trailing rest.length)

end Read

/-- Reads a program file and checks the program. -/
def decode (data : Bytes) : Except Error (Program Binary64) :=
  match Read.file data with
  | .error e => .error (.corrupt e)
  | .ok p => do
    p.validate
    return p

end Program

end Indicial
