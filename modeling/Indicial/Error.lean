import Indicial.Fault
import Indicial.Number.Reader

/-!
# Errors

Everything that can go wrong, by cause. Causes are grouped by what they are about: the text of an
expression, a system of equations, a flattened tree, a program, a program file, a plan, the buffers
of an evaluation. A cause may be met inside something larger, which `Error.within` records.

`Error.message` is the wording: the surroundings from the outside in, the cause, and the phrase that
names its group, separated by colons.
-/

namespace Indicial

/-- What is wrong with the text of an expression. -/
inductive Malformed where
  | unexpected (b : UInt8)
  | unexpectedEnd
  | expected (b : UInt8)
  | invalidNumber (text : Bytes)
  | noDirection
  | unknownTensor (name : Bytes)
  | bareTensor (name : Bytes) (order : Nat)
  | boundTensor (name : Bytes) (order : Nat) (labels : Bytes)
  | expectedLabel
  | invalidLabel (b : UInt8)
  | tooManyLabels
deriving DecidableEq

def Malformed.message : Malformed → Bytes
  | .unexpected b => "unexpected " ++ Quoted.byte b
  | .unexpectedEnd => "unexpected end of expression"
  | .expected b => "expected " ++ Quoted.byte b
  | .invalidNumber text => "invalid number " ++ Quoted.text text
  | .noDirection => "D needs at least one direction"
  | .unknownTensor name => "unknown tensor " ++ Quoted.text name
  | .bareTensor name order =>
    "tensor " ++ name ++ " of order " ++ Bytes.ofNat order ++ " used without indices"
  | .boundTensor name order labels =>
    "tensor " ++ name ++ " of order " ++ Bytes.ofNat order ++ " bound to " ++ Quoted.text labels
  | .expectedLabel => "expected index label"
  | .invalidLabel b => "invalid index label " ++ Quoted.byte b
  | .tooManyLabels => "more than 8 index labels"

/-- What is wrong with a system of equations. -/
inductive SystemProblem where
  | missingSide
  | rank (name : Bytes) (order rank : Nat) (labels : Bytes)
  | labels (name labels free : Bytes)
  | assignedTwice (name : Bytes)
  | dimension (dim : Int64)
  | noEquations
  | declaredTwice (name : Bytes)
  | badTensor (name : Bytes) (order : Int64)
  | reservedName (name : Bytes)
  | unknownLeft (equation : Nat) (name : Bytes)
  | indexTooLong (equation : Nat) (labels : Bytes)
deriving DecidableEq

def SystemProblem.message : SystemProblem → Bytes
  | .missingSide => "equation with nil side"
  | .rank name order found free =>
    name ++ ": order " ++ Bytes.ofNat order ++ " does not match rhs rank " ++ Bytes.ofNat found
      ++ " (free labels " ++ Quoted.text free ++ ")"
  | .labels name given free =>
    name ++ ": labels " ++ Quoted.text given ++ " are not a permutation of rhs labels "
      ++ Quoted.text free
  | .assignedTwice name => name ++ " assigned twice"
  | .dimension dim => "dimension " ++ Bytes.ofInt dim.toInt ++ " outside [1, 16]"
  | .noEquations => "no equations"
  | .declaredTwice name => "tensor " ++ name ++ " declared twice"
  | .badTensor name order => "tensor " ++ Quoted.text name ++ " of order " ++ Bytes.ofInt order.toInt
  | .reservedName name => "tensor name " ++ Quoted.text name ++ " is reserved"
  | .unknownLeft equation name =>
    "equation " ++ Bytes.ofNat equation ++ ": unknown lhs tensor " ++ Quoted.text name
  | .indexTooLong equation given =>
    "equation " ++ Bytes.ofNat equation ++ ": index " ++ Quoted.text given ++ " too long"

/-- What is wrong with a flattened tree. -/
inductive TreeProblem where
  | empty
  | dimension (dim : Int64)
  | lengths
  | rows (table : String) (rows nodes : Nat)
  | span (table : String)
  | decrease (table : String) (row : Nat)
  | tooManyLabels (table : String) (node count : Nat)
  | tag (node : Nat) (code : String)
  | operands (node : Nat) (left right : Int)
  | operandOrder (node : Nat) (left right : Int)
  | operand (node : Nat) (child : Int)
  | leafLeft (node : Nat)
  | overlap (node : Nat) (child : Int)
  | notMonotonic (node : Nat)
  | disconnected (count : Nat)
  | depth (depth watermark : Int32)
deriving DecidableEq

def TreeProblem.message : TreeProblem → Bytes
  | .empty => "empty tree"
  | .dimension dim => "dimension " ++ Bytes.ofInt dim.toInt
  | .lengths => "per-node arrays disagree in length"
  | .rows table found nodes =>
    Bytes.ofString table ++ ": " ++ Bytes.ofNat found ++ " rows for " ++ Bytes.ofNat nodes ++ " nodes"
  | .span table => Bytes.ofString table ++ ": offsets do not span data"
  | .decrease table row => Bytes.ofString table ++ ": offsets decrease at row " ++ Bytes.ofNat row
  | .tooManyLabels table node count =>
    Bytes.ofString table ++ ": node " ++ Bytes.ofNat node ++ " has " ++ Bytes.ofNat count ++ " labels"
  | .tag node code => "node " ++ Bytes.ofNat node ++ ": unexpected tag " ++ Bytes.ofString code
  | .operands node left right =>
    "node " ++ Bytes.ofNat node ++ ": operands " ++ Bytes.ofInt left ++ ", " ++ Bytes.ofInt right
      ++ " are not the last two subtrees"
  | .operandOrder node left right =>
    "node " ++ Bytes.ofNat node ++ ": operand order " ++ Bytes.ofInt left ++ ", " ++ Bytes.ofInt right
  | .operand node child =>
    "node " ++ Bytes.ofNat node ++ ": operand " ++ Bytes.ofInt child ++ " is not the last subtree"
  | .leafLeft node => "leaf " ++ Bytes.ofNat node ++ " records a left child"
  | .overlap node child =>
    "node " ++ Bytes.ofNat node ++ ": child " ++ Bytes.ofInt child ++ " window overlaps parent"
  | .notMonotonic node => "node " ++ Bytes.ofNat node ++ ": offsets not monotonic"
  | .disconnected count => Bytes.ofNat count ++ " disconnected subtrees"
  | .depth stated watermark =>
    "stack depth " ++ Bytes.ofInt stated.toInt ++ " does not match watermark "
      ++ Bytes.ofInt watermark.toInt

/-- What is wrong between the parts of a program. -/
inductive ProgramProblem where
  | missingCatalog
  | output (name : Bytes) (base order : Int64)
  | missingTree (kernel : Nat)
  | dimension (kernel : Nat) (tree program : Int64)
  | targetCount (kernel targets : Nat) (components : Int64)
  | target (kernel : Nat) (target : Int32)
  | id (kernel node : Nat) (id : Int32)
  | slot (slot count : Nat)
deriving DecidableEq

def ProgramProblem.message : ProgramProblem → Bytes
  | .missingCatalog => "missing catalog"
  | .output name base order =>
    "output " ++ name ++ ": base " ++ Bytes.ofInt base.toInt ++ " order " ++ Bytes.ofInt order.toInt
  | .missingTree kernel => "kernel " ++ Bytes.ofNat kernel ++ " has no tree"
  | .dimension kernel tree program =>
    "kernel " ++ Bytes.ofNat kernel ++ ": dimension " ++ Bytes.ofInt tree.toInt ++ ", program "
      ++ Bytes.ofInt program.toInt
  | .targetCount kernel targets components =>
    "kernel " ++ Bytes.ofNat kernel ++ ": " ++ Bytes.ofNat targets ++ " targets for "
      ++ Bytes.ofInt components.toInt ++ " root components"
  | .target kernel place =>
    "kernel " ++ Bytes.ofNat kernel ++ ": target " ++ Bytes.ofInt place.toInt ++ " out of range"
  | .id kernel node entry =>
    "kernel " ++ Bytes.ofNat kernel ++ " node " ++ Bytes.ofNat node ++ ": id " ++ Bytes.ofInt entry.toInt
      ++ " out of range"
  | .slot place count =>
    "output slot " ++ Bytes.ofNat place ++ " written " ++ Bytes.ofNat count ++ " times"

/-- What is wrong with the bytes of a program file. -/
inductive Corruption where
  | short (size : Nat)
  | magic (found : UInt32)
  | version (found : UInt16)
  | payloadLength (found stated : Nat)
  | checksum
  | endOfInput
  | endInsideItem
  | count (count remaining : Nat)
  | string (size : Nat)
  | coord (entries : Nat)
  | tensorOrders (name : Bytes) (first second : Nat)
  | tensor (name : Bytes) (order : Nat)
  | scalar (name component : Bytes) (order : Nat)
  | outputLabels (name : Bytes) (count : Nat)
  | trailing (count : Nat)
deriving DecidableEq

def Corruption.message : Corruption → Bytes
  | .short size => Bytes.ofNat size ++ " bytes is shorter than the header"
  | .magic found => "invalid magic number: " ++ Bytes.hexOfNat 1 found.toNat
  | .version found => "unsupported version: " ++ Bytes.ofNat found.toNat
  | .payloadLength found stated =>
    "payload length " ++ Bytes.ofNat found ++ ", header says " ++ Bytes.ofNat stated
  | .checksum => "checksum mismatch"
  | .endOfInput => "EOF"
  | .endInsideItem => "unexpected EOF"
  | .count stated remaining =>
    "length " ++ Bytes.ofNat stated ++ " exceeds remaining " ++ Bytes.ofNat remaining ++ " bytes"
  | .string size => "string of " ++ Bytes.ofNat size ++ " bytes exceeds input"
  | .coord entries => "coord of " ++ Bytes.ofNat entries ++ " entries"
  | .tensorOrders name first second =>
    "tensor " ++ name ++ ": order " ++ Bytes.ofNat first ++ " and " ++ Bytes.ofNat second
  | .tensor name order => "tensor " ++ Quoted.text name ++ " of order " ++ Bytes.ofNat order
  | .scalar name component order =>
    "scalar " ++ name ++ ": component " ++ component ++ " for order " ++ Bytes.ofNat order
  | .outputLabels name found => "output " ++ name ++ ": " ++ Bytes.ofNat found ++ " labels"
  | .trailing found => Bytes.ofNat found ++ " trailing bytes"

/-- A node that no kernel can run. -/
inductive Unsupported where
  | tag (name : String)
  | leftLabels (kind : String) (left outer : Bytes)
  | bind (source target : Bytes)
  | negate (source target : Int64)
  | rank (kind : String) (rank : Nat)
  | symbol (kind : String) (labels : Bytes) (dim : Int64)
  | ids (count : Nat) (labels : Bytes)
deriving DecidableEq

def Unsupported.message : Unsupported → Bytes
  | .tag name => "tag " ++ Bytes.ofString name
  | .leftLabels kind left outer =>
    Bytes.ofString kind ++ ": left labels " ++ Quoted.text left ++ " differ from " ++ Quoted.text outer
  | .bind source target => "bind of " ++ Quoted.text source ++ " to " ++ Quoted.text target
  | .negate source target =>
    "negate of " ++ Bytes.ofInt source.toInt ++ " slots into " ++ Bytes.ofInt target.toInt
  | .rank kind found => Bytes.ofString kind ++ " of rank " ++ Bytes.ofNat found
  | .symbol kind labels dim =>
    Bytes.ofString kind ++ "(" ++ labels ++ ") for dimension " ++ Bytes.ofInt dim.toInt
  | .ids count labels =>
    "leaf with " ++ Bytes.ofNat count ++ " ids over labels " ++ Quoted.text labels

/-- Buffers that do not match the program. -/
inductive Mismatch where
  | output (size : Nat) (width : Int64)
  | outputColumns (count : Nat) (width : Int64)
  | fieldColumns (count scalars : Nat)
  | outputLengths
  | fieldLength (key : Bytes) (size points : Nat)
  | noSource
  | constants (count constants : Nat)
  | range (start stop : Int64)
  | outputRange (size : Nat) (points width : Int64)
deriving DecidableEq

def Mismatch.message : Mismatch → Bytes
  | .output size width =>
    "output of " ++ Bytes.ofNat size ++ " values for width " ++ Bytes.ofInt width.toInt
  | .outputColumns count width =>
    Bytes.ofNat count ++ " output columns for width " ++ Bytes.ofInt width.toInt
  | .fieldColumns count scalars =>
    Bytes.ofNat count ++ " field columns for " ++ Bytes.ofNat scalars ++ " scalars"
  | .outputLengths => "output columns differ in length"
  | .fieldLength key size points =>
    "field column " ++ key ++ " holds " ++ Bytes.ofNat size ++ " of " ++ Bytes.ofNat points ++ " points"
  | .noSource => "nil scalar source"
  | .constants count wanted =>
    Bytes.ofNat count ++ " constants for " ++ Bytes.ofNat wanted ++ " program constants"
  | .range start stop =>
    "point range [" ++ Bytes.ofInt start.toInt ++ ", " ++ Bytes.ofInt stop.toInt ++ ")"
  | .outputRange size points width =>
    "output of " ++ Bytes.ofNat size ++ " values for " ++ Bytes.ofInt points.toInt
      ++ " points of width " ++ Bytes.ofInt width.toInt

/-- Problems that belong to no group: options, files and the machinery around an evaluation. -/
inductive Problem where
  | negativeDepth (depth : Int64)
  | cancelled
  | cachePath
  | bindingForm (argument : Bytes)
  | notFloat (text : Bytes) (why : Number.Problem)
  | notInt (text : Bytes) (why : Number.Problem)
  | notBool (text : Bytes)
  | logLevel (text : Bytes)
  | logFormat (text : Bytes)
  | pointCount (count : Int64)
  | measureCount
  | argumentCount (wanted received : Nat)
  | unknownCommand (name path : Bytes) (suggestions : List Bytes)
  | unknownFlag (name : Bytes)
  | unknownShorthand (letter : UInt8) (group : Bytes)
  | flagForm (argument : Bytes)
  | missingArgument (name : Bytes)
  | missingShorthandArgument (letter : UInt8) (group : Bytes)
  | file (operation path : Bytes) (reason : String)
  | other (text : Bytes)
deriving DecidableEq

def Problem.message : Problem → Bytes
  | .negativeDepth depth => "negative stack depth " ++ Bytes.ofInt depth.toInt
  | .cancelled => "context canceled"
  | .cachePath => "cache path is required"
  | .bindingForm argument => "constant " ++ Quoted.text argument ++ ": want name=value"
  | .notFloat text why => "strconv.ParseFloat: parsing " ++ Quoted.text text ++ ": " ++ why.message
  | .notInt text why => "strconv.ParseInt: parsing " ++ Quoted.text text ++ ": " ++ why.message
  | .notBool text => "strconv.ParseBool: parsing " ++ Quoted.text text ++ ": invalid syntax"
  | .logLevel text => "unknown log level " ++ Quoted.text text
  | .logFormat text => "unknown log format " ++ Quoted.text text
  | .pointCount count => "--points must be positive, got " ++ Bytes.ofInt count.toInt
  | .measureCount => "--points and --iter must be positive"
  | .argumentCount wanted received =>
    "accepts " ++ Bytes.ofNat wanted ++ " arg(s), received " ++ Bytes.ofNat received
  | .unknownCommand name path suggestions =>
    let hint : Bytes :=
      if suggestions.isEmpty then []
      else Bytes.ofString "\n\nDid you mean this?\n" ++ suggestions.flatMap fun s => 9 :: (s ++ [10])
    "unknown command " ++ Quoted.text name ++ " for " ++ Quoted.text path ++ hint
  | .unknownFlag name => "unknown flag: --" ++ name
  | .unknownShorthand letter group =>
    "unknown shorthand flag: " ++ Quoted.byte letter ++ " in -" ++ group
  | .flagForm argument => "bad flag syntax: " ++ argument
  | .missingArgument name => "flag needs an argument: --" ++ name
  | .missingShorthandArgument letter group =>
    "flag needs an argument: " ++ Quoted.byte letter ++ " in -" ++ group
  | .file operation path reason => operation ++ " " ++ path ++ ": " ++ Bytes.ofString reason
  | .other text => text

/-- What a cause was met inside of. -/
inductive Context where
  | call (name : Bytes)
  | equation (i : Nat)
  | equationOf (i : Nat) (name : Bytes)
  | kernel (i : Nat)
  | planKernel (i : Nat)
  | node (i : Nat)
  | validateProgram
  | parallel
  | load (path : Bytes)
  | read (path : Bytes)
  | decode (path : Bytes)
  | write (path : Bytes)
  | cacheDirectory (path : Bytes)
  | constant (name : Bytes)
  | argument (value flag : Bytes)
deriving DecidableEq

def Context.message : Context → Bytes
  | .call name => name
  | .equation i => "equation " ++ Bytes.ofNat i
  | .equationOf i name => "equation " ++ Bytes.ofNat i ++ " (" ++ name ++ ")"
  | .kernel i => "kernel " ++ Bytes.ofNat i
  | .planKernel i => "plan kernel " ++ Bytes.ofNat i
  | .node i => "node " ++ Bytes.ofNat i
  | .validateProgram => "validate program"
  | .parallel => "parallel evaluation"
  | .load path => "load " ++ path
  | .read path => "read " ++ path
  | .decode path => "decode " ++ path
  | .write path => "write " ++ path
  | .cacheDirectory path => "create cache directory " ++ path
  | .constant name => "constant " ++ name
  | .argument value flag =>
    "invalid argument " ++ Quoted.text value ++ " for " ++ Quoted.text flag ++ " flag"

/-- A cause, possibly inside of something. -/
inductive Error where
  | fault (f : Fault)
  | malformed (position : Nat) (why : Malformed)
  | system (why : SystemProblem)
  | tree (why : TreeProblem)
  | program (why : ProgramProblem)
  | corrupt (why : Corruption)
  | unsupported (why : Unsupported)
  | unbound (keys : List Bytes)
  | shape (why : Mismatch)
  | document
  | problem (why : Problem)
  | within (context : Context) (e : Error)
deriving DecidableEq

namespace Error

/-- The groups of causes. -/
inductive Group where
  | fault | malformed | system | tree | program | corrupt | unsupported | unbound | shape | document
  | other
deriving DecidableEq

/-- The group that the cause belongs to. -/
def group : Error → Group
  | .fault _ => .fault
  | .malformed .. => .malformed
  | .system _ => .system
  | .tree _ => .tree
  | .program _ => .program
  | .corrupt _ => .corrupt
  | .unsupported _ => .unsupported
  | .unbound _ => .unbound
  | .shape _ => .shape
  | .document => .document
  | .problem _ => .other
  | .within _ e => e.group

/-- The wording of an error. -/
def message : Error → Bytes
  | .fault f => f.message ++ ": tensorc invariant violated"
  | .malformed position why =>
    "at " ++ Bytes.ofNat position ++ ": " ++ why.message ++ ": syntax error"
  | .system why => why.message ++ ": invalid system"
  | .tree why => why.message ++ ": invalid tree"
  | .program why => why.message ++ ": invalid program"
  | .corrupt why => why.message ++ ": corrupt program"
  | .unsupported why => why.message ++ ": unsupported node"
  | .unbound keys => Quoted.list keys ++ ": unbound constant"
  | .shape why => why.message ++ ": buffer shape mismatch"
  | .document => "decode model: malformed document"
  | .problem why => why.message
  | .within context e => context.message ++ ": " ++ e.message

end Error

/-- Puts the error of a failed step inside of something. -/
def Except.within {α : Type} (context : Context) : Except Error α → Except Error α
  | .ok a => .ok a
  | .error e => .error (.within context e)

instance : MonadLift (Except Fault) (Except Error) where
  monadLift
    | .ok a => .ok a
    | .error f => .error (.fault f)

end Indicial
