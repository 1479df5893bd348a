import Indicial.Cache.Basic
import Indicial.Command.Files
import Indicial.Command.Flags
import Indicial.Command.Suggestion
import Indicial.Engine.Basic
import Indicial.Engine.Constants
import Indicial.Engine.Report
import Indicial.Engine.Sample
import Indicial.Log
import Indicial.Model.Document
import Indicial.Program.Printer

/-!
# Commands

The command line has four commands: `compile` turns a model into a program file, `run` evaluates a
program file on a sample field, `perf` goes through the ways of evaluating a model, and `version` says
which format of program files is written.
-/

namespace Indicial.Command

/-- The flags of every command. -/
def globalFlags : List Flag :=
  [⟨"log-level", none, .text⟩, ⟨"log-format", none, .text⟩, ⟨"trace", none, .switch⟩]

/-- The flag that asks for help. -/
def helpFlag : Flag := ⟨"help", some 'h', .switch⟩

def compileFlags : List Flag :=
  [⟨"output", some 'o', .text⟩, ⟨"dim", none, .number⟩, ⟨"tensor-trees", none, .switch⟩,
    ⟨"print-trees", none, .switch⟩, ⟨"cache", none, .text⟩]

def runFlags : List Flag :=
  [⟨"points", none, .number⟩, ⟨"workers", none, .number⟩, ⟨"chunk", none, .number⟩,
    ⟨"constant", none, .text⟩, ⟨"model", none, .text⟩]

def perfFlags : List Flag :=
  [⟨"points", none, .number⟩, ⟨"iter", none, .number⟩, ⟨"dim", none, .number⟩]

/-- The id of programs that the commands write. -/
def programId : Bytes := List.replicate 16 0

/-- The line that marks an overridden dimension in a source, a comment of the document. -/
def overrideMark (dim : Int64) : Bytes :=
  "\n# dimension override " ++ Bytes.ofInt dim.toInt ++ "\n"

/-- Reads and builds the model of a source text that `decode` understands, with its dimension replaced
when `dim` is positive. The source that is returned tells replaced dimensions apart. -/
def loadModelWith (decode : Bytes → Except Error Model.Source) (path source : Bytes) (dim : Int64) :
    Except Error (Bytes × Model) :=
  Except.within (.load path) do
    let src ← decode source
    if 0 < dim then
      return (source ++ overrideMark dim, ← { src with dimension := dim }.build)
    else return (source, ← src.build)

/-- Reads and builds the model of a source text in YAML. -/
def loadModel (path source : Bytes) (dim : Int64) : Except Error (Bytes × Model) :=
  loadModelWith Model.Source.parse path source dim

/-- The path without its extension, which begins at the last dot behind the last slash. -/
def dropExtension (path : Bytes) : Bytes :=
  let fromEnd := path.reverse
  let ext := fromEnd.takeWhile fun b => b != 46 && b != 47
  match fromEnd.drop ext.length with
  | 46 :: rest => rest.reverse
  | _ => path

/-- The default values of a model, replaced and extended by bindings of the form `name=value`. -/
def overrideBindings (bindings : List (Binding Binary64)) :
    List Bytes → Except Error (List (Binding Binary64))
  | [] => .ok bindings
  | argument :: rest =>
    match Bytes.cut 61 argument with
    | none | some ([], _) => .error (.problem (.bindingForm argument))
    | some (name, raw) =>
      match Number.readFloat raw with
      | .error why => .error (.within (.constant name) (.problem (.notFloat raw why)))
      | .ok value =>
        let replaced := bindings.map fun b => if b.name == name then ⟨name, value⟩ else b
        overrideBindings
          (if bindings.any fun b => b.name == name then replaced else bindings ++ [⟨name, value⟩]) rest

section

variable {m : Type → Type} [Monad m]

/-- The contents of a file. -/
def readFile (io : Surroundings m) (path : Bytes) : ExceptT Error m Bytes := do
  match ← (io.read path : m _) with
  | .ok data => return data
  | .error e => throw (.within (.read path) (.problem e))

/-- The program in a file. -/
def readProgram (io : Surroundings m) (path : Bytes) : ExceptT Error m (Program Binary64) := do
  let data ← readFile io path
  ExceptT.mk (pure (Except.within (.decode path) (Program.decode data)))

/-- Writes a file. -/
def writeFile (io : Surroundings m) (path data : Bytes) : ExceptT Error m Unit := do
  match ← (io.write path data : m _) with
  | .ok () => return ()
  | .error e => throw (.within (.write path) (.problem e))

/-- Default values from a model file, if one is named, and the given bindings. -/
def collectBindings (io : Surroundings m) (model : Bytes) (given : List Bytes) :
    ExceptT Error m (List (Binding Binary64)) := do
  let defaults ← if model.isEmpty then pure [] else do
    let source ← readFile io model
    let m ← ExceptT.mk (pure (Except.within (.load model) (Model.parse source)))
    pure m.bindings
  ExceptT.mk (pure (overrideBindings defaults given))

/-- The program under a key in a cache directory, or else a new one, which is kept there. -/
def throughCache (io : Surroundings m) (directory key : Bytes)
    (compile : Except Error (Program Binary64)) : ExceptT Error m (Program Binary64) := do
  match ← (io.makeDirectory directory : m _) with
  | .error e => throw (.within (.cacheDirectory directory) (.problem e))
  | .ok () => do
    let path := directory ++ [47] ++ key
    let stored ← (io.read path : m _)
    let entries := match stored with
      | .ok data => [(key, data)]
      | .error _ => []
    let outcome := Cache.getOrCompile { Cache.empty with entries } key fun _ => compile
    match outcome.result with
    | .error e => throw e
    | .ok p => do
      if !outcome.hit then let _ ← (io.write path p.encode : m _)
      return p

/-- Compiles a model file into a program file. -/
def compile (io : Surroundings m) (path : Bytes) (p : Parsed) : ExceptT Error m Unit := do
  let text ← readFile io path
  let (source, model) ← ExceptT.mk (pure (loadModel path text (p.number "dim" 0)))
  let options : Compile.Options := ⟨!p.switch "tensor-trees", true⟩
  let result := model.system.compile Literal.toBinary64 options programId
  let directory := p.text "cache" ""
  let program ← if directory.isEmpty then ExceptT.mk (pure result)
    else throughCache io directory (Cache.key options source) result
  let output := p.text "output" ""
  let output := if output.isEmpty then dropExtension path ++ ".tnsr" else output
  writeFile io output program.encode
  if p.switch "print-trees" then
    let listing ← (program.listing : Except Fault Bytes)
    io.print listing

/-- Evaluates a program file on the smooth sample field. -/
def run (io : Surroundings m) (path : Bytes) (p : Parsed) : ExceptT Error m Unit := do
  let points := p.number "points" 65536
  if points ≤ 0 then throw (.problem (.pointCount points))
  let stored ← readProgram io path
  let bindings ← collectBindings io (p.text "model" "") (p.texts "constant")
  let program := stored.map Binary64.toFloat
  let e ← (Engine.make Arith.float program (p.number "workers" 0) (p.number "chunk" 0) :
    Except Error _)
  let bindings : List (Binding Float) := bindings.map fun b => ⟨b.name, b.value.toFloat⟩
  let constants ← (program.mapConstants bindings).2
  let out := Array.replicate (points * e.width).toInt.toNat 0.0
  let arena ← (e.arena 0.0 : Except Fault _)
  let field := some (smoothField e.catalog.sampleScales)
  let (out, _) ← (e.evaluateParallel Arith.float arena false points field constants.toArray out :
    Except Error _)
  let table ← (Report.summary program out : Except Fault Bytes)
  io.print table

/-- The ways of evaluating that `perf` goes through. -/
def evaluations : List String := ["Pointwise", "Lanes", "Parallel"]

/-- Evaluates the points in each way and says how many evaluations there were. -/
def measure (io : Surroundings m) (program : Program Float) (bindings : List (Binding Float))
    (points iterations : Int64) : ExceptT Error m Unit := do
  let e ← (Engine.make Arith.float program 0 0 : Except Error _)
  let constants ← (program.mapConstants bindings).2
  let field := some (smoothField e.catalog.sampleScales)
  let out := Array.replicate (points * e.width).toInt.toNat 0.0
  let arena ← (e.arena 0.0 : Except Fault _)
  for way in evaluations do
    let _ ← (if way == "Parallel" then
        e.evaluateParallel Arith.float arena false points field constants.toArray out
      else if way == "Lanes" then e.evaluateArray Arith.float arena points field constants.toArray out
      else e.evaluate Arith.float arena 0 field constants.toArray out : Except Error _)
    io.print ("  " ++ Bytes.padRight 10 (way.length + 1) (Bytes.ofString (way ++ ":")) ++ " "
      ++ Bytes.ofInt (points * iterations).toInt ++ " evaluations\n")

/-- Goes through the ways of evaluating a model. -/
def perf (io : Surroundings m) (path : Bytes) (p : Parsed) : ExceptT Error m Unit := do
  let points := p.number "points" 16384
  let iterations := p.number "iter" 10
  if points ≤ 0 || iterations ≤ 0 then throw (.problem .measureCount)
  let text ← readFile io path
  let (_, model) ← ExceptT.mk (pure (loadModel path text (p.number "dim" 0)))
  let bindings : List (Binding Float) := model.bindings.map fun b => ⟨b.name, b.value.toFloat⟩
  io.print ("Tensorc Performance Analysis\n============================\nLanes: "
    ++ Bytes.ofInt Layout.lanes.toInt
    ++ "\nModel: " ++ model.system.name ++ " (dimension " ++ Bytes.ofInt model.system.dim.toInt
    ++ ")\nPoints: " ++ Bytes.ofInt points.toInt ++ " x " ++ Bytes.ofInt iterations.toInt
    ++ " iterations\n\n")
  for scalarize in [true, false] do
    let program ← (model.system.compile (fun l => l.toBinary64.toFloat) ⟨scalarize, true⟩ programId :
      Except Error _)
    let title : String := if scalarize then "scalar kernels" else "tensor kernels"
    io.print (Bytes.ofString title ++ ": " ++ Bytes.ofNat program.kernels.length ++ " kernels, "
      ++ Bytes.ofNat program.nodes ++ " nodes, depth " ++ Bytes.ofInt program.stackDepth.toInt ++ "\n")
    measure io program bindings points iterations
    io.print [10]

/-- Says which format of program files is written. -/
def version (io : Surroundings m) : ExceptT Error m Unit :=
  io.print ("tensorc dev\nprogram format: v" ++ Bytes.ofNat Program.version.toNat ++ "\n")

/-- How many arguments a command takes. -/
inductive Arity where
  | one | none | any
deriving DecidableEq

/-- A command: its flags, what it takes, and what it does. -/
structure Entry (m : Type → Type) where
  name : String
  flags : List Flag
  arity : Arity
  run : Bytes → Parsed → ExceptT Error m Unit

/-- All commands. What `help` prints is not part of this library. -/
def entries (io : Surroundings m) : List (Entry m) :=
  [⟨"compile", compileFlags, .one, compile io⟩, ⟨"perf", perfFlags, .one, perf io⟩,
    ⟨"run", runFlags, .one, run io⟩, ⟨"version", [], .none, fun _ _ => version io⟩,
    ⟨"help", [], .any, fun _ _ => return ()⟩]

/-- The shells that `completion` knows. -/
def shells : List String := ["bash", "fish", "powershell", "zsh"]

/-- The command for a shell; what it prints is not part of this library. -/
def shellEntry (shell : String) : Entry m :=
  ⟨"completion " ++ shell, [⟨"no-descriptions", none, .switch⟩], .none, fun _ _ => return ()⟩

/-- The names that are suggested for mistyped ones. -/
def suggestedNames : List String := ["compile", "completion", "perf", "run", "version"]

/-- Checks the number of arguments. -/
def Entry.checkArguments (c : Entry m) (args : List Bytes) : Except Error Unit :=
  match c.arity, args with
  | .one, [_] | .none, [] | .any, _ => .ok ()
  | .one, args => .error (.problem (.argumentCount 1 args.length))
  | .none, name :: _ =>
    .error (.problem (.unknownCommand name (Bytes.ofString ("tensorc " ++ c.name)) []))

/-- Reads flags and arguments, checks the options for logs, and does what the command does. -/
def Entry.execute (c : Entry m) (args : List Bytes) : ExceptT Error m Unit := do
  let p ← (parseFlags (c.flags ++ globalFlags ++ [helpFlag]) args : Except Error _)
  if p.switch "help" then return ()
  (c.checkArguments p.arguments : Except Error _)
  let _ ← (Log.parseLevel (p.text "log-level" "info") : Except Error _)
  let _ ← (Log.parseFormat (p.text "log-format" "text") : Except Error _)
  c.run (p.arguments.headD []) p

/-- Reads the flags of a command that does nothing by itself. -/
def onlyFlags (args : List Bytes) : ExceptT Error m Unit := do
  let _ ← (parseFlags (globalFlags ++ [helpFlag]) args : Except Error _)
  return ()

/-- Runs the command `completion`, which has a command for every shell. -/
def completion (args : List Bytes) : ExceptT Error m Unit :=
  match withoutFlags globalFlags args with
  | [] => onlyFlags args
  | name :: _ =>
    match shells.find? fun shell => Bytes.ofString shell == name with
    | some shell => (shellEntry shell).execute (withoutFirst globalFlags name args)
    | none => onlyFlags args

/-- Runs a command line. The first argument that is neither a flag nor the value of one names the
command. -/
def execute (io : Surroundings m) (args : List Bytes) : ExceptT Error m Unit := do
  match withoutFlags globalFlags args with
  | [] => onlyFlags args
  | name :: _ =>
    let others := withoutFirst globalFlags name args
    match (entries io).find? fun c => Bytes.ofString c.name == name with
    | some c => c.execute others
    | none =>
      if name == Bytes.ofString "completion" then completion others
      else throw (.problem (.unknownCommand name (Bytes.ofString "tensorc")
        (suggestions suggestedNames name)))

end

end Indicial.Command
