import CausalTrace.Engine
import CausalTrace.Query.Explain
import CausalTrace.Text.Quoted

/-!
# The command line

The one command compiles query files and shows what they compile to. It is a
function of its arguments and of the files it may read.
-/

namespace CausalTrace.Command

/-- Why the program ends with an error: a plain message, or an error of its
parts. -/
inductive Failure where
  | message (s : String)
  | error (e : Error)
deriving DecidableEq

/-- The constructor-like name of an error in the last line of the program. -/
def kindName : Error.Kind → String
  | .config => "InvalidConfig"
  | .parse => "Parse"
  | .planning => "Planning"
  | .advice => "InvalidAdvice"
  | .io => "Io"
  | .json => "Json"
  | .unsupported => "Unsupported"

/-- The failure as the last line of the program shows it. -/
def Failure.text : Failure → String
  | .message s => Text.quoted s
  | .error e => kindName e.kind ++ "(" ++ Text.quoted e.detail ++ ")"

/-- What a run prints to its two outputs. -/
structure Printed where
  out : String
  err : String
deriving DecidableEq

/-- The texts of the files by path. -/
abbrev Files := String → Option String

/-! ## Arguments -/

structure Options where
  tracepoints : List String
  queries : List String
  name : Option String
  noOptimize : Bool
  json : Bool
  config : Option String
deriving DecidableEq

def Options.none : Options := ⟨[], [], .none, false, false, .none⟩

/-- What the arguments ask for. -/
inductive Request where
  | usage
  | compile (o : Options)
deriving DecidableEq

/-- Reads the arguments of the compile command. -/
def readOptions (o : Options) : List String → Except Failure Request
  | [] =>
      if o.queries.isEmpty then .error (.message "compile needs at least one --query")
      else .ok (.compile o)
  | "--tracepoints" :: args =>
      match args with
      | path :: args => readOptions { o with tracepoints := o.tracepoints ++ [path] } args
      | [] => .error (.message "missing value for --tracepoints")
  | "--query" :: args =>
      match args with
      | path :: args => readOptions { o with queries := o.queries ++ [path] } args
      | [] => .error (.message "missing value for --query")
  | "--name" :: args =>
      match args with
      | name :: args => readOptions { o with name := some name } args
      | [] => .error (.message "missing value for --name")
  | "--config" :: args =>
      match args with
      | path :: args => readOptions { o with config := some path } args
      | [] => .error (.message "missing value for --config")
  | "--no-optimize" :: args => readOptions { o with noOptimize := true } args
  | "--json" :: args => readOptions { o with json := true } args
  | arg :: _ =>
      if arg == "--help" || arg == "-h" then .ok .usage
      else .error (.message ("unknown argument for compile: " ++ arg))

def readArguments : List String → Except Failure Request
  | [] => .ok .usage
  | command :: args =>
      if command == "--help" || command == "-h" then .ok .usage
      else if command == "compile" then readOptions .none args
      else .error (.message ("unknown command: " ++ command))

def usage : String := unlines [
  "Usage:",
  "  ptq compile --tracepoints FILE.json --query FILE [--query FILE ...]",
  "              [--name NAME] [--no-optimize] [--json] [--config FILE.json]",
  "",
  "Each query file is registered under its file stem (or --name for the last",
  "one) and may join queries from earlier files. The last query is compiled."]

/-! ## Files -/

/-- The name of a file without its last extension; a leading point starts no
extension. A path that ends in no name has none. -/
def fileStem (path : String) : Option String :=
  let parts := ((Text.pieces (· == '/') path.toList).map String.ofList).filter fun p =>
    p != "" && p != "."
  match parts.getLast? with
  | .none => .none
  | some name =>
      if name = ".." then .none
      else
        match name.toList.reverse.dropWhile (· != '.') with
        | [] => some name
        | [_] => some name
        | _ :: stem => some (String.ofList stem.reverse)

def readFile (files : Files) (path : String) : Except Failure String :=
  match files path with
  | some text => .ok text
  | .none => .error (.error ⟨.io, path⟩)

def lift {α : Type} : Except Error α → Except Failure α
  | .ok a => .ok a
  | .error e => .error (.error e)

/-- Adds the tracepoints of a file to the engine. -/
def addTracepoints (files : Files) (e : Engine) (path : String) : Except Failure Engine := do
  let text ← readFile files path
  match (Json.parse text).bind (Json.list? Tracepoint.ofJson?) with
  | some ts => return ts.foldl Engine.addTracepoint e
  | .none => throw (.error ⟨.json, path⟩)

/-- Parses a query file, named after the file or as the options say. -/
def addQuery (files : Files) (name : Option String) (e : Engine) (path : String) :
    Except Failure (Query × Engine) := do
  let name ← match name, fileStem path with
    | some name, _ => pure name
    | .none, some stem => pure stem
    | .none, .none => throw (.message ("cannot name query from path " ++ path))
  let text ← readFile files path
  match e.parseQuery name text with
  | (.ok q, e) => return (q, e)
  | (.error err, _) => throw (.error err)

/-- Parses the query files in order and gives the last query. -/
def addQueries (files : Files) (name : Option String) (e : Engine) :
    List String → Except Failure (Query × Engine)
  | [] => throw (.message "no query to compile")
  | [path] => addQuery files name e path
  | path :: paths => do
      let (_, e) ← addQuery files .none e path
      addQueries files name e paths

/-! ## Running -/

def compile (files : Files) (o : Options) : Except Failure Printed := do
  let config ← match o.config with
    | some path => lift (Config.ofFile path (files path))
    | .none => pure Config.default
  let config := if o.noOptimize then { config with optimizeQueries := false } else config
  let e ← o.tracepoints.foldlM (addTracepoints files) (Engine.start config)
  let (q, e) ← addQueries files o.name e o.queries
  let (compiled, e) := e.compile q
  let compiled ← lift compiled
  if o.json then
    return ⟨(Json.arr (compiled.weaves.map WeaveSpec.toJson)).pretty ++ "\n", ""⟩
  let shown := "Query:\n" ++ q.explain e.catalog.arena ++ "\n"
  let optimized :=
    if config.optimizeQueries then
      let (q, e) := e.optimize q
      "Optimized:\n" ++ q.explain e.catalog.arena ++ "\n"
    else ""
  return ⟨shown ++ optimized ++ compiled.explain, ""⟩

/-- Runs the program on its arguments. -/
def run (files : Files) (args : List String) : Except Failure Printed := do
  match ← readArguments args with
  | .usage => return ⟨"", usage⟩
  | .compile o => compile files o

end CausalTrace.Command
