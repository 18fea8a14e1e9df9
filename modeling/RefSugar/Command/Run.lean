import RefSugar.Check
import RefSugar.Command.Glob
import RefSugar.Command.Help
import RefSugar.Command.Host
import RefSugar.Command.Path
import RefSugar.Options.Text
import RefSugar.Transform

/-!
Carrying out commands on a system. A file that fails does not keep the others from being processed.
-/
namespace RefSugar.Command

/-- Why a command, or the processing of one file, fails. -/
structure Failure where
  message : String
  cause : Option String := none
  deriving DecidableEq, Repr

namespace Failure

def oneLine (f : Failure) : String :=
  match f.cause with
  | none => f.message
  | some cause => f.message ++ ": " ++ cause

def indented (text : String) : String :=
  "    " ++ "\n    ".intercalate (text.splitOn "\n")

def report (f : Failure) : String :=
  "Error: " ++ f.message ++
    (match f.cause with
      | none => ""
      | some cause => "\n\nCaused by:\n" ++ indented cause) ++ "\n"

end Failure

def Failure.ofTransform (e : TransformError) : Failure :=
  match e with
  | .edit cause => { message := e.message, cause := cause.message }
  | _ => { message := e.message }

section

variable {m : Type → Type} [Monad m] (host : Host m)

abbrev Task (m : Type → Type) := ExceptT Failure m

def touch {α : Type} (message : String) (step : m (Except FileError α)) : Task m α := do
  match ← step with
  | .ok a => return a
  | .error e => throw { message, cause := e.message }

def defaultConfig : String := "rfx.config.json"

/-- The options from the file that is asked for, or from the default file if there is one. -/
def loadOptions (config : Option String) : Task m Options := do
  let path ← match config with
    | some path => pure (some path)
    | none => do
      if ← host.isFile defaultConfig then pure (some defaultConfig) else pure none
  match path with
  | none => return {}
  | some path =>
    let text := (← touch ("failed to read config " ++ path) (host.read path)).toList
    match Options.ofText text with
    | .ok o => return o
    | .error fault =>
      throw { message := "invalid config " ++ path, cause := fault.describe text }

def requestOptions (r : Request) : Task m Options := do
  let o ← loadOptions host r.config
  return { o with
    ignore := o.ignore ++ r.ignore
    resolution := if r.counting then .counting else o.resolution }

end

structure Filter where
  included : List Glob
  excluded : List Glob

namespace Filter

def globs (patterns : List String) : Except Failure (List Glob) :=
  patterns.mapM fun pattern =>
    match Glob.parse pattern with
    | .ok g => .ok g
    | .error p =>
      .error { message := "invalid glob `" ++ pattern ++ "`", cause := p.describe pattern }

def ofOptions (o : Options) : Except Failure Filter := do
  return { included := ← globs o.included, excluded := ← globs o.excluded }

def excludes (f : Filter) (path : String) : Bool :=
  f.excluded.any (·.isMatch path)

def accepts (f : Filter) (path : String) : Bool :=
  f.included.any (·.isMatch path) && !f.excludes path

end Filter

section

variable {m : Type → Type} [Monad m] (host : Host m)

/-- The files an input stands for. A directory is searched; a file is taken unless it is excluded.
-/
def filesOf (f : Filter) (input : String) : Task m (List String) := do
  if ← host.isDir input then
    return (← touch ("failed to walk " ++ input) (host.filesBelow input)).filter f.accepts
  else if f.excludes input then return []
  else return [input]

def allFiles (f : Filter) (inputs : List String) : Task m (List String) := do
  return (← inputs.mapM (filesOf host f)).flatten

def forEachFile (process : String → Task m Unit) : List String → m Nat
  | [] => return 0
  | path :: paths => do
    match ← (process path).run with
    | .ok () => forEachFile process paths
    | .error f =>
      host.err ("error: " ++ path ++ ": " ++ f.oneLine ++ "\n")
      return (← forEachFile process paths) + 1

def processAll (process : String → Task m Unit) (files : List String) : Task m Unit := do
  let failed ← (forEachFile host process files : m Nat)
  if 0 < failed then
    throw
      { message := toString failed ++ " of " ++ toString files.length ++ " files failed" }

def readSource (path : String) : Task m String :=
  touch ("failed to read " ++ path) (host.read path)

def deliver (target : Option String) (code : String) : Task m Unit := do
  match target with
  | none => host.out code
  | some target =>
    if let some dir := Path.parent? target then
      touch ("failed to create " ++ dir) (host.makeDirs dir)
    touch ("failed to write " ++ target) (host.write target code)

/-- Transforms a file. If that fails its source is delivered as it is. -/
def transformPath (o : Options) (target : Option String) (path : String) : Task m Unit := do
  let source ← readSource host path
  match transformFile o path source.toList with
  | .error e =>
    deliver host target source
    throw (Failure.ofTransform e)
  | .ok result =>
    deliver host target (String.ofList result.code)
    if let some map := result.map then
      let mapPath := target.getD path ++ ".map"
      touch ("failed to write " ++ mapPath) (host.write mapPath map)
      host.err ("Source map written to " ++ mapPath ++ "\n")

def checkPath (path : String) : Task m Unit := do
  let source ← readSource host path
  match checkFile path source.toList with
  | .error e => throw { message := e.message }
  | .ok () => host.err ("OK: " ++ path ++ "\n")

def Request.target (r : Request) (path : String) : Option String :=
  match r.output, r.outDir with
  | some output, _ => some output
  | none, some dir => some (Path.join dir (Path.relative path))
  | none, none => none

def runTransform (r : Request) : Task m Unit := do
  let o ← requestOptions host r
  let o := { o with
    sourceMap := o.sourceMap || r.sourceMap
    declarations := o.declarations || r.declarations }
  let files ← allFiles host (← Filter.ofOptions o) r.inputs
  if r.output.isSome && files.length != 1 then
    throw
      { message := "--output needs exactly one input file, got " ++ toString files.length }
  processAll host (fun path => transformPath host o (r.target path) path) files

def runCheck (r : Request) : Task m Unit := do
  let o ← requestOptions host r
  let files ← allFiles host (← Filter.ofOptions o) r.inputs
  processAll host (checkPath host) files

end

def editJson : Edit → Json
  | .insertBefore pos text =>
    .obj [("kind", .str "insertBefore"), ("pos", .nat pos), ("text", .str text)]
  | .insertAfter pos text =>
    .obj [("kind", .str "insertAfter"), ("pos", .nat pos), ("text", .str text)]
  | .remove start stop => .obj [("kind", .str "remove"), ("start", .nat start), ("end", .nat stop)]
  | .overwrite start stop text =>
    .obj [("kind", .str "overwrite"), ("start", .nat start), ("end", .nat stop),
      ("text", .str text)]

def resultJson (t : Transformed) : Json :=
  .obj [
    ("code", .str (String.ofList t.code)),
    ("edits", .arr (t.edits.map editJson)),
    ("map", (t.map.map Json.str).getD .null),
    ("unwrapBindings", .arr (t.unwrapBindings.map .str))]

section

variable {m : Type → Type} [Monad m] (host : Host m)

def runEdits (r : Request) : Task m Unit := do
  let o ← requestOptions host r
  for path in r.inputs do
    let source ← readSource host path
    match transformFile o path source.toList with
    | .error e => throw (Failure.ofTransform e)
    | .ok result => host.out (Json.pretty 0 (resultJson result) ++ "\n")

def runDeclarations (r : Request) : Task m Unit := do
  host.out (primitiveDeclarations (← requestOptions host r))

def runRequest (r : Request) : Task m Unit :=
  match r.action with
  | .transform => runTransform host r
  | .check => runCheck host r
  | .edits => runEdits host r
  | .declarations => runDeclarations host r

/-- Runs a command line and tells its exit status: `0` for success, `1` for failure, `2` for
arguments that make no sense. -/
def run (args : List String) : m Nat := do
  match readArgs args with
  | .misuse =>
    host.err generalHelp
    return 2
  | .help topic =>
    host.out (helpText topic)
    return 0
  | .request r =>
    match ← (runRequest host r).run with
    | .ok () => return 0
    | .error f =>
      host.err f.report
      return 1

end

end RefSugar.Command
