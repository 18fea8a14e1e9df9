import RefSugar.Command.Run

/-!
The command line tool.
-/
namespace RefSugar.Command

def fileError : IO.Error → FileError
  | .noFileOrDirectory _ _ _ => .notFound
  | .alreadyExists _ _ _ => .alreadyExists
  | .inappropriateType _ 20 _ => .notDirectory
  | .inappropriateType _ 21 _ => .isDirectory
  | e => .other (toString e)

def guarded {α : Type} (act : IO α) : IO (Except FileError α) := do
  try return .ok (← act) catch e => return .error (fileError e)

def readText (path : String) : IO (Except FileError String) := do
  match ← guarded (IO.FS.readBinFile path) with
  | .error e => return .error e
  | .ok content =>
    match String.fromUTF8? content with
    | some text => return .ok text
    | none => return .error .notText

def isDirectory (path : String) : IO Bool := do
  ((← IO.currentDir) / path).isDir

def isRegular (path : String) : IO Bool := do
  let full := (← IO.currentDir) / path
  return (← full.pathExists) && !(← full.isDir)

/-- The files below a directory, each directory in the order of its names. -/
partial def listBelow (dir : String) : IO (List String) := do
  let entries ← ((← IO.currentDir) / dir).readDir
  let names := (entries.toList.map (·.fileName)).mergeSort fun a b => decide (a ≤ b)
  let lists ← names.mapM fun name => do
    let path := Path.join dir name
    if ← isDirectory path then listBelow path else return [path]
  return lists.flatten

def systemHost : Host IO where
  isFile := isRegular
  isDir := isDirectory
  read := readText
  write path text := guarded (IO.FS.writeFile path text)
  makeDirs path := if path.isEmpty then return .ok () else guarded (IO.FS.createDirAll path)
  filesBelow dir := guarded (listBelow dir)
  out text := do (← IO.getStdout).putStr text
  err text := do (← IO.getStderr).putStr text

end RefSugar.Command

def main (args : List String) : IO UInt32 := do
  return (← RefSugar.Command.run RefSugar.Command.systemHost args).toUInt32
