import RefSugar.Command.Host
import RefSugar.Command.Path

/-!
A tree of files in memory, as a system to run commands on. All paths are relative to its root.
-/
namespace RefSugar.Command

/-- Where a file or a directory lies: the names on the way to it. -/
abbrev Location := List String

structure Tree where
  files : List (Location × ByteArray) := []
  /-- All directories but the root. -/
  dirs : List Location := []

namespace Tree

inductive Node where
  | file (content : ByteArray)
  | dir

def node? (t : Tree) (loc : Location) : Option Node :=
  match t.files.lookup loc with
  | some content => some (.file content)
  | none => if loc.isEmpty || t.dirs.contains loc then some .dir else none

def ancestors (loc : Location) : List Location :=
  (List.range loc.length).tail.map loc.take

def addDir (t : Tree) (loc : Location) : Tree :=
  if loc.isEmpty || t.dirs.contains loc then t else { t with dirs := t.dirs ++ [loc] }

def addDirs (t : Tree) (loc : Location) : Tree :=
  (ancestors loc ++ [loc]).foldl addDir t

def put (t : Tree) (loc : Location) (content : ByteArray) : Tree :=
  if t.files.any (·.1 == loc) then
    { t with files := t.files.map fun (p, old) => if p == loc then (p, content) else (p, old) }
  else { t with files := t.files ++ [(loc, content)] }

/-- Adds a file, or with a slash at the end of its path an empty directory. -/
def add (t : Tree) (path : String) (content : ByteArray) : Tree :=
  let location := Path.steps path
  if path.endsWith "/" then t.addDirs location
  else (t.addDirs location.dropLast).put location content

/-- Follows names from a location. All but the last have to lead through directories. -/
def follow (t : Tree) : Location → List String → Except FileError Location
  | loc, [] => .ok loc
  | loc, name :: names =>
    match t.node? loc with
    | none => .error .notFound
    | some (.file _) => .error .notDirectory
    | some .dir =>
      if name == ".." then
        if loc.isEmpty then .error .notFound else follow t loc.dropLast names
      else follow t (loc ++ [name]) names

def wantsDir (path : String) : Bool :=
  (Path.segments path).getLast?.any Path.isIdle

/-- The path steps into what its last name leads to, and stays there. -/
def entersLast (path : String) : Bool :=
  ((Path.segments path).reverse.takeWhile Path.isIdle).contains "."

/-- The location that a path leads to, whether something is there or not. -/
def locate (t : Tree) (path : String) : Except FileError Location :=
  if path.isEmpty || Path.isAbsolute path then .error .notFound else t.follow [] (Path.steps path)

def find (t : Tree) (path : String) : Except FileError Node := do
  match t.node? (← t.locate path) with
  | none => throw .notFound
  | some (.file content) => if wantsDir path then throw .notDirectory else return .file content
  | some .dir => return .dir

def isFile (t : Tree) (path : String) : Bool :=
  match t.find path with
  | .ok (.file _) => true
  | _ => false

def isDir (t : Tree) (path : String) : Bool :=
  match t.find path with
  | .ok .dir => true
  | _ => false

def read (t : Tree) (path : String) : Except FileError String := do
  match ← t.find path with
  | .dir => throw .isDirectory
  | .file content =>
    match String.fromUTF8? content with
    | some text => return text
    | none => throw .notText

def write (t : Tree) (path text : String) : Except FileError Tree := do
  let location ← t.locate path
  match t.node? location with
  | some .dir => throw .isDirectory
  | some (.file _) =>
    if entersLast path then throw .notDirectory
    else if wantsDir path then throw .isDirectory
    else return t.put location text.toUTF8
  | none =>
    match t.node? location.dropLast with
    | some .dir =>
      if entersLast path then throw .notFound
      else if wantsDir path then throw .isDirectory
      else return t.put location text.toUTF8
    | some (.file _) => throw .notDirectory
    | none => throw .notFound

def makeDir (t : Tree) (path : String) : Except FileError Tree := do
  let location ← t.locate path
  match t.node? location with
  | some _ => throw .alreadyExists
  | none =>
    match t.node? location.dropLast with
    | some .dir => return t.addDir location
    | some (.file _) => throw .notDirectory
    | none => throw .notFound

/-- Makes a directory, and first those it lies in if they are missing. -/
def makeDirsUpTo : Nat → Tree → String → Except FileError Tree
  | 0, t, _ => .ok t
  | fuel + 1, t, path =>
    if path.isEmpty then .ok t
    else
      match t.makeDir path with
      | .ok t => .ok t
      | .error .notFound => do
        let t ← match Path.parent? path with
          | some parent => makeDirsUpTo fuel t parent
          | none => throw .notFound
        match t.makeDir path with
        | .ok t => return t
        | .error e => if t.isDir path then return t else throw e
      | .error e => if t.isDir path then .ok t else .error e

def makeDirs (t : Tree) (path : String) : Except FileError Tree :=
  makeDirsUpTo (path.length + 1) t path

/-- Names by their bytes, which is the order of their characters. -/
def nameBefore (a b : Location) : Bool :=
  !b.lex a fun x y => x.toList.lex y.toList fun c d => c.toNat < d.toNat

/-- The files below a directory. Sorting by all names on the way is what a walk that sorts each
directory comes to. -/
def filesBelow (t : Tree) (dir : String) : Except FileError (List String) := do
  let location ← t.locate dir
  let below := t.files.filter fun (loc, _) => location.isPrefixOf loc
  return ((below.map (·.1)).mergeSort nameBefore).map fun loc =>
    (loc.drop location.length).foldl Path.join dir

def changes (before after : Tree) : List (String × ByteArray) :=
  (after.files.filter fun (loc, content) => before.files.lookup loc != some content).map
    fun (loc, content) => ("/".intercalate loc, content)

end Tree

structure World where
  tree : Tree
  out : String := ""
  err : String := ""

/-- Changes the tree, or leaves it as it is and tells why. -/
def changeTree (change : Tree → Except FileError Tree) : StateM World (Except FileError Unit) := do
  let w ← get
  match change w.tree with
  | .ok tree =>
    set { w with tree }
    return .ok ()
  | .error e => return .error e

def treeHost : Host (StateM World) where
  isFile path := return (← get).tree.isFile path
  isDir path := return (← get).tree.isDir path
  read path := return (← get).tree.read path
  write path text := changeTree (·.write path text)
  makeDirs path := changeTree (·.makeDirs path)
  filesBelow path := return (← get).tree.filesBelow path
  out text := modify fun w => { w with out := w.out ++ text }
  err text := modify fun w => { w with err := w.err ++ text }

end RefSugar.Command
