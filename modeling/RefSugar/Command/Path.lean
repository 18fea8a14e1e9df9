/-!
Paths as text, with slashes between their components.
-/
namespace RefSugar.Command.Path

/-- The pieces between slashes; empty ones included. -/
def segments (path : String) : List String :=
  path.splitOn "/"

def isAbsolute (path : String) : Bool :=
  path.startsWith "/"

def isIdle (segment : String) : Bool :=
  segment.isEmpty || segment == "."

def steps (path : String) : List String :=
  (segments path).filter (!isIdle ·)

/-- The path without a root, and without segments that lead nowhere or up. -/
def relative (path : String) : String :=
  "/".intercalate ((steps path).filter (· != ".."))

def join (dir path : String) : String :=
  if isAbsolute path || dir.isEmpty then path
  else if dir.endsWith "/" then dir ++ path
  else dir ++ "/" ++ path

/-- Drops idle segments from the end, but not a point in front of all. -/
def dropIdle (segments : List String) : List String :=
  match segments with
  | [] => []
  | first :: rest =>
    let kept := (rest.reverse.dropWhile isIdle).reverse
    if first.isEmpty && kept.isEmpty then [] else first :: kept

/-- The directory that holds what a path leads to. The root has none. -/
def parent? (path : String) : Option String :=
  match dropIdle (segments path) with
  | [] => none
  | kept =>
    let front := dropIdle kept.dropLast
    some (if front.isEmpty && isAbsolute path then "/" else "/".intercalate front)

end RefSugar.Command.Path
