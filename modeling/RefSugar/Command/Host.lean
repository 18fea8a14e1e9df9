/-!
What a command needs of the system it runs on.
-/
namespace RefSugar.Command

inductive FileError where
  | notFound
  | alreadyExists
  | notDirectory
  | isDirectory
  /-- The file holds no text. -/
  | notText
  /-- Any other failure, in the system's words. -/
  | other (text : String)
  deriving DecidableEq, Repr

def FileError.message : FileError → String
  | notFound => "No such file or directory (os error 2)"
  | alreadyExists => "File exists (os error 17)"
  | notDirectory => "Not a directory (os error 20)"
  | isDirectory => "Is a directory (os error 21)"
  | notText => "stream did not contain valid UTF-8"
  | other text => text

/-- Files, directories and the two outputs. -/
structure Host (m : Type → Type) where
  isFile : String → m Bool
  isDir : String → m Bool
  read : String → m (Except FileError String)
  write : String → String → m (Except FileError Unit)
  /-- Makes a directory and those it lies in, unless they are there. -/
  makeDirs : String → m (Except FileError Unit)
  /-- The files below a directory, depth first, by their names. -/
  filesBelow : String → m (Except FileError (List String))
  out : String → m Unit
  err : String → m Unit

end RefSugar.Command
