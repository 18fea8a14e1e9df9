import RefSugar.Document.Region
import RefSugar.Sigil.Scan
import RefSugar.Syntax.Parse

/-!
Checking that the scripts of a file can be read, without transforming them.
-/
namespace RefSugar

inductive CheckError where
  | unsupportedFile (filename : String)
  | regionOutside
  | parse (message : String)
  deriving DecidableEq, Repr

def CheckError.message : CheckError → String
  | unsupportedFile filename => "unsupported file type: " ++ filename
  | regionOutside => "script region outside the file"
  | parse message => message

/-- Checks one region. A region without a sigil is not read. -/
def checkRegion (filename : String) (source : List Char) (r : Document.Region) :
    Except CheckError Unit :=
  match Text.slice? r.start r.stop source with
  | none => .error .regionOutside
  | some text =>
    if !Sigil.containsSigil text then .ok ()
    else
      match Syntax.parseModule r.dialect text with
      | .error fault => .error (.parse (fault.describe filename text))
      | .ok _ => .ok ()

/-- Checks the regions of a file, up to the first fault. -/
def checkFile (filename : String) (source : List Char) : Except CheckError Unit :=
  match Document.regionsOf? filename source with
  | none => .error (.unsupportedFile filename)
  | some regions => regions.forM (checkRegion filename source)

end RefSugar
