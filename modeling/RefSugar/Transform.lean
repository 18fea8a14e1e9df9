import RefSugar.Document.Region
import RefSugar.Sigil.Scan
import RefSugar.SourceMap
import RefSugar.Syntax.Parse
import RefSugar.Walk.Run

/-!
Transforming whole documents and lone expressions. Each script region is walked on its own; the
edits of all regions are applied to the document at once.
-/
namespace RefSugar

inductive TransformError where
  | parse (message : String)
  | edit (cause : EditError)
  | unsupportedFile (filename : String)
  | regionOutOfBounds (start stop : Nat)
  deriving DecidableEq, Repr

def TransformError.message : TransformError → String
  | parse message => message
  | edit cause => "conflicting edits: " ++ cause.message
  | unsupportedFile filename => "unsupported file type: " ++ filename
  | regionOutOfBounds start stop =>
    "script region " ++ toString start ++ ".." ++ toString stop ++ " is outside the document"

structure Transformed where
  code : List Char
  /-- The applied edits by their start. -/
  edits : List Edit := []
  mappings : List Mapping := []
  map : Option String := none
  /-- The names to unwrap at top level, for expressions that run in that scope. -/
  unwrapBindings : List String := []
  deriving Repr

namespace Transformed

def unchanged (source : List Char) : Transformed :=
  { code := source }

def isChanged (t : Transformed) : Bool :=
  !t.edits.isEmpty

end Transformed

namespace Transform

open Document (Region)

def splice (o : Options) (filename : String) (source : List Char) (edits : EditSet) :
    Except TransformError Transformed :=
  if edits.isEmpty then .ok (.unchanged source)
  else
    match edits.apply source with
    | .error e => .error (.edit e)
    | .ok spliced =>
      .ok
        { code := spliced.code
          edits := edits.sorted
          mappings := spliced.mappings
          map :=
            if o.sourceMap then some (SourceMap.render filename source spliced.mappings) else none }

/-- What the regions of a document have come to so far. -/
structure Progress where
  session : Session := {}
  edits : EditSet := {}
  unwrapBindings : List String := []
  /-- The end of the last region with an edit. -/
  lastChanged : Option Nat := none

/-- Transforms one region. A region without a sigil is not even parsed. -/
def region (o : Options) (filename : String) (source : List Char) (p : Progress) (r : Region) :
    Except TransformError Progress :=
  match Text.slice? r.start r.stop source with
  | none => .error (.regionOutOfBounds r.start r.stop)
  | some text =>
    if !Sigil.containsSigil text then .ok p
    else
      match Syntax.parseModule r.dialect text with
      | .error fault => .error (.parse (fault.describe filename text))
      | .ok stmts =>
        let walked := Walk.script o p.session r.start text stmts
        .ok
          { session := walked.session
            edits := p.edits.append walked.edits
            unwrapBindings := p.unwrapBindings ++ walked.rootUnwraps
            lastChanged := if walked.edits.isEmpty then p.lastChanged else some r.stop }

/-- The edits of all regions, with the declarations behind the last changed one if they are asked
for. -/
def Progress.finalEdits (o : Options) (p : Progress) : EditSet :=
  match p.lastChanged with
  | none => p.edits
  | some stop =>
    if o.declarations then p.edits.insertAfter stop ("\n" ++ primitiveDeclarations o) else p.edits

end Transform

open Transform in
def transformRegions (o : Options) (filename : String) (source : List Char)
    (regions : List Document.Region) : Except TransformError Transformed := do
  let p ← regions.foldlM (region o filename source) {}
  let result ← splice o filename source (p.finalEdits o)
  return { result with unwrapBindings := p.unwrapBindings }

def transformFile (o : Options) (filename : String) (source : List Char) :
    Except TransformError Transformed :=
  match Document.regionsOf? filename source with
  | none => .error (.unsupportedFile filename)
  | some regions => transformRegions o filename source regions

/-- Transforms a lone expression, in whose scope the names of `unwraps` are to be unwrapped. -/
def transformExpression (o : Options) (filename : String) (dialect : Dialect)
    (unwraps : List String) (source : List Char) : Except TransformError Transformed :=
  if unwraps.isEmpty && !Sigil.containsSigil source then .ok (.unchanged source)
  else
    match Syntax.parseExpr dialect source with
    | .error fault => .error (.parse (fault.describe filename source))
    | .ok e => do
      let result ← Transform.splice o filename source (Walk.expression o unwraps source e).edits
      return { result with unwrapBindings := unwraps }

end RefSugar
