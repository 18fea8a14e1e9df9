import RefSugar.Edit.Basic
import RefSugar.Options
import RefSugar.Scope
import RefSugar.Syntax.Tree

/-!
References to names, and which of them stand for the value of what they name.
-/
namespace RefSugar

open Syntax (Span)

/-- One occurrence of a name where an expression or the target of an assignment stands. -/
structure Reference where
  name : String
  span : Span
  frame : Nat
  isWrite : Bool := false
  /-- The name is also the key of a member of an object. -/
  isShorthand : Bool := false
  /-- The spans of the expressions whose head it is, outermost first. -/
  chain : List Span := []
  /-- It stands in the value of an attribute that is left alone. -/
  isExempt : Bool := false
  /-- The counts spoke for unwrapping when it was met. -/
  wasActive : Bool := false
  deriving DecidableEq, Repr

inductive Reference.Class where
  | notReactive
  /-- It, or an expression whose head it is, is meant as a reference. -/
  | explicit
  | exemptAttribute
  | read
  | write
  | shorthandKey
  deriving DecidableEq, Repr

namespace Reference

/-- References of this class get the value appended. -/
def Class.needsValue : Class → Bool
  | read | write | shorthandKey => true
  | notReactive | explicit | exemptAttribute => false

def isActive (scopes : Scopes) (resolution : Resolution) (r : Reference) : Bool :=
  match resolution with
  | .lexical => scopes.resolve r.frame r.name == some .unwrap
  | .counting => r.wasActive

/-- The class of a reference; `marked` are the spans that are meant as references. -/
def classify (scopes : Scopes) (marked : List Span) (resolution : Resolution) (r : Reference) :
    Class :=
  if !r.isActive scopes resolution then .notReactive
  else if (r.span :: r.chain).any marked.contains then .explicit
  else if r.isExempt then .exemptAttribute
  else if r.isShorthand then .shorthandKey
  else if r.isWrite then .write
  else .read

def editsFor (r : Reference) : Class → List Edit
  | .shorthandKey =>
    [.insertBefore r.span.lo (r.name ++ ": "), .insertAfter r.span.hi ".value"]
  | .read | .write => [.insertAfter r.span.hi ".value"]
  | .notReactive | .explicit | .exemptAttribute => []

/-- Appends the value to all references that need it. -/
def resolveAll (scopes : Scopes) (marked : List Span) (resolution : Resolution)
    (references : List Reference) (emitter : Emitter) : Emitter :=
  references.foldl (fun emitter r =>
    (r.editsFor (r.classify scopes marked resolution)).foldl Emitter.emit emitter) emitter

def countNeeding (scopes : Scopes) (marked : List Span) (resolution : Resolution)
    (references : List Reference) : Nat :=
  references.countP fun r => (r.classify scopes marked resolution).needsValue

end Reference

end RefSugar
