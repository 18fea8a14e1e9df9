import RefSugar.Reference
import RefSugar.Walk.Trace

/-!
Carrying out the events of a unit. Edits that can be decided on the spot are emitted at once.
Whether a reference gets its value appended is decided at the end, when all declarations are known.
-/
namespace RefSugar.Walk

structure Unwrapped where
  name : String
  frame : Nat
  deriving DecidableEq, Repr

structure Run where
  emitter : Emitter
  scopes : Scopes
  session : Session
  marked : List Syntax.Span := []
  references : List Reference := []
  unwrapped : List Unwrapped := []
  /-- The primitives that the edits so far call. -/
  called : List Primitive := []

def Place.frame (scopes : Scopes) : Place → Nat
  | .current => scopes.current
  | .hoisted => scopes.hoistTarget

namespace Run

/-- A unit that starts at offset `base` of its document, before any event. -/
def start (base : Nat) (root : FrameKind) (session : Session) : Run :=
  { emitter := { base }, scopes := .root root, session }

def emit (r : Run) (e : Edit) : Run :=
  { r with emitter := r.emitter.emit e }

def known (r : Run) (frame : Nat) (name : String) : Run :=
  { r with scopes := r.scopes.declareKnown frame name }

def unwrap (r : Run) (frame : Nat) (name : String) : Run :=
  { r with
    scopes := r.scopes.declareUnwrap frame name
    unwrapped := r.unwrapped ++ [{ name, frame }] }

def refer (r : Run) (m : Mention) : Run :=
  let reference : Reference :=
    { name := m.id.name, span := m.id.span, frame := r.scopes.current, isWrite := m.isWrite
      isShorthand := m.isShorthand, chain := m.chain, isExempt := m.isExempt
      wasActive := r.scopes.isActiveUnwrap m.id.name }
  { r with references := r.references ++ [reference] }

/-- Replaces a pattern by a temporary and declares its names behind the declaration. -/
def unpack (r : Run) (source : List Char) (frame : Nat) (plan : Unpack.Plan) (stop : Nat) : Run :=
  let (temp, session) := r.session.freshTemp
  let r := { r with session, called := r.called ++ plan.primitives }
  let r := (r.emit (.overwrite plan.span.lo plan.span.hi temp)).emit
    (.insertAfter stop (plan.render source temp))
  let r := plan.fieldNames.foldl (fun r name => r.unwrap frame name) r
  plan.restName?.toList.foldl (fun r name => r.known frame name) r

def step (source : List Char) (r : Run) : Event → Run
  | .edit e => r.emit e
  | .mark span => { r with marked := r.marked ++ [span] }
  | .enter kind => { r with scopes := r.scopes.enter kind }
  | .leave => { r with scopes := r.scopes.leave }
  | .known place name => r.known (place.frame r.scopes) name
  | .unwrap place name => r.unwrap (place.frame r.scopes) name
  | .mention m => r.refer m
  | .unpack place plan stop => r.unpack source (place.frame r.scopes) plan stop

def steps (source : List Char) (r : Run) (events : List Event) : Run :=
  events.foldl (step source) r

end Run

/-- What a unit comes to. -/
structure Outcome where
  edits : EditSet
  /-- The names to unwrap that the root frame declares, in order. -/
  rootUnwraps : List String
  session : Session

/-- Closes the root, appends the values and imports the primitives that are called. -/
def Run.finish (o : Options) (r : Run) : Outcome :=
  let emitter :=
    Reference.resolveAll r.scopes.leave r.marked o.resolution r.references r.emitter
  let rootUnwraps := (r.unwrapped.filter (·.frame == 0)).map Unwrapped.name
  if o.declarations then { edits := emitter.edits, rootUnwraps, session := r.session }
  else
    match r.session.importStatement r.called o.runtimeModule with
    | (some statement, session) =>
      { edits := (emitter.prepend statement).edits, rootUnwraps, session }
    | (none, session) => { edits := emitter.edits, rootUnwraps, session }

def setting (o : Options) (source : List Char) : Setting :=
  { source, options := o, ignore := o.ignoreList }

/-- Walks a script that starts at offset `base` of its document. -/
def script (o : Options) (session : Session) (base : Nat) (source : List Char)
    (stmts : List Syntax.Stmt) : Outcome :=
  ((Run.start base .program session).steps source (traceStmts (setting o source) stmts)).finish o

/-- Walks a lone expression, in whose scope some names are to be unwrapped. -/
def expression (o : Options) (unwraps : List String) (source : List Char) (e : Syntax.Expr) :
    Outcome :=
  let start := Run.start 0 .expression {}
  let start := { start with scopes := unwraps.foldl (·.declareUnwrap 0) start.scopes }
  (start.steps source (traceExpr (setting o source) [] false e)).finish o

end RefSugar.Walk
