/-!
Scopes. A frame declares names either as ordinary bindings or as bindings to unwrap. Frames are
never forgotten, so that a reference can be resolved after everything has been declared. Beside
them, open declarations are counted, for hosts that decide while frames are still open.
-/
namespace RefSugar

inductive FrameKind where
  | program
  | function
  | block
  | handler
  | loop
  /-- The root of a lone expression. It is never closed. -/
  | expression
  deriving DecidableEq, Repr

/-- Frames that hoisted declarations go to. -/
def FrameKind.isHoistTarget : FrameKind → Bool
  | program | function | expression => true
  | block | handler | loop => false

inductive BindingKind where
  /-- An ordinary binding. -/
  | known
  /-- A binding whose references denote the value of what it holds. -/
  | unwrap
  deriving DecidableEq, Repr

structure Frame where
  kind : FrameKind
  parent : Option Nat
  known : List String := []
  unwrap : List String := []
  deriving Repr

/-- The frame's own answer. An ordinary declaration wins over the other kind. -/
def Frame.lookup (f : Frame) (name : String) : Option BindingKind :=
  if f.known.contains name then some .known
  else if f.unwrap.contains name then some .unwrap
  else none

/-- How often each name counts. -/
structure Tally where
  entries : List (String × Nat) := []
  deriving Repr

namespace Tally

def get (t : Tally) (name : String) : Nat :=
  (t.entries.lookup name).getD 0

def put (t : Tally) (name : String) (n : Nat) : Tally :=
  { entries := (name, n) :: t.entries.filter (·.1 != name) }

def increment (t : Tally) (name : String) : Tally :=
  t.put name (t.get name + 1)

def decrement (t : Tally) (name : String) : Tally :=
  t.put name (t.get name - 1)

end Tally

structure Scopes where
  /-- All frames, by number. -/
  frames : List Frame
  /-- The open frames, innermost first. -/
  stack : List Nat
  knownCount : Tally
  unwrapCount : Tally
  deriving Repr

namespace Scopes

/-- Opens a frame inside the current one; its number is the number of frames before. -/
def enter (s : Scopes) (kind : FrameKind) : Scopes :=
  { s with
    frames := s.frames ++ [{ kind, parent := s.stack.head? }]
    stack := s.frames.length :: s.stack }

def root (kind : FrameKind) : Scopes :=
  enter { frames := [], stack := [], knownCount := {}, unwrapCount := {} } kind

/-- Closes the innermost frame; its names no longer count. -/
def leave (s : Scopes) : Scopes :=
  match s.stack with
  | [] => s
  | id :: rest =>
    match s.frames[id]? with
    | none => s
    | some f =>
      if f.kind = .expression then s
      else
        { s with
          stack := rest
          knownCount := f.known.foldl Tally.decrement s.knownCount
          unwrapCount := f.unwrap.foldl Tally.decrement s.unwrapCount }

def current (s : Scopes) : Nat :=
  s.stack.head?.getD 0

/-- The innermost open frame that hoisted declarations go to. -/
def hoistTarget (s : Scopes) : Nat :=
  (s.stack.find? fun id => (s.frames[id]?).any (·.kind.isHoistTarget)).getD 0

def isOpen (s : Scopes) (frame : Nat) : Bool :=
  s.stack.contains frame

def declareKnown (s : Scopes) (frame : Nat) (name : String) : Scopes :=
  match s.frames[frame]? with
  | none => s
  | some f =>
    if f.known.contains name then s
    else
      { s with
        frames := s.frames.set frame { f with known := f.known ++ [name] }
        knownCount := if s.isOpen frame then s.knownCount.increment name else s.knownCount }

def declareUnwrap (s : Scopes) (frame : Nat) (name : String) : Scopes :=
  match s.frames[frame]? with
  | none => s
  | some f =>
    if f.unwrap.contains name then s
    else
      { s with
        frames := s.frames.set frame { f with unwrap := f.unwrap ++ [name] }
        unwrapCount := if s.isOpen frame then s.unwrapCount.increment name else s.unwrapCount }

/-- By the counts: some open frame unwraps the name, and none declares it otherwise. -/
def isActiveUnwrap (s : Scopes) (name : String) : Bool :=
  0 < s.unwrapCount.get name && s.knownCount.get name == 0

/-- The nearest declaration of a name, looking at `fuel` frames at most. -/
def resolveUpTo (s : Scopes) (name : String) : Nat → Option Nat → Option BindingKind
  | 0, _ => none
  | _, none => none
  | fuel + 1, some id =>
    match s.frames[id]? with
    | none => none
    | some f =>
      match f.lookup name with
      | some kind => some kind
      | none => resolveUpTo s name fuel f.parent

/-- The nearest declaration of a name that is visible from a frame. -/
def resolve (s : Scopes) (frame : Nat) (name : String) : Option BindingKind :=
  resolveUpTo s name (s.frames.length + 1) (some frame)

end Scopes

end RefSugar
