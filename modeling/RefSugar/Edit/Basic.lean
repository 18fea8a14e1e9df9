/-!
Text edits at byte offsets of a document, and sets of them.
-/
namespace RefSugar

inductive Edit where
  /-- Text that belongs to what stands behind the offset. -/
  | insertBefore (pos : Nat) (text : String)
  /-- Text that belongs to what stands in front of the offset. -/
  | insertAfter (pos : Nat) (text : String)
  | remove (start stop : Nat)
  | overwrite (start stop : Nat) (text : String)
  deriving DecidableEq, Repr

namespace Edit

def start : Edit → Nat
  | insertBefore pos _ | insertAfter pos _ => pos
  | remove start _ | overwrite start _ _ => start

/-- The end of what the edit replaces; an insertion replaces nothing. -/
def stop : Edit → Nat
  | insertBefore pos _ | insertAfter pos _ => pos
  | remove _ stop | overwrite _ stop _ => stop

end Edit

/-- Edits in the order in which they were issued. -/
structure EditSet where
  edits : List Edit := []
  deriving DecidableEq, Repr

namespace EditSet

def push (s : EditSet) (e : Edit) : EditSet :=
  { edits := s.edits ++ [e] }

/-- Inserting nothing is no edit. -/
def insertBefore (s : EditSet) (pos : Nat) (text : String) : EditSet :=
  if text.isEmpty then s else s.push (.insertBefore pos text)

def insertAfter (s : EditSet) (pos : Nat) (text : String) : EditSet :=
  if text.isEmpty then s else s.push (.insertAfter pos text)

/-- Removing nothing is no edit. -/
def remove (s : EditSet) (start stop : Nat) : EditSet :=
  if start < stop then s.push (.remove start stop) else s

/-- Overwriting nothing is inserting. -/
def overwrite (s : EditSet) (start stop : Nat) (text : String) : EditSet :=
  if start < stop then s.push (.overwrite start stop text) else s.insertBefore start text

/-- Issues an edit, unless it does nothing. -/
def issue (s : EditSet) : Edit → EditSet
  | .insertBefore pos text => s.insertBefore pos text
  | .insertAfter pos text => s.insertAfter pos text
  | .remove start stop => s.remove start stop
  | .overwrite start stop text => s.overwrite start stop text

def append (s t : EditSet) : EditSet :=
  { edits := s.edits ++ t.edits }

def length (s : EditSet) : Nat :=
  s.edits.length

def isEmpty (s : EditSet) : Bool :=
  s.edits.isEmpty

/-- The edits by their start; those with the same start stay in order. -/
def sorted (s : EditSet) : List Edit :=
  s.edits.mergeSort fun a b => a.start ≤ b.start

end EditSet

/-- Collects the edits of one unit, whose positions are counted from `origin`, as edits of the
document in which the unit starts at `base`. -/
structure Emitter where
  base : Nat
  origin : Nat := 0
  edits : EditSet := {}
  deriving Repr

namespace Emitter

def offset (e : Emitter) (pos : Nat) : Nat :=
  e.base + (pos - e.origin)

def emit (e : Emitter) (edit : Edit) : Emitter :=
  let moved := match edit with
    | .insertBefore pos text => Edit.insertBefore (e.offset pos) text
    | .insertAfter pos text => Edit.insertAfter (e.offset pos) text
    | .remove start stop => Edit.remove (e.offset start) (e.offset stop)
    | .overwrite start stop text => Edit.overwrite (e.offset start) (e.offset stop) text
  { e with edits := e.edits.issue moved }

def prepend (e : Emitter) (text : String) : Emitter :=
  { e with edits := e.edits.insertAfter e.base text }

end Emitter

end RefSugar
