import RefSugar.Edit.Basic
import RefSugar.Text.Bytes

/-!
Applying edits to a text. At one offset, texts that belong to what stands in front come first, then
those that belong to what stands behind, then the replacement of the range that starts there.
-/
namespace RefSugar

inductive EditError where
  | outOfBounds (start stop length : Nat)
  | notCharBoundary (pos : Nat)
  | overlap (first second : Nat × Nat)
  | insertInsideRange (pos : Nat) (range : Nat × Nat)
  deriving DecidableEq, Repr

def showRange (r : Nat × Nat) : String :=
  "(" ++ toString r.1 ++ ", " ++ toString r.2 ++ ")"

def EditError.message : EditError → String
  | outOfBounds start stop length =>
    "edit " ++ toString start ++ ".." ++ toString stop ++ " lies outside the source (" ++
      toString length ++ " bytes)"
  | notCharBoundary pos => "edit position " ++ toString pos ++ " is not on a character boundary"
  | overlap first second =>
    "edit ranges " ++ showRange first ++ " and " ++ showRange second ++ " overlap"
  | insertInsideRange pos range =>
    "insertion at " ++ toString pos ++ " falls inside edited range " ++ showRange range

/-- Where a character of the result was copied from. Lines and columns count from zero, columns in
UTF-16 units. They do not wrap around: results of 2 ^ 32 lines, or of a line of 2 ^ 32 units, for which
32 bits would not do, are beyond what is described here. -/
structure Mapping where
  line : Nat
  column : Nat
  offset : Nat
  deriving DecidableEq, Repr

structure Spliced where
  code : List Char
  mappings : List Mapping
  deriving DecidableEq, Repr

structure Replacement where
  start : Nat
  stop : Nat
  text : List Char
  deriving DecidableEq, Repr

/-- A stretch of the result. -/
inductive Stretch where
  /-- Copied from the given offset of the source. -/
  | copied (offset : Nat) (text : List Char)
  | added (text : List Char)
  deriving DecidableEq, Repr

namespace Splice

def replacement? : Edit → Option Replacement
  | .remove start stop => some ⟨start, stop, []⟩
  | .overwrite start stop text => some ⟨start, stop, text.toList⟩
  | .insertBefore _ _ | .insertAfter _ _ => none

def replacements (edits : List Edit) : List Replacement :=
  (edits.filterMap replacement?).mergeSort fun a b => a.start ≤ b.start

def insertPos? : Edit → Option Nat
  | .insertBefore pos _ | .insertAfter pos _ => some pos
  | .remove _ _ | .overwrite _ _ _ => none

/-- The texts inserted at an offset, in the order in which they appear. -/
def insertedAt (edits : List Edit) (pos : Nat) : List (List Char) :=
  (edits.filterMap fun
    | .insertAfter p text => if p == pos then some text.toList else none
    | _ => none) ++
  (edits.filterMap fun
    | .insertBefore p text => if p == pos then some text.toList else none
    | _ => none)

def distinct : List Nat → List Nat
  | [] => []
  | [p] => [p]
  | p :: q :: rest => if p == q then distinct (q :: rest) else p :: distinct (q :: rest)

def increasing (positions : List Nat) : List Nat :=
  distinct (positions.mergeSort (· ≤ ·))

def insertPositions (edits : List Edit) : List Nat :=
  increasing (edits.filterMap insertPos?)

def editFault (source : List Char) (e : Edit) : Option EditError :=
  let length := Text.width source
  if e.stop < e.start || length < e.stop then some (.outOfBounds e.start e.stop length)
  else if !Text.isBoundary e.start source then some (.notCharBoundary e.start)
  else if !Text.isBoundary e.stop source then some (.notCharBoundary e.stop)
  else none

/-- The first neighbours that overlap, among replacements ordered by start. -/
def overlapFault : List Replacement → Option EditError
  | a :: b :: rest =>
    if b.start < a.stop then some (.overlap (a.start, a.stop) (b.start, b.stop))
    else overlapFault (b :: rest)
  | _ => none

/-- The first insertion strictly inside a replacement. -/
def insideFault (ranges : List Replacement) (positions : List Nat) : Option EditError :=
  positions.findSome? fun pos =>
    (ranges.find? fun r => r.start < pos && pos < r.stop).map fun r =>
      .insertInsideRange pos (r.start, r.stop)

def fault (source : List Char) (edits : List Edit) : Option EditError :=
  let ranges := replacements edits
  (edits.findSome? (editFault source)).or
    ((overlapFault ranges).or (insideFault ranges (insertPositions edits)))

/-- The offsets at which something happens. -/
def stops (edits : List Edit) : List Nat :=
  increasing (edits.map Edit.start)

def copy (source : List Char) (start stop : Nat) : List Stretch :=
  if start < stop then [.copied start ((Text.slice? start stop source).getD [])] else []

/-- The stretches of the result from the offset `done` on, which all stops lie behind. -/
def stretches (source : List Char) (edits : List Edit) (ranges : List Replacement) :
    List Nat → Nat → List Stretch
  | [], done => copy source done (Text.width source)
  | pos :: rest, done =>
    copy source done pos ++ (insertedAt edits pos).map .added ++
      match ranges.find? (·.start == pos) with
      | none => stretches source edits ranges rest (max done pos)
      | some r => .added r.text :: stretches source edits ranges rest r.stop

def Stretch.text : Stretch → List Char
  | .copied _ text | .added text => text

/-- A place in the result, by numbers without a bound as in `Mapping`. -/
structure Place where
  line : Nat := 0
  column : Nat := 0

def Place.next (p : Place) (c : Char) : Place :=
  if c == '\n' then { line := p.line + 1 } else { p with column := p.column + Text.units c }

def Place.after (p : Place) (text : List Char) : Place :=
  text.foldl Place.next p

/-- The mappings of a copied stretch: one for its start, and one for each line that starts inside.
-/
def lineMappings : Place → Nat → List Char → List Mapping
  | _, _, [] => []
  | p, offset, c :: cs =>
    let next := p.next c
    let rest := lineMappings next (offset + c.utf8Size) cs
    if c == '\n' && !cs.isEmpty then ⟨next.line, next.column, offset + 1⟩ :: rest else rest

def mappings : Place → List Stretch → List Mapping
  | _, [] => []
  | p, .added text :: rest => mappings (p.after text) rest
  | p, .copied offset text :: rest =>
    ⟨p.line, p.column, offset⟩ :: lineMappings p offset text ++ mappings (p.after text) rest

end Splice

/-- Applies all edits at once, or tells why that is not possible. -/
def EditSet.apply (s : EditSet) (source : List Char) : Except EditError Spliced :=
  match Splice.fault source s.edits with
  | some e => .error e
  | none =>
    let parts :=
      Splice.stretches source s.edits (Splice.replacements s.edits) (Splice.stops s.edits) 0
    .ok { code := parts.flatMap Splice.Stretch.text, mappings := Splice.mappings {} parts }

end RefSugar
