import RefSugar.Edit.Splice
import RefSugar.Json.Print
import RefSugar.Text.Lines

/-!
Source maps of version 3. A segment is written as differences to the one before, each as a number
in base 64 with the sign in the lowest bit.
-/
namespace RefSugar.SourceMap

def base64 : List Char :=
  "ABCDEFGHIJKLMNOPQRSTUVWXYZabcdefghijklmnopqrstuvwxyz0123456789+/".toList

def digit (n : Nat) : Char :=
  base64.getD n 'A'

/-- A number by groups of five bits, the lowest first; all but the last are marked. -/
def encodeNat (n : Nat) : List Char :=
  if n < 32 then [digit n] else digit (32 + n % 32) :: encodeNat (n / 32)
termination_by n
decreasing_by omega

def encodeInt (i : Int) : List Char :=
  encodeNat (if i < 0 then 2 * i.natAbs + 1 else 2 * i.natAbs)

/-- A place of the result and the place of the source it came from. -/
structure Segment where
  line : Nat
  column : Nat
  sourceLine : Nat
  sourceColumn : Nat
  deriving DecidableEq, Repr

/-- The segment of a mapping. A text without lines has none. -/
def segment? (text : List Char) (m : Mapping) : Option Segment :=
  let place := Text.placeAt text m.offset
  if place.line == 0 then none
  else
    some
      { line := m.line, column := m.column, sourceLine := place.line - 1
        sourceColumn := place.column }

def inOrder (a b : Segment) : Bool :=
  a.line < b.line || (a.line == b.line && a.column ≤ b.column)

def withoutRepeats : List Segment → List Segment
  | a :: b :: rest => if a == b then withoutRepeats (b :: rest) else a :: withoutRepeats (b :: rest)
  | segments => segments

def difference (a b : Nat) : List Char :=
  encodeInt ((a : Int) - (b : Int))

def encodeSegment (last s : Segment) : List Char :=
  let column := if s.line == last.line then last.column else 0
  difference s.column column ++ 'A' :: difference s.sourceLine last.sourceLine ++
    difference s.sourceColumn last.sourceColumn

/-- Segments in order. Lines are divided by semicolons, segments of a line by commas; `isFirst`
tells that nothing has been written yet. -/
def encodeSegments (isFirst : Bool) (last : Segment) : List Segment → List Char
  | [] => []
  | s :: rest =>
    let mark :=
      if s.line == last.line then if isFirst then [] else [',']
      else List.replicate (s.line - last.line) ';'
    mark ++ encodeSegment last s ++ encodeSegments false s rest

/-- The text of a source map. The source is named as soon as something maps to it. -/
def render (filename : String) (source : List Char) (mappings : List Mapping) : String :=
  let text := Text.withoutMark source
  let segments := withoutRepeats ((mappings.filterMap (segment? text)).mergeSort inOrder)
  Json.compact (.obj [
    ("version", .nat 3),
    ("sources", .arr (if mappings.isEmpty then [] else [.str filename])),
    ("names", .arr []),
    ("mappings", .str (String.ofList (encodeSegments true ⟨0, 0, 0, 0⟩ segments)))])

end RefSugar.SourceMap
