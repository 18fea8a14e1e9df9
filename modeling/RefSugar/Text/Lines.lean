import RefSugar.Text.Bytes

/-!
Lines and columns. A line ends at a line feed, at a carriage return, or at both in this order. A
text that ends with a line end has no further, empty line.
-/
namespace RefSugar.Text

/-- The offsets right behind each line end, for a text that starts at offset `p`. -/
def lineBreaks : Nat → List Char → List Nat
  | _, [] => []
  | p, '\r' :: '\n' :: cs => (p + 2) :: lineBreaks (p + 2) cs
  | p, c :: cs =>
    if c == '\n' || c == '\r' then (p + 1) :: lineBreaks (p + 1) cs
    else lineBreaks (p + c.utf8Size) cs

/-- The offset at which each line starts. An empty text has no line. -/
def lineStarts (text : List Char) : List Nat :=
  (0 :: lineBreaks 0 text).filter (· < width text)

/-- The number of lines that start at or before a place, and the number of UTF-16 units between the
start of its line and the place. -/
structure Place where
  line : Nat
  column : Nat
  deriving DecidableEq, Repr

def startingWithin : Nat → List Char → List Char
  | 0, _ => []
  | _, [] => []
  | n + 1, c :: cs => c :: startingWithin (n + 1 - c.utf8Size) cs

def surplus : List Char → Nat
  | [] => 0
  | c :: cs => c.utf8Size - units c + surplus cs

/-- The number of units in the first `n` bytes: the bytes less what UTF-8 takes beyond UTF-16 for
the characters that start there. -/
def unitsWithin (n : Nat) (cs : List Char) : Nat :=
  n - surplus (startingWithin n cs)

def placeAt (text : List Char) (offset : Nat) : Place :=
  let before := (lineStarts text).filter (· ≤ offset)
  let start := before.getLastD 0
  let rest := ((splitAt? start text).map (·.2)).getD []
  { line := before.length, column := unitsWithin (offset - start) rest }

end RefSugar.Text
