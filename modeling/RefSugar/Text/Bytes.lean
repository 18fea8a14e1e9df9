/-!
Byte offsets into a text. A text is a list of characters; an offset counts the bytes of their
UTF-8 form, and is a boundary if it falls between two characters.
-/
namespace RefSugar.Text

def width : List Char → Nat
  | [] => 0
  | c :: cs => c.utf8Size + width cs

@[simp] theorem width_nil : width [] = 0 := rfl

@[simp] theorem width_cons (c : Char) (cs : List Char) :
    width (c :: cs) = c.utf8Size + width cs := rfl

@[simp] theorem width_append (a b : List Char) : width (a ++ b) = width a + width b := by
  induction a with
  | nil => simp
  | cons c cs ih => simp [ih, Nat.add_assoc]

/-- The part of a text in front of an offset and the part behind it; nothing if the offset is no
boundary. -/
def splitAt? : Nat → List Char → Option (List Char × List Char)
  | 0, cs => some ([], cs)
  | _ + 1, [] => none
  | n + 1, c :: cs =>
    if c.utf8Size ≤ n + 1 then
      (splitAt? (n + 1 - c.utf8Size) cs).map fun (a, b) => (c :: a, b)
    else none

/-- Whether an offset falls between two characters, or at either end. -/
def isBoundary (n : Nat) (cs : List Char) : Bool :=
  (splitAt? n cs).isSome

/-- The part of a text between two offsets; nothing unless both are boundaries in this order. -/
def slice? (lo hi : Nat) (cs : List Char) : Option (List Char) :=
  if lo ≤ hi then
    (splitAt? lo cs).bind fun (_, rest) => (splitAt? (hi - lo) rest).map (·.1)
  else none

def units (c : Char) : Nat :=
  if c.toNat < 0x10000 then 1 else 2

/-- A text without a leading byte order mark. -/
def withoutMark (text : List Char) : List Char :=
  match text with
  | c :: rest => if c.toNat == 0xfeff then rest else text
  | [] => []

end RefSugar.Text
