import RefSugar.Syntax.Problem

/-!
Escapes: what stands behind a backslash in names, strings and templates. Digits may have underscores
between them.
-/
namespace RefSugar.Syntax.Escape

def hexDigit? (c : Char) : Option Nat :=
  if c.isDigit then some (c.toNat - 48)
  else if 'a' ≤ c && c ≤ 'f' then some (c.toNat - 87)
  else if 'A' ≤ c && c ≤ 'F' then some (c.toNat - 55)
  else none

def isHex (c : Char) : Bool :=
  (hexDigit? c).isSome

def isOctal (c : Char) : Bool :=
  '0' ≤ c && c ≤ '7'

structure Digits where
  value : Nat := 0
  count : Nat := 0
  /-- The length of the text, underscores included. -/
  length : Nat := 0

/-- The digits at the start of a text, `count` at most if that is given. -/
def digits (count : Option Nat) (read : Digits) : List Char → Digits
  | [] => read
  | c :: cs =>
    if count == some read.count then read
    else if c == '_' then digits count { read with length := read.length + 1 } cs
    else
      match hexDigit? c with
      | none => read
      | some d => digits count ⟨16 * read.value + d, read.count + 1, read.length + 1⟩ cs

/-- A character given by its number, and the length of the text that gives it. -/
structure Point where
  value : Nat
  length : Nat

/-- Why no character is given, and how far into the text that shows. -/
structure Fault where
  problem : Problem
  offset : Nat

/-- The character that follows `\u`: four digits, or any number of them in braces. -/
def point (cs : List Char) : Except Fault Point :=
  match cs with
  | '\x7b' :: rest =>
    let ds := digits none {} rest
    if ds.count == 0 then .error ⟨.characterEscape "1-6 hex characters", 1⟩
    else if 0x10ffff < ds.value then
      .error ⟨.characterEscape "1-6 hex characters in the range 0 to 10FFFF.", ds.length + 1⟩
    else if (rest.drop ds.length).head? == some '\x7d' then .ok ⟨ds.value, ds.length + 2⟩
    else .error ⟨.unicodeEscape, 1⟩
  | _ =>
    let ds := digits (some 4) {} cs
    if ds.count < 4 then .error ⟨.characterEscape "4 hex characters", ds.length⟩
    else .ok ⟨ds.value, ds.length⟩

def isLead (n : Nat) : Bool :=
  0xd800 ≤ n && n < 0xdc00

def isTrail (n : Nat) : Bool :=
  0xdc00 ≤ n && n < 0xe000

/-- The character that follows `\u`, which may be given by the two halves of a pair. -/
def character (cs : List Char) : Except Fault Point := do
  let first ← point cs
  if isLead first.value && cs.head? != some '\x7b' then
    match cs.drop first.length with
    | '\\' :: 'u' :: rest =>
      let second ← (point rest).mapError fun f => { f with offset := f.offset + first.length + 2 }
      if isTrail second.value then
        return ⟨0x10000 + 1024 * (first.value - 0xd800) + (second.value - 0xdc00),
          first.length + 2 + second.length⟩
    | _ => pure ()
  return first

/-- The escape of a name. Lengths and offsets count from the backslash on. -/
def inName (cs : List Char) : Except Fault Point :=
  match cs with
  | 'u' :: rest =>
    match character rest with
    | .ok p => .ok { p with length := p.length + 2 }
    | .error f => .error { f with offset := f.offset + 2 }
  | _ => .error ⟨.unicodeEscapeExpected, 0⟩

/-- What a number adds to a name. Half a pair is no character, and is spelled out. -/
def nameChars (n : Nat) : List Char :=
  if isLead n || isTrail n then "\\u".toList ++ (Nat.toDigits 16 n).map Char.toUpper
  else [Char.ofNat n]

/-- What is wrong with an escape in a string. The offset is how much of it, behind the backslash,
had been read when that showed. -/
def inString? (cs : List Char) : Option Fault :=
  match cs with
  | [] => some ⟨.stringEscape, 0⟩
  | 'x' :: rest =>
    let ds := digits (some 2) {} rest
    if ds.count < 2 then some ⟨.characterEscape "2 hex characters", ds.length + 1⟩ else none
  | 'u' :: rest =>
    match character rest with
    | .ok _ => none
    | .error f => some { f with offset := f.offset + 1 }
  | _ => none

/-- What an octal number stands for, of up to three digits, and their count. A third digit that
would make the number too large is left. -/
def octal (cs : List Char) : Nat × Nat :=
  let digits := (cs.takeWhile isOctal).take 3
  let value := fun (ds : List Char) => ds.foldl (fun n c => 8 * n + (c.toNat - 48)) 0
  if value digits < 256 then (value digits, digits.length) else (value (digits.take 2), 2)

/-- The character with a number; half a pair is none. -/
def charOf (n : Nat) : Char :=
  if isLead n || isTrail n then '\ufffd' else Char.ofNat n

/-- The characters that an escape in a string stands for, and its length behind the backslash. -/
def decoded (cs : List Char) : List Char × Nat :=
  match cs with
  | [] => ([], 0)
  | 'n' :: _ => (['\n'], 1)
  | 'r' :: _ => (['\r'], 1)
  | 't' :: _ => (['\t'], 1)
  | 'b' :: _ => (['\x08'], 1)
  | 'v' :: _ => (['\x0b'], 1)
  | 'f' :: _ => (['\x0c'], 1)
  | '\r' :: '\n' :: _ => ([], 2)
  | 'x' :: rest =>
    let ds := digits (some 2) {} rest
    ([charOf ds.value], ds.length + 1)
  | 'u' :: rest =>
    match character rest with
    | .ok p => ([charOf p.value], p.length + 1)
    | .error _ => ([], 1)
  | c :: _ =>
    if ['\n', '\r', '\u2028', '\u2029'].contains c then ([], 1)
    else if isOctal c then
      let (value, length) := octal cs
      ([charOf value], length)
    else ([c], 1)

/-- The value of the content of a string, whose first `n` characters belong to an escape. -/
def stringValue : Nat → List Char → List Char
  | _, [] => []
  | n + 1, _ :: cs => stringValue n cs
  | 0, '\\' :: cs =>
    let (chars, length) := decoded cs
    chars ++ stringValue length cs
  | 0, c :: cs => c :: stringValue 0 cs

/-- What is wrong with an escape in a template, where an octal number is, too. -/
def inTemplate? (cs : List Char) : Option Fault :=
  match cs with
  | '0' :: rest => if rest.head?.any isOctal then some ⟨.octalEscape, 1⟩ else none
  | c :: _ => if isOctal c then some ⟨.octalEscape, 1⟩ else inString? cs
  | [] => none

/-- The last fault in a piece of a template that starts at an offset, and whose first `n` characters
belong to an escape; `found` is the fault before. -/
def templateFault? (found : Option Fault) : Nat → Nat → List Char → Option Fault
  | _, _, [] => found
  | n + 1, pos, c :: cs => templateFault? found n (pos + c.utf8Size) cs
  | 0, pos, '\\' :: cs =>
    match inTemplate? cs with
    | some f => templateFault? (some ⟨f.problem, pos⟩) f.offset (pos + 1) cs
    | none => templateFault? found 1 (pos + 1) cs
  | 0, _, '$' :: '\x7b' :: _ => found
  | 0, pos, c :: cs => if c == '\x60' then found else templateFault? found 0 (pos + c.utf8Size) cs

end RefSugar.Syntax.Escape
