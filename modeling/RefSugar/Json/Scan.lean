import RefSugar.Json.Decimal
import RefSugar.Text.Bytes

/-!
Scanning JSON text. Faults carry the byte offset at which they are reported: behind the last byte
read, or behind the next one if that one is at fault.
-/
namespace RefSugar.Json

inductive Problem where
  | eofInList
  | eofInObject
  | eofInString
  | eofInValue
  | expectedColon
  | expectedListEnd
  | expectedObjectEnd
  | expectedWord
  | expectedValue
  | invalidEscape
  | invalidNumber
  | numberOutOfRange
  | controlCharacter
  | keyNotString
  | loneSurrogate
  | unfinishedSurrogate
  | trailingComma
  | trailingCharacters
  | invalidType (found expected : String)
  | unknownVariant (name expected : String)
  | duplicateField (name : String)
  deriving DecidableEq, Repr

def Problem.message : Problem → String
  | eofInList => "EOF while parsing a list"
  | eofInObject => "EOF while parsing an object"
  | eofInString => "EOF while parsing a string"
  | eofInValue => "EOF while parsing a value"
  | expectedColon => "expected \x60:\x60"
  | expectedListEnd => "expected \x60,\x60 or \x60]\x60"
  | expectedObjectEnd => "expected \x60,\x60 or \x60\x7d\x60"
  | expectedWord => "expected ident"
  | expectedValue => "expected value"
  | invalidEscape => "invalid escape"
  | invalidNumber => "invalid number"
  | numberOutOfRange => "number out of range"
  | controlCharacter =>
    "control character (\\u0000-\\u001F) found while parsing a string"
  | keyNotString => "key must be a string"
  | loneSurrogate => "lone leading surrogate in hex escape"
  | unfinishedSurrogate => "unexpected end of hex escape"
  | trailingComma => "trailing comma"
  | trailingCharacters => "trailing characters"
  | invalidType found expected => "invalid type: " ++ found ++ ", expected " ++ expected
  | unknownVariant name expected =>
    "unknown variant \x60" ++ name ++ "\x60, expected " ++ expected
  | duplicateField name => "duplicate field \x60" ++ name ++ "\x60"

structure Fault where
  problem : Problem
  offset : Nat
  deriving DecidableEq, Repr

/-- The line, from one, and the column in bytes of an offset of a text that starts at offset `pos`,
in a line that started at offset `lineStart`. -/
def placeFrom (offset : Nat) : Nat → Nat → Nat → List Char → Nat × Nat
  | line, lineStart, _, [] => (line, offset - lineStart)
  | line, lineStart, pos, c :: cs =>
    if offset ≤ pos then (line, offset - lineStart)
    else if c == '\n' then placeFrom offset (line + 1) (pos + 1) (pos + 1) cs
    else placeFrom offset line lineStart (pos + c.utf8Size) cs

def Fault.describe (text : List Char) (f : Fault) : String :=
  let (line, column) := placeFrom f.offset 1 0 0 text
  f.problem.message ++ " at line " ++ toString line ++ " column " ++ toString column

structure Cursor where
  offset : Nat := 0
  rest : List Char

abbrev Scan := StateT Cursor (Except Fault)

def failHere {α : Type} (p : Problem) : Scan α := do
  throw { problem := p, offset := (← get).offset }

def failNext {α : Type} (p : Problem) : Scan α := do
  let c ← get
  throw { problem := p, offset := if c.rest.isEmpty then c.offset else c.offset + 1 }

def peek? : Scan (Option Char) := do
  return (← get).rest.head?

def skip : Scan Unit :=
  modify fun c =>
    match c.rest with
    | [] => c
    | x :: xs => { offset := c.offset + x.utf8Size, rest := xs }

def isBlank (c : Char) : Bool :=
  c == ' ' || c == '\n' || c == '\t' || c == '\r'

def skipWhile (p : Char → Bool) : Scan Unit :=
  modify fun c =>
    { offset := c.offset + Text.width (c.rest.takeWhile p), rest := c.rest.dropWhile p }

def peekPastBlanks? : Scan (Option Char) := do
  skipWhile isBlank
  peek?

def restOfWord : List Char → Scan Unit
  | [] => return ()
  | c :: cs => do
    match ← peek? with
    | none => failHere .eofInValue
    | some d =>
      if d == c then
        skip
        restOfWord cs
      else failNext .expectedWord

def hexValue? (c : Char) : Option Nat :=
  if c.isDigit then some (c.toNat - 48)
  else if 'a' ≤ c ∧ c ≤ 'f' then some (c.toNat - 87)
  else if 'A' ≤ c ∧ c ≤ 'F' then some (c.toNat - 55)
  else none

def hexEscape : Scan Nat := do
  let c ← get
  if Text.width c.rest < 4 then
    set { offset := c.offset + Text.width c.rest, rest := [] : Cursor }
    failHere .eofInString
  else
    match c.rest.take 4 |>.mapM hexValue? with
    | some digits =>
      set { offset := c.offset + 4, rest := c.rest.drop 4 : Cursor }
      return digits.foldl (fun n d => 16 * n + d) 0
    | none => throw { problem := .invalidEscape, offset := c.offset + 4 }

def isTrailSurrogate (n : Nat) : Bool :=
  0xdc00 ≤ n && n ≤ 0xdfff

def isLeadSurrogate (n : Nat) : Bool :=
  0xd800 ≤ n && n ≤ 0xdbff

/-- Reads a character that the second half of a surrogate pair needs. -/
def expectInPair (c : Char) : Scan Unit := do
  match ← peek? with
  | none => failHere .eofInString
  | some d => if d == c then skip else failNext .unfinishedSurrogate

/-- A Unicode escape behind its `u`. Surrogates have to come in pairs. -/
def unicodeEscape : Scan Char := do
  let n ← hexEscape
  if isTrailSurrogate n then failHere .loneSurrogate
  else if !isLeadSurrogate n then return Char.ofNat n
  else
    expectInPair '\\'
    expectInPair 'u'
    let m ← hexEscape
    if isTrailSurrogate m then
      return Char.ofNat (0x10000 + 1024 * (n - 0xd800) + (m - 0xdc00))
    else failHere .loneSurrogate

def simpleEscape? : Char → Option Char
  | '"' => some '"'
  | '\\' => some '\\'
  | '/' => some '/'
  | 'b' => some '\x08'
  | 'f' => some '\x0c'
  | 'n' => some '\n'
  | 'r' => some '\r'
  | 't' => some '\t'
  | _ => none

def escape : Scan Char := do
  match ← peek? with
  | none => failHere .eofInString
  | some 'u' =>
    skip
    unicodeEscape
  | some c =>
    match simpleEscape? c with
    | some d =>
      skip
      return d
    | none => failNext .invalidEscape

def stringRest : Nat → List Char → Scan String
  | 0, _ => failHere .eofInString
  | fuel + 1, done => do
    match ← peek? with
    | none => failHere .eofInString
    | some '"' =>
      skip
      return String.ofList done.reverse
    | some '\\' =>
      skip
      stringRest fuel ((← escape) :: done)
    | some c =>
      skip
      if c.toNat < 32 then failHere .controlCharacter else stringRest fuel (c :: done)

def string : Scan String := do
  skip
  stringRest ((← get).rest.length + 1) []

/-- The rest of a string that nobody looks at. Its escapes need not form characters. -/
def ignoredStringRest : Nat → Scan Unit
  | 0 => failHere .eofInString
  | fuel + 1 => do
    match ← peek? with
    | none => failHere .eofInString
    | some '"' => skip
    | some '\\' =>
      skip
      match ← peek? with
      | none => failHere .eofInString
      | some 'u' =>
        skip
        discard hexEscape
      | some c => if (simpleEscape? c).isSome then skip else failNext .invalidEscape
      ignoredStringRest fuel
    | some c =>
      if c.toNat < 32 then failHere .controlCharacter
      else
        skip
        ignoredStringRest fuel

def ignoredString : Scan Unit := do
  skip
  ignoredStringRest ((← get).rest.length + 1)

end RefSugar.Json
