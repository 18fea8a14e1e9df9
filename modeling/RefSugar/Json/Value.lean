import RefSugar.Json.Number
import RefSugar.Text.Hidden

/-!
Reading values of known kinds from JSON text, and skipping values of any kind.
-/
namespace RefSugar.Json

def showText (s : String) : String :=
  "\"" ++ String.ofList (s.toList.flatMap fun c => if c == '"' then ['\\', c] else Text.shown c) ++
    "\""

/-- The next value, which is not of the expected kind. Its kind is told if it can be read. -/
def failType {α : Type} (expected : String) : Scan α := do
  match ← peek? with
  | some 'n' =>
    skip
    restOfWord "ull".toList
    failHere (.invalidType "null" expected)
  | some 't' =>
    skip
    restOfWord "rue".toList
    failHere (.invalidType "boolean \x60true\x60" expected)
  | some 'f' =>
    skip
    restOfWord "alse".toList
    failHere (.invalidType "boolean \x60false\x60" expected)
  | some '-' =>
    skip
    let n ← number true
    failHere (.invalidType n.describe expected)
  | some '"' =>
    let s ← string
    failHere (.invalidType ("string " ++ showText s) expected)
  | some '[' => failHere (.invalidType "sequence" expected)
  | some '\x7b' => failHere (.invalidType "map" expected)
  | some c =>
    if c.isDigit then
      let n ← number false
      failHere (.invalidType n.describe expected)
    else failNext .expectedValue
  | none => failNext .expectedValue

def valueStart : Scan Char := do
  match ← peekPastBlanks? with
  | some c => return c
  | none => failNext .eofInValue

def readText (expected : String) : Scan String := do
  if (← valueStart) == '"' then string else failType expected

def readBool : Scan Bool := do
  match ← valueStart with
  | 't' =>
    skip
    restOfWord "rue".toList
    return true
  | 'f' =>
    skip
    restOfWord "alse".toList
    return false
  | _ => failType "a boolean"

def readNull : Scan Unit := do
  if (← valueStart) == 'n' then
    skip
    restOfWord "ull".toList
  else failType "unit"

def hasItem (isFirst : Bool) : Scan Bool := do
  match ← peekPastBlanks? with
  | none => failNext .eofInList
  | some c =>
    if c == ']' then return false
    else if isFirst then return true
    else if c == ',' then
      skip
      match ← peekPastBlanks? with
      | some ']' => failNext .trailingComma
      | some _ => return true
      | none => failNext .eofInValue
    else failNext .expectedListEnd

def listEnd : Scan Unit := do
  match ← peekPastBlanks? with
  | some ']' => skip
  | some ',' =>
    skip
    if (← peekPastBlanks?) == some ']' then failNext .trailingComma
    else failNext .trailingCharacters
  | some _ => failNext .trailingCharacters
  | none => failNext .eofInList

def items {α : Type} (item : Scan α) : Nat → Bool → Scan (List α)
  | 0, _ => return []
  | fuel + 1, isFirst => do
    if ← hasItem isFirst then
      let a ← item
      return a :: (← items item fuel false)
    else return []

def readTexts : Scan (List String) := do
  if (← valueStart) == '[' then
    skip
    let texts ← items (readText "a string") ((← get).rest.length + 1) true
    listEnd
    return texts
  else failType "a sequence"

def hasKey (isFirst : Bool) : Scan Bool := do
  match ← peekPastBlanks? with
  | none => failNext .eofInObject
  | some '\x7d' => return false
  | some c =>
    if isFirst then if c == '"' then return true else failNext .keyNotString
    else if c == ',' then
      skip
      match ← peekPastBlanks? with
      | some '"' => return true
      | some '\x7d' => failNext .trailingComma
      | some _ => failNext .keyNotString
      | none => failNext .eofInValue
    else failNext .expectedObjectEnd

def colon : Scan Unit := do
  match ← peekPastBlanks? with
  | some ':' => skip
  | some _ => failNext .expectedColon
  | none => failNext .eofInObject

inductive Bracket where
  | list
  | object
  deriving DecidableEq

def Bracket.ending : Bracket → Char
  | list => ']'
  | object => '\x7d'

def ignoredKey : Scan Unit := do
  match ← peekPastBlanks? with
  | some '"' => ignoredString
  | some _ => failNext .keyNotString
  | none => failNext .eofInObject
  colon

/-- Closes brackets that end here, from the innermost; `hasItems` tells that the innermost holds
something. Tells which are still open, the innermost of which goes on. -/
def closeBrackets : Nat → Bool → List Bracket → Scan (List Bracket)
  | _, _, [] => return []
  | 0, _, opened => return opened
  | fuel + 1, hasItems, b :: opened => do
    match ← peekPastBlanks? with
    | none => failNext (if b = .list then .eofInList else .eofInObject)
    | some c =>
      if c == b.ending then
        skip
        closeBrackets fuel true opened
      else if !hasItems then return b :: opened
      else if c == ',' then
        skip
        return b :: opened
      else failNext (if b = .list then .expectedListEnd else .expectedObjectEnd)

/-- A value that nobody looks at, inside the given brackets, and all up to their end. -/
def ignoredFrom : Nat → List Bracket → Scan Unit
  | 0, _ => return ()
  | fuel + 1, opened => do
    let (hasItems, opened) ← match ← valueStart with
      | 'n' => do
        skip
        restOfWord "ull".toList
        pure (true, opened)
      | 't' => do
        skip
        restOfWord "rue".toList
        pure (true, opened)
      | 'f' => do
        skip
        restOfWord "alse".toList
        pure (true, opened)
      | '-' => do
        skip
        ignoredNumber
        pure (true, opened)
      | '"' => do
        ignoredString
        pure (true, opened)
      | '[' => do
        skip
        pure (false, Bracket.list :: opened)
      | '\x7b' => do
        skip
        pure (false, Bracket.object :: opened)
      | c => do
        if c.isDigit then ignoredNumber else failNext .expectedValue
        pure (true, opened)
    match ← closeBrackets (opened.length + 1) hasItems opened with
    | [] => return ()
    | b :: opened =>
      if b = .object then ignoredKey
      ignoredFrom fuel (b :: opened)

def ignoredValue : Scan Unit := do
  ignoredFrom ((← get).rest.length + 1) []

def textEnd : Scan Unit := do
  if (← peekPastBlanks?).isSome then failNext .trailingCharacters

def scanAll {α : Type} (scanner : Scan α) (text : List Char) : Except Fault α := do
  let (a, _) ← (do
    let a ← scanner
    textEnd
    return a : Scan α).run { rest := text }
  return a

end RefSugar.Json
