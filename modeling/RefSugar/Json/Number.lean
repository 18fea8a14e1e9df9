import RefSugar.Json.Scan

/-!
Numbers in JSON text. Integers that fit into 64 bits are kept; all others become floating point
numbers.
-/
namespace RefSugar.Json

inductive Number where
  | integer (i : Int)
  | float (x : Float)

def Number.describe : Number → String
  | integer i => "integer \x60" ++ toString i ++ "\x60"
  | float x => "floating point \x60" ++ renderFloat x ++ "\x60"

def maxWord : Nat := Nat.pow 2 64 - 1

def digitValue? (c : Option Char) : Option Nat :=
  c.bind fun c => if c.isDigit then some (c.toNat - 48) else none

/-- Digits behind a significand that has room for them, and how many of them there were. Those that
would not fit into 64 bits any more are left. -/
def significandDigits : Nat → Nat → Nat → Scan (Nat × Nat)
  | 0, n, count => return (n, count)
  | fuel + 1, n, count => do
    match digitValue? (← peek?) with
    | none => return (n, count)
    | some d =>
      if maxWord < 10 * n + d then return (n, count)
      else
        skip
        significandDigits fuel (10 * n + d) (count + 1)

def countDigits : Scan Nat := do
  let start := (← get).offset
  skipWhile Char.isDigit
  return (← get).offset - start

/-- Scales by powers of ten, at most `308` at a time. -/
def scaled : Nat → Float → Int → Option Float
  | 0, x, _ => some x
  | fuel + 1, x, exponent =>
    if exponent.natAbs ≤ 308 then
      let power := Float.ofScientific 1 false exponent.natAbs
      if 0 ≤ exponent then
        let y := x * power
        if y.isInf then none else some y
      else some (x / power)
    else if x == 0.0 then some x
    else if 0 ≤ exponent then none
    else scaled fuel (x / 1e308) (exponent + 308)

def float (isNegative : Bool) (significand : Nat) (exponent : Int) : Scan Number := do
  match scaled (exponent.natAbs + 1) (Float.ofNat significand) exponent with
  | none => failHere .numberOutOfRange
  | some x => return .float (if isNegative then -x else x)

def maxExponent : Nat := Nat.pow 2 31 - 1

/-- The digits of an exponent; nothing if it grows too large. -/
def exponentDigits : Nat → Nat → Scan (Option Nat)
  | 0, n => return some n
  | fuel + 1, n => do
    match digitValue? (← peek?) with
    | none => return some n
    | some d =>
      skip
      if maxExponent < 10 * n + d then return none else exponentDigits fuel (10 * n + d)

def exponentPart (isNegative : Bool) (significand : Nat) (before : Int) : Scan Number := do
  skip
  let sign ← peek?
  if sign == some '+' || sign == some '-' then skip
  match ← peek? with
  | none => failHere .eofInValue
  | some c =>
    match digitValue? (some c) with
    | none => failNext .invalidNumber
    | some d =>
      skip
      match ← exponentDigits ((← get).rest.length + 1) d with
      | some n => float isNegative significand (if sign == some '-' then before - n else before + n)
      | none =>
        if significand != 0 && sign != some '-' then failHere .numberOutOfRange
        skipWhile Char.isDigit
        return .float (if isNegative then -0.0 else 0.0)

def isExponentMark (c : Option Char) : Bool :=
  c == some 'e' || c == some 'E'

def fractionEnd (isNegative : Bool) (significand : Nat) (exponent : Int) : Scan Number := do
  if isExponentMark (← peek?) then exponentPart isNegative significand exponent
  else float isNegative significand exponent

def fractionPart (isNegative : Bool) (significand : Nat) (before : Int) : Scan Number := do
  skip
  let (n, count) ← significandDigits ((← get).rest.length + 1) significand 0
  let left ← countDigits
  if count == 0 && left == 0 then
    if (← peek?).isNone then failNext .eofInValue else failNext .invalidNumber
  else fractionEnd isNegative n (before - count)

def number (isNegative : Bool) : Scan Number := do
  match ← peek? with
  | none => failHere .eofInValue
  | some c =>
    match digitValue? (some c) with
    | none => failNext .invalidNumber
    | some 0 =>
      skip
      if (digitValue? (← peek?)).isSome then failNext .invalidNumber else finish 0 0
    | some d =>
      skip
      let (n, _) ← significandDigits ((← get).rest.length + 1) d 0
      finish n (← countDigits)
where
  finish (n left : Nat) : Scan Number := do
    let c ← peek?
    if c == some '.' then fractionPart isNegative n left
    else if isExponentMark c then exponentPart isNegative n left
    else if 0 < left then float isNegative n left
    else if !isNegative then return .integer n
    else if n == 0 || Nat.pow 2 63 < n then return .float (-(Float.ofNat n))
    else return .integer (-(n : Int))

/-- A number that nobody looks at, whose sign has been read. -/
def ignoredNumber : Scan Unit := do
  match digitValue? (← peek?) with
  | none => failNext .invalidNumber
  | some 0 =>
    skip
    if (digitValue? (← peek?)).isSome then failNext .invalidNumber
  | some _ => skipWhile Char.isDigit
  if (← peek?) == some '.' then
    skip
    if (← countDigits) == 0 then failNext .invalidNumber
  if isExponentMark (← peek?) then
    skip
    let sign ← peek?
    if sign == some '+' || sign == some '-' then skip
    if (digitValue? (← peek?)).isNone then failNext .invalidNumber
    skipWhile Char.isDigit

end RefSugar.Json
