/-!
Decimal text of binary floating point numbers: the fewest digits that read back as the same number,
and of those the nearest to it.
-/
namespace RefSugar.Json

/-- A positive number `digits * 10 ^ exponent`. -/
structure Decimal where
  digits : Nat
  exponent : Int
  deriving DecidableEq, Repr

namespace Decimal

/-- All that rounds to `mantissa * 2 ^ exponent`, in quarters of the last place. The ends belong to
it if the mantissa is even. -/
structure Rounding where
  mantissa : Nat
  low : Nat
  high : Nat
  exponent : Int

def rounding (bits : Nat) : Rounding :=
  let leading := Nat.pow 2 52
  let fraction := bits % leading
  let scale := bits / leading % 2048
  let mantissa := if scale = 0 then fraction else fraction + leading
  { mantissa
    low := 4 * mantissa - (if fraction = 0 ∧ 1 < scale then 1 else 2)
    high := 4 * mantissa + 2
    exponent := (if scale = 0 then -1074 else Int.ofNat scale - 1075) - 2 }

/-- The multiple of `10 ^ exponent` that rounds to the number, the nearer of two, or the even one.
-/
def atExponent? (r : Rounding) (exponent : Int) : Option Decimal :=
  let up := Nat.pow 2 r.exponent.toNat * Nat.pow 10 (-exponent).toNat
  let down := Nat.pow 2 (-r.exponent).toNat * Nat.pow 10 exponent.toNat
  let isClosed := r.mantissa % 2 = 0
  let fits := fun n : Nat =>
    if isClosed then r.low * up ≤ n * down ∧ n * down ≤ r.high * up
    else r.low * up < n * down ∧ n * down < r.high * up
  let below := 4 * r.mantissa * up / down
  let rest := 4 * r.mantissa * up % down
  let upper := down < 2 * rest ∨ (down = 2 * rest ∧ below % 2 = 1)
  let (first, second) := if upper then (below + 1, below) else (below, below + 1)
  if 0 < first ∧ fits first then some ⟨first, exponent⟩
  else if 0 < second ∧ fits second then some ⟨second, exponent⟩
  else none

/-- The shortest decimal of a positive number given by its bits. -/
def shortest? (bits : Nat) : Option Decimal :=
  if bits = 0 then none
  else
    (List.range 660).findSome? fun i : Nat => atExponent? (rounding bits) (320 - Int.ofNat i)

def zeros (n : Nat) : String :=
  String.ofList (List.replicate n '0')

/-- Positional between `1e-5` and `1e16`, with an exponent elsewhere. -/
def render (d : Decimal) : String :=
  let digits := toString d.digits
  let point := Int.ofNat digits.length + d.exponent
  let cut := fun (n : Nat) =>
    String.ofList (digits.toList.take n) ++ "." ++ String.ofList (digits.toList.drop n)
  if 0 ≤ d.exponent ∧ point ≤ 16 then digits ++ zeros d.exponent.toNat ++ ".0"
  else if 0 < point ∧ point ≤ 16 then cut point.toNat
  else if -5 < point ∧ point ≤ 0 then "0." ++ zeros (-point).toNat ++ digits
  else
    (if digits.length = 1 then digits else cut 1) ++ "e" ++
      (if 0 < point then "+" else "") ++ toString (point - 1)

end Decimal

def renderFloat (x : Float) : String :=
  let bits := x.toBits.toNat
  let half := Nat.pow 2 63
  let sign := if half ≤ bits then "-" else ""
  sign ++ ((Decimal.shortest? (bits % half)).map Decimal.render).getD "0.0"

end RefSugar.Json
