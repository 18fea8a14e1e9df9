import Mathlib.Algebra.Group.Nat.Defs
import Mathlib.Data.List.TakeWhile
import RefSugar.Syntax.Escape

/-!
The property key that a literal denotes. A string denotes its value. A number denotes the decimal
digits of its value, in whatever notation it is written; how a number that is no exact integer is
written out is left to a parameter `other`.
-/
namespace RefSugar.PropertyKey

open Syntax

/-- The content of a string from behind its opening quote on, which its last character closes. -/
def content? (quote : Char) : List Char → Option (List Char)
  | [] => none
  | '\\' :: '\r' :: '\n' :: cs => (content? quote cs).map (['\\', '\r', '\n'] ++ ·)
  | '\\' :: c :: cs =>
    if (Escape.inString? (c :: cs)).isSome then none
    else (content? quote cs).map (['\\', c] ++ ·)
  | c :: cs =>
    if c = quote then if cs = [] then some [] else none
    else if c = '\n' ∨ c = '\r' then none
    else (content? quote cs).map (c :: ·)

def string? : List Char → Option String
  | [] => none
  | quote :: cs =>
    if quote = '\'' ∨ quote = '"' then
      (content? quote cs).map fun content => String.ofList (Escape.stringValue 0 content)
    else none

def digitsValue (base : Nat) (cs : List Char) : Nat :=
  (cs.filter (· != '_')).foldl (fun n c => base * n + (Escape.hexDigit? c).getD 0) 0

/-- A number times a power of ten, if that is an integer. -/
def scaled? (n up down : Nat) : Option Nat :=
  if n * 10 ^ up % 10 ^ down = 0 then some (n * 10 ^ up / 10 ^ down) else none

def isDecimal (c : Char) : Bool :=
  c.isDigit || c == '_'

/-- The integer that a decimal number with a fraction or an exponent stands for. -/
def decimal? (cs : List Char) : Option Nat :=
  let whole := cs.takeWhile isDecimal
  let behind := cs.dropWhile isDecimal
  let fraction := if behind.head? = some '.' then behind.tail.takeWhile isDecimal else []
  let behind := if behind.head? = some '.' then behind.tail.dropWhile isDecimal else behind
  let n := digitsValue 10 (whole ++ fraction)
  let places := (fraction.filter (· != '_')).length
  match behind with
  | _ :: '-' :: exponent => scaled? n 0 (places + digitsValue 10 exponent)
  | _ :: '+' :: exponent => scaled? n (digitsValue 10 exponent) places
  | _ :: exponent => scaled? n (digitsValue 10 exponent) places
  | [] => scaled? n 0 places

/-- The integer that a number stands for: hexadecimal, octal in either notation, binary or decimal.
-/
def integer? (cs : List Char) : Option Nat :=
  match cs with
  | '0' :: mark :: digits =>
    if mark = 'x' ∨ mark = 'X' then some (digitsValue 16 digits)
    else if mark = 'o' ∨ mark = 'O' then some (digitsValue 8 digits)
    else if mark = 'b' ∨ mark = 'B' then some (digitsValue 2 digits)
    else if (mark :: digits).all Escape.isOctal then some (digitsValue 8 (mark :: digits))
    else decimal? cs
  | _ => decimal? cs

/-- The key that a number denotes. From 2 ^ 53 on integers are no longer exact. -/
def number (other : String → String) (text : String) : String :=
  match integer? text.toList with
  | some n => if n < 2 ^ 53 then toString n else other text
  | none => other text

def isNumeral (c : Char) : Bool :=
  c.isAlphanum || ['.', '_', '+', '-'].contains c

def isNumeric (cs : List Char) : Bool :=
  cs.head?.any (fun c => c.isDigit || c == '.') && cs.all isNumeral

/-- The key that a literal denotes where a value is asked for a property. -/
def ofLiteral? (other : String → String) (text : String) : Option String :=
  if isNumeric text.toList then some (number other text) else string? text.toList

example : ofLiteral? id "0x10" = some "16" := by decide
example : ofLiteral? id "1.5e2" = some "150" := by decide
example : ofLiteral? id "'a-\\x62'" = some "a-b" := by decide

def isPlain (c : Char) : Bool :=
  !(['\'', '\\', '\n', '\r'].contains c)

/-- Plain text between quotes stands for itself. -/
theorem content?_plain (cs : List Char) (h : cs.all isPlain = true) :
    content? '\'' (cs ++ ['\'']) = some cs := by
  induction cs with
  | nil => simp [content?]
  | cons c cs ih =>
    obtain ⟨hc, hcs⟩ := by simpa only [List.all_cons, Bool.and_eq_true] using h
    have hne : c ≠ '\'' ∧ c ≠ '\\' ∧ c ≠ '\n' ∧ c ≠ '\r' := by
      simpa [isPlain] using hc
    rw [List.cons_append, content?]
    · simp [hne, ih hcs]
    · intro cs' he
      exact absurd he hne.2.1
    · intro c' cs' he
      exact absurd he hne.2.1

theorem stringValue_plain (cs : List Char) (h : cs.all isPlain = true) :
    Escape.stringValue 0 cs = cs := by
  induction cs with
  | nil => simp [Escape.stringValue]
  | cons c cs ih =>
    obtain ⟨hc, hcs⟩ := by simpa only [List.all_cons, Bool.and_eq_true] using h
    have hne : c ≠ '\\' := by
      rintro rfl
      exact absurd hc (by decide)
    rw [Escape.stringValue, ih hcs]
    exact hne

/-- Plain text in single quotes denotes itself. -/
theorem ofLiteral?_quoted (other : String → String) (text : String)
    (h : text.toList.all isPlain = true) : ofLiteral? other ("'" ++ text ++ "'") = some text := by
  have htext : ("'" ++ text ++ "'").toList = '\'' :: (text.toList ++ ['\'']) := by simp
  have hnumeric : isNumeric ('\'' :: (text.toList ++ ['\''])) = false := by
    simp [isNumeric]
  rw [ofLiteral?, htext, hnumeric]
  simp [string?, content?_plain _ h, stringValue_plain _ h]

theorem isPlain_of_isNumeral {c : Char} (h : isNumeral c = true) : isPlain c = true := by
  by_contra hc
  have hmem : c ∈ ['\'', '\\', '\n', '\r'] := by
    rw [isPlain, Bool.not_eq_true, Bool.not_eq_false'] at hc
    exact List.contains_iff_mem.1 hc
  simp only [List.mem_cons, List.not_mem_nil, or_false] at hmem
  rcases hmem with rfl | rfl | rfl | rfl <;> exact absurd h (by decide)

theorem isPlain_of_isNumeric {cs : List Char} (h : isNumeric cs = true) :
    cs.all isPlain = true := by
  rw [isNumeric, Bool.and_eq_true] at h
  rw [List.all_eq_true]
  intro c hc
  exact isPlain_of_isNumeral (List.all_eq_true.1 h.2 c hc)

/-- A string is no number. -/
theorem ofLiteral?_of_string? {other : String → String} {text key : String}
    (h : string? text.toList = some key) : ofLiteral? other text = some key := by
  have hnumeric : isNumeric text.toList = false := by
    cases htext : text.toList with
    | nil => simp [isNumeric]
    | cons quote cs =>
      rw [htext, string?] at h
      by_cases hquote : quote = '\'' ∨ quote = '"'
      · rcases hquote with rfl | rfl <;> simp [isNumeric]
      · simp [hquote] at h
  rw [ofLiteral?, hnumeric]
  simpa using h

section Decimal

theorem toString_toList (n : Nat) : (toString n).toList = Nat.toDigits 10 n := by
  rw [Nat.toString_eq_repr, Nat.toList_repr]

theorem isDigit_of_mem {n : Nat} {c : Char} (h : c ∈ Nat.toDigits 10 n) : c.isDigit = true :=
  Nat.isDigit_of_mem_toDigits (by omega) (by omega) h

theorem isNumeric_toString (n : Nat) : isNumeric (toString n).toList = true := by
  rw [toString_toList, isNumeric, Bool.and_eq_true, List.all_eq_true]
  constructor
  · cases hdigits : Nat.toDigits 10 n with
    | nil => exact absurd hdigits Nat.toDigits_ne_nil
    | cons c cs =>
      have hc : c.isDigit = true := isDigit_of_mem (hdigits ▸ List.mem_cons_self)
      simp [hc]
  · intro c hc
    simp [isNumeral, Char.isAlphanum, isDigit_of_mem hc]

/-- A place is written as a number. -/
theorem ofLiteral?_toString (other : String → String) (n : Nat) :
    ofLiteral? other (toString n) = some (number other (toString n)) := by
  rw [ofLiteral?, isNumeric_toString]
  simp

/-- The digits of a number have its value. -/
theorem digitsValue_toDigits (n : Nat) : digitsValue 10 (Nat.toDigits 10 n) = n := by
  have hunderscores : (Nat.toDigits 10 n).filter (· != '_') = Nat.toDigits 10 n := by
    rw [List.filter_eq_self]
    intro c hc
    have hdigit := isDigit_of_mem hc
    rw [bne_iff_ne]
    rintro rfl
    exact absurd hdigit (by decide)
  have hfold (cs : List Char) (start : Nat) (h : ∀ c ∈ cs, c.isDigit = true) :
      cs.foldl (fun n c => 10 * n + (Escape.hexDigit? c).getD 0) start =
        Nat.ofDigitChars 10 cs start := by
    induction cs generalizing start with
    | nil => rfl
    | cons c cs ih =>
      have hc : Escape.hexDigit? c = some (c.toNat - 48) := by
        simp [Escape.hexDigit?, h c List.mem_cons_self]
      rw [List.foldl_cons, hc, ih _ fun c hc => h c (List.mem_cons_of_mem _ hc)]
      rfl
  calc digitsValue 10 (Nat.toDigits 10 n)
      = Nat.ofDigitChars 10 (Nat.toDigits 10 n) 0 := by
        rw [digitsValue, hunderscores, hfold _ _ fun c hc => isDigit_of_mem hc]
    _ = n := Nat.ofDigitChars_toDigits (by omega) (by omega)

theorem decimal?_toDigits (n : Nat) : decimal? (Nat.toDigits 10 n) = some n := by
  have hall : ∀ c ∈ Nat.toDigits 10 n, isDecimal c = true := by
    intro c hc
    simp [isDecimal, isDigit_of_mem hc]
  have hwhole : (Nat.toDigits 10 n).takeWhile isDecimal = Nat.toDigits 10 n :=
    List.takeWhile_eq_self_iff.2 hall
  have hbehind : (Nat.toDigits 10 n).dropWhile isDecimal = [] :=
    List.dropWhile_eq_nil_iff.2 hall
  simp [decimal?, hwhole, hbehind, digitsValue_toDigits, scaled?, Nat.mod_one]

/-- Only zero starts with a zero. -/
theorem head?_toDigits_ne {n : Nat} (h : 0 < n) : (Nat.toDigits 10 n).head? ≠ some '0' := by
  induction n using Nat.strongRecOn with
  | ind n ih =>
    rw [Nat.toDigits_eq_if (by omega)]
    split
    · next hlt =>
      have hdigit : ∀ m < 10, 0 < m → Nat.digitChar m ≠ '0' := by decide
      simpa using hdigit n hlt h
    · next hge =>
      have hfront := ih (n / 10) (by omega) (by omega)
      cases hdigits : Nat.toDigits 10 (n / 10) with
      | nil => exact absurd hdigits Nat.toDigits_ne_nil
      | cons c cs =>
        rw [hdigits] at hfront
        simpa using hfront

theorem integer?_toDigits (n : Nat) : integer? (Nat.toDigits 10 n) = some n := by
  by_cases hzero : n = 0
  · subst hzero
    decide
  · have hhead := head?_toDigits_ne (Nat.pos_of_ne_zero hzero)
    rw [integer?, decimal?_toDigits]
    intro mark digits hdigits
    rw [hdigits] at hhead
    simp at hhead

theorem toString_inj {m n : Nat} : toString m = toString n ↔ m = n := by
  constructor
  · intro h
    have hdigits : Nat.toDigits 10 m = Nat.toDigits 10 n := by
      rw [← toString_toList, ← toString_toList, h]
    exact Option.some.inj ((integer?_toDigits m).symm.trans (hdigits ▸ integer?_toDigits n))
  · rintro rfl
    rfl

/-- A place denotes the key it is written as. -/
theorem number_toString (other : String → String) {n : Nat} (h : n < 2 ^ 53) :
    number other (toString n) = toString n := by
  rw [number, toString_toList, integer?_toDigits]
  simp only [h, if_true]

end Decimal

end RefSugar.PropertyKey
