/-!
Whether a text may hold a sigil in its code. Comments, strings and the fixed text of templates are
left out; in doubt the answer is yes. The text is folded by a step for each character.
-/
namespace RefSugar.Sigil

/-- What the character before has left open. -/
inductive Mode where
  | code
  /-- In a word, whose characters so far are given last first. -/
  | word (chars : List Char)
  /-- Behind a slash that may start a comment, a regular expression, or divide. -/
  | slash
  | lineComment
  | blockComment
  /-- Behind a star in a block comment. -/
  | star
  | string (quote : Char)
  | stringEscape (quote : Char)
  /-- In a regular expression; `inClass` tells that a bracket is open. -/
  | regex (inClass : Bool)
  | regexEscape (inClass : Bool)
  /-- Behind a regular expression. -/
  | flags
  | template
  | templateEscape
  /-- Behind a sigil in a template. -/
  | templateSigil
  deriving DecidableEq, Repr

structure Scan where
  mode : Mode := .code
  /-- For each open interpolation, innermost first, the number of braces open in it. The number has no
  bound, where 32 bits would do for any text below 4 GiB. -/
  braces : List Nat := []
  /-- An operand is expected, so that a slash starts a regular expression. -/
  operand : Bool := true
  found : Bool := false
  deriving DecidableEq, Repr

namespace Scan

def operandWords : List String :=
  ["return", "typeof", "instanceof", "case", "do", "else", "in", "of", "new", "delete", "void",
    "throw", "yield", "await"]

def isBlank (c : Char) : Bool :=
  c == ' ' || c == '\t' || c == '\n' || c == '\r' || c.toNat == 12

def isWordChar (c : Char) : Bool :=
  c.isAlphanum || c == '_' || 128 ≤ c.toNat

def code (s : Scan) (c : Char) : Scan :=
  if c == '$' then { s with mode := .code, found := true }
  else if c == '/' then { s with mode := .slash }
  else if c == '\'' || c == '"' then { s with mode := .string c, operand := false }
  else if c == '\x60' then { s with mode := .template }
  else if c == '\x7b' then
    { s with
      mode := .code
      operand := true
      braces := match s.braces with
        | [] => []
        | n :: ns => (n + 1) :: ns }
  else if c == '\x7d' then
    match s.braces with
    | [] => { s with mode := .code, operand := true }
    | 0 :: ns => { s with mode := .template, braces := ns }
    | (n + 1) :: ns => { s with mode := .code, operand := true, braces := n :: ns }
  else if c == ')' || c == ']' then { s with mode := .code, operand := false }
  else if isBlank c then { s with mode := .code }
  else if isWordChar c then { s with mode := .word [c] }
  else { s with mode := .code, operand := true }

/-- A character of the body of a regular expression. A sigil in it counts. -/
def regex (s : Scan) (inClass : Bool) (c : Char) : Scan :=
  if c == '\\' then { s with mode := .regexEscape inClass }
  else if c == '\n' || c == '$' then code { s with operand := false } c
  else if c == '[' then { s with mode := .regex true }
  else if c == ']' then { s with mode := .regex false }
  else if c == '/' && !inClass then { s with mode := .flags }
  else { s with mode := .regex inClass }

def template (s : Scan) (c : Char) : Scan :=
  if c == '\\' then { s with mode := .templateEscape }
  else if c == '\x60' then { s with mode := .code, operand := false }
  else if c == '$' then { s with mode := .templateSigil }
  else { s with mode := .template }

def step (s : Scan) (c : Char) : Scan :=
  match s.mode with
  | .code => code s c
  | .word chars =>
    if isWordChar c then { s with mode := .word (c :: chars) }
    else code { s with operand := operandWords.contains (String.ofList chars.reverse) } c
  | .slash =>
    if c == '/' then { s with mode := .lineComment }
    else if c == '*' then { s with mode := .blockComment }
    else if s.operand then regex { s with operand := false } false c
    else code { s with operand := true } c
  | .lineComment => if c == '\n' then { s with mode := .code } else s
  | .blockComment => if c == '*' then { s with mode := .star } else s
  | .star =>
    if c == '/' then { s with mode := .code }
    else if c == '*' then s
    else { s with mode := .blockComment }
  | .string quote =>
    if c == '\\' then { s with mode := .stringEscape quote }
    else if c == '\n' || c == quote then { s with mode := .code }
    else s
  | .stringEscape quote => { s with mode := .string quote }
  | .regex inClass => regex s inClass c
  | .regexEscape inClass => { s with mode := .regex inClass }
  | .flags => if isWordChar c then s else code { s with operand := false } c
  | .template => template s c
  | .templateEscape => { s with mode := .template }
  | .templateSigil =>
    if c == '\x7b' then { s with mode := .code, operand := true, braces := 0 :: s.braces }
    else template s c

end Scan

/-- A sigil occurs in the code of a text. -/
def containsSigil (text : List Char) : Bool :=
  (text.foldl Scan.step {}).found

end RefSugar.Sigil
