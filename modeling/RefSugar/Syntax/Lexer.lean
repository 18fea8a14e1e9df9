import RefSugar.Syntax.Escape
import RefSugar.Syntax.Token
import RefSugar.Text.Letters

/-!
Scanning. Each scan starts at a cursor, a byte offset together with the text from there on, and
leaves the cursor behind what it took.
-/
namespace RefSugar.Syntax

open RefSugar.Text

structure Cursor where
  pos : Nat
  text : List Char

namespace Lexer

/-- Behind the longest run of characters that satisfy `p`. -/
def skipWhile (p : Char → Bool) : Nat → List Char → Cursor
  | pos, [] => ⟨pos, []⟩
  | pos, c :: cs => if p c then skipWhile p (pos + c.utf8Size) cs else ⟨pos, c :: cs⟩

def isBlank (c : Char) : Bool :=
  isSpace c || c.toNat == 0xfeff || c.toNat == 0x200b

inductive Blank where
  | between
  | lineComment
  | blockComment

/-- What stands between two tokens. -/
structure Gap where
  stop : Cursor
  /-- A line ends in the gap, or has ended in front of it. -/
  fresh : Bool
  /-- Where the first comment that needs no slash starts. -/
  mark? : Option Nat

/-- The text starts with a line that marks one side of a conflict between two versions. -/
def startsSide (cs : List Char) : Bool :=
  ["<<<<<<< ", ">>>>>>> "].any (·.toList.isPrefixOf cs)

/-- The text starts with the line between the two sides of a conflict. -/
def startsDivider (cs : List Char) : Bool :=
  "=======".toList.isPrefixOf cs

def startsBase (cs : List Char) : Bool :=
  "||||||| ".toList.isPrefixOf cs

/-- The text starts with a comment up to the end of the line that needs no slash: `<!--`, and at the
start of a line `-->` or the mark of a conflict. In a type angle brackets start none. -/
def startsMark (inType fresh : Bool) (cs : List Char) : Bool :=
  (!inType && "<!--".toList.isPrefixOf cs) || (fresh && "-->".toList.isPrefixOf cs) ||
    (fresh && !inType && startsSide cs) || (fresh && startsDivider cs)

/-- Behind blanks and comments. A comment may be left open at the end of the text. -/
def skipBlank (inType : Bool) (mark? : Option Nat) : Blank → Bool → Nat → List Char → Gap
  | _, fresh, pos, [] => ⟨⟨pos, []⟩, fresh, mark?⟩
  | .blockComment, fresh, pos, '*' :: '/' :: cs =>
    skipBlank inType mark? .between fresh (pos + 2) cs
  | .blockComment, fresh, pos, c :: cs =>
    skipBlank inType mark? .blockComment (fresh || isLineEnd c) (pos + c.utf8Size) cs
  | .lineComment, fresh, pos, c :: cs =>
    if isLineEnd c then skipBlank inType mark? .between true (pos + c.utf8Size) cs
    else skipBlank inType mark? .lineComment fresh (pos + c.utf8Size) cs
  | .between, fresh, pos, '/' :: '/' :: cs => skipBlank inType mark? .lineComment fresh (pos + 2) cs
  | .between, fresh, pos, '/' :: '*' :: cs =>
    skipBlank inType mark? .blockComment fresh (pos + 2) cs
  | .between, fresh, pos, c :: cs =>
    if isBlank c then skipBlank inType mark? .between (fresh || isLineEnd c) (pos + c.utf8Size) cs
    else if startsMark inType fresh (c :: cs) then
      skipBlank inType (mark?.or (some pos)) .lineComment fresh (pos + c.utf8Size) cs
    else ⟨⟨pos, c :: cs⟩, fresh, mark?⟩

structure Name where
  /-- The characters of the name, last first. -/
  chars : List Char
  escaped : Bool
  /-- What is wrong with an escape in the name, and where. -/
  fault? : Option Escape.Fault
  stop : Cursor

/-- The rest of a name, behind the first `n` characters, which belong to an escape. -/
def scanName (chars : List Char) (escaped : Bool) : Nat → Nat → List Char → Name
  | _, pos, [] => ⟨chars, escaped, none, ⟨pos, []⟩⟩
  | n + 1, pos, _ :: cs => scanName chars escaped n (pos + 1) cs
  | 0, pos, c :: cs =>
    if isExtender c then scanName (c :: chars) escaped 0 (pos + c.utf8Size) cs
    else if c == '\\' then
      match Escape.inName cs with
      | .ok p =>
        scanName ((Escape.nameChars p.value).reverse ++ chars) true (p.length - 1) (pos + 1) cs
      | .error f => ⟨chars, true, some { f with offset := pos + f.offset }, ⟨pos, c :: cs⟩⟩
    else ⟨chars, escaped, none, ⟨pos, c :: cs⟩⟩

def front (cs : List Char) (stop : Cursor) : List Char :=
  cs.take (cs.length - stop.text.length)

/-- A word. With an escape in it, it is the word of the language it spells only if it starts with a
letter, and then it goes by its spelling. -/
def scanWord (pos : Nat) (cs : List Char) : Token.Kind × Cursor :=
  let name := scanName [] false 0 pos cs
  match name.fault? with
  | some f => (.fault f.problem f.offset, name.stop)
  | none =>
    let word := String.ofList name.chars.reverse
    let kind : Token.Kind :=
      if !name.escaped then .word word (some word)
      else if cs.head? != some '\\' && isLanguageWord word then
        .escapedWord (String.ofList (front cs name.stop)) word
      else .word word none
    (kind, name.stop)

/-- A string from behind its opening quote on; it ends at the end of its line in any case. -/
def scanString (quote : Char) : Nat → List Char → Token.Kind × Cursor
  | pos, [] => (.string, ⟨pos, []⟩)
  | pos, '\\' :: '\r' :: '\n' :: cs => scanString quote (pos + 3) cs
  | pos, ['\\'] => (.fault .stringEscape pos, ⟨pos + 1, []⟩)
  | pos, '\\' :: c :: cs =>
    match Escape.inString? (c :: cs) with
    | some f => (.fault f.problem pos, ⟨pos + 1, c :: cs⟩)
    | none => scanString quote (pos + 1 + c.utf8Size) cs
  | pos, c :: cs =>
    if c == quote then (.string, ⟨pos + 1, cs⟩)
    else if c == '\n' || c == '\r' then (.string, ⟨pos, c :: cs⟩)
    else scanString quote (pos + c.utf8Size) cs

/-- Behind a piece of a template, and whether an interpolation follows; nothing if the template is
not closed. -/
def scanTemplate : Nat → List Char → Option (Cursor × Bool)
  | _, [] => none
  | pos, '\\' :: c :: cs => scanTemplate (pos + 1 + c.utf8Size) cs
  | pos, '$' :: '\x7b' :: cs => some (⟨pos + 2, cs⟩, true)
  | pos, c :: cs =>
    if c == '\x60' then some (⟨pos + 1, cs⟩, false) else scanTemplate (pos + c.utf8Size) cs

/-- Behind the slash that closes a regular expression; nothing if its line ends first. `inClass`
tells that a bracket is open. -/
def scanRegex : Bool → Nat → List Char → Option Cursor
  | _, _, [] => none
  | inClass, pos, '\\' :: c :: cs =>
    if isLineEnd c then none else scanRegex inClass (pos + 1 + c.utf8Size) cs
  | inClass, pos, c :: cs =>
    if isLineEnd c then none
    else if c == '/' && !inClass then some ⟨pos + 1, cs⟩
    else scanRegex (c == '[' || (inClass && c != ']')) (pos + c.utf8Size) cs

/-- The flags behind a regular expression, which start with a letter of ASCII. -/
def scanFlags (stop : Cursor) : Token.Kind × Cursor :=
  if stop.text.head?.any fun c => c.isAlpha || c == '$' || c == '_' then
    let name := scanName [] false 0 stop.pos stop.text
    match name.fault? with
    | some f => (.fault f.problem f.offset, name.stop)
    | none => (.regex, name.stop)
  else (.regex, stop)

/-- Behind the digits of a number written in another base, for which `p` tells the digits. -/
def scanBased (base : Nat) (p : Char → Bool) (pos : Nat) (cs : List Char) : Token.Kind × Cursor :=
  let isPart := fun c => p c || c == '_'
  let stop := skipWhile isPart pos cs
  if !(cs.takeWhile isPart).any p then (.fault (.digitExpected base) pos, ⟨pos, cs⟩)
  else
    match stop.text with
    | 'n' :: rest =>
      let kind : Token.Kind :=
        if cs.head? == some '_' then .fault .numericSeparator pos else .bigint
      (kind, ⟨stop.pos + 1, rest⟩)
    | _ => (.number, stop)

def isDecimal (c : Char) : Bool :=
  c.isDigit || c == '_'

def scanExponent (stop : Cursor) : Token.Kind × Cursor :=
  match stop.text with
  | e :: cs =>
    if e == 'e' || e == 'E' then
      match cs with
      | [] => (.fault .exponentExpected (stop.pos + 1), ⟨stop.pos + 1, []⟩)
      | s :: rest =>
        let digits : Cursor :=
          if s == '+' || s == '-' then ⟨stop.pos + 2, rest⟩ else ⟨stop.pos + 1, cs⟩
        if (digits.text.takeWhile isDecimal).any Char.isDigit then
          (.number, skipWhile isDecimal digits.pos digits.text)
        else (.fault (.digitExpected 10) digits.pos, digits)
    else (.number, stop)
  | [] => (.number, stop)

/-- A decimal number, whose first character is a digit or a point. Digits after a leading zero are
octal, and take no fraction, unless one of them says otherwise. -/
def scanDecimal (pos : Nat) (cs : List Char) : Token.Kind × Cursor :=
  let whole := skipWhile isDecimal pos cs
  let digits := cs.takeWhile isDecimal
  let old := digits.head? == some '0' && 1 < digits.length
  if old && !digits.any (fun c => c == '8' || c == '9') then (.number, whole)
  else
    match whole.text with
    | '.' :: rest => scanExponent (skipWhile isDecimal (whole.pos + 1) rest)
    | 'n' :: rest => if old then (.number, whole) else (.bigint, ⟨whole.pos + 1, rest⟩)
    | _ => scanExponent whole

/-- A number, which no name may follow directly. -/
def scanNumber (pos : Nat) (cs : List Char) : Token.Kind × Cursor :=
  let (kind, stop) := match cs with
    | '0' :: b :: rest =>
      if b == 'x' || b == 'X' then scanBased 16 Escape.isHex (pos + 2) rest
      else if b == 'o' || b == 'O' then scanBased 8 Escape.isOctal (pos + 2) rest
      else if b == 'b' || b == 'B' then scanBased 2 (fun c => c == '0' || c == '1') (pos + 2) rest
      else scanDecimal pos cs
    | _ => scanDecimal pos cs
  match kind with
  | .number =>
    if stop.text.head?.any isStarter then (.fault .identAfterNumber stop.pos, stop)
    else (kind, stop)
  | _ => (kind, stop)

/-- Punctuators that may stand anywhere, the longer ones first. -/
def punctuators : List String :=
  [">>>=", "...", "**=", "<<=", ">>=", ">>>", "&&=", "||=", "??=", "===", "!==", "=>", "==", "!=",
    "<=", ">=", "&&", "||", "??", "++", "--", "+=", "-=", "*=", "/=", "%=", "&=", "|=", "^=", "<<",
    ">>", "**", "\x7b", "\x7d", "(", ")", "[", "]", ";", ",", "<", ">", "+", "-", "*", "/", "%",
    "&", "|", "^", "!", "~", "?", ":", "=", "@", "#", "."]

/-- The text starts with this punctuator. In a type angle brackets stand alone. -/
def isPunctuator (inType : Bool) (cs : List Char) (p : String) : Bool :=
  p.toList.isPrefixOf cs && !(inType && p.length > 1 && (p.front == '<' || p.front == '>'))

def scan (inType : Bool) (pos : Nat) (cs : List Char) : Token.Kind × Cursor :=
  match cs with
  | [] => (.eof, ⟨pos, []⟩)
  | c :: rest =>
    if isStarter c || c == '\\' then scanWord pos cs
    else if c.isDigit || (c == '.' && rest.head?.any Char.isDigit) then scanNumber pos cs
    else if c == '"' || c == '\'' then scanString c (pos + 1) rest
    else if c == '\x60' then
      match scanTemplate (pos + 1) rest with
      | some (stop, more) => (.template more, stop)
      | none => (.fault .unterminatedTemplate pos, ⟨pos, []⟩)
    else
      match punctuators.find? (isPunctuator inType cs) with
      | some p => (.punct p, ⟨pos + p.length, cs.drop p.length⟩)
      | none => (.fault (.unexpectedChar c) pos, ⟨pos + c.utf8Size, rest⟩)

/-- The next token behind a cursor. `fresh` tells that the cursor stands at the start of a line. -/
def next (inType fresh : Bool) (pos : Nat) (cs : List Char) : Token :=
  let gap := skipBlank inType none .between fresh pos cs
  let start := gap.stop
  let (kind, stop) : Token.Kind × Cursor :=
    if gap.fresh && startsBase start.text then
      (.fault .conflictMarker start.pos, ⟨start.pos, start.text⟩)
    else scan inType start.pos start.text
  { kind, lo := gap.mark?.getD start.pos, hi := stop.pos, fresh := gap.fresh, start := start.pos
    text := start.text, rest := stop.text }

/-- The first token of a text, which may be a line that starts with `#!`. A text without any token
ends where it starts. -/
def first (cs : List Char) : Token :=
  match cs with
  | '#' :: '!' :: _ =>
    let stop := skipWhile (fun c => !isLineEnd c) 0 cs
    { kind := .shebang, lo := 0, hi := stop.pos, fresh := true, start := 0, text := cs
      rest := stop.text }
  | _ =>
    let token := next false true 0 cs
    if token.isEof then { token with lo := 0, hi := 0, rest := [] } else token

end Lexer

end RefSugar.Syntax
