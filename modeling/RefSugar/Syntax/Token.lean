import RefSugar.Syntax.Escape

/-!
Tokens of a script. A token keeps the text from its first character on and the text behind it, so
that a reader who knows better than the scanner what stands there (a regular expression, the rest
of a template, markup text) can scan the same place again.
-/
namespace RefSugar.Syntax

inductive Token.Kind where
  | eof
  /-- A name, or the word of the language that `role` tells. One with an escape at its start plays
  no role. -/
  | word (name : String) (role : Option String)
  /-- A word of the language that is written with escapes, as `name`. -/
  | escapedWord (name word : String)
  | punct (text : String)
  | number
  | bigint
  | string
  | regex
  /-- A piece of a template; `more` if an interpolation follows it. -/
  | template (more : Bool)
  | markup
  | shebang
  /-- A place that holds no token, where it is, and why. -/
  | fault (problem : Problem) (offset : Nat)

structure Token where
  kind : Token.Kind
  /-- Where the token counts as starting: a comment that is no comment in all places belongs to the
  token behind it. -/
  lo : Nat
  hi : Nat
  /-- A line ends between the token before and this one. -/
  fresh : Bool
  /-- Where the first character of the token stands. -/
  start : Nat
  /-- The text from there on. -/
  text : List Char
  /-- The text behind the token. -/
  rest : List Char

def reservedWords : List String :=
  ["break", "case", "catch", "class", "const", "continue", "debugger", "default", "delete", "do",
    "else", "enum", "export", "extends", "false", "finally", "for", "function", "if", "import",
    "in", "instanceof", "new", "null", "return", "super", "switch", "this", "throw", "true", "try",
    "typeof", "var", "void", "while", "with"]

/-- Words with a meaning of their own in some places, and identifiers elsewhere. -/
def contextualWords : List String :=
  ["abstract", "accessor", "any", "as", "asserts", "assert", "async", "await", "bigint", "boolean",
    "declare", "from", "get", "global", "implements", "infer", "interface", "intrinsic", "is",
    "keyof", "let", "meta", "namespace", "never", "number", "object", "of", "out", "override",
    "package", "private", "protected", "public", "readonly", "require", "satisfies", "set",
    "static", "string", "symbol", "target", "type", "undefined", "unique", "unknown", "using",
    "yield"]

def strictWords : List String :=
  ["let", "static", "implements", "interface", "package", "private", "protected", "public"]

def isReserved (name : String) : Bool :=
  reservedWords.contains name

def isLanguageWord (name : String) : Bool :=
  isReserved name || contextualWords.contains name

namespace Token

def label (t : Token) : String :=
  match t.kind with
  | .eof => "<eof>"
  | .word _ role => (role.filter isLanguageWord).getD "ident"
  | .punct text => text
  | .number => "numeric literal"
  | .bigint => "bigint literal"
  | .string => "string literal"
  | .regex => "regexp literal"
  | .template false => "no substitution template literal"
  | .template true => "template head"
  | .markup => "jsx text"
  | .shebang => "#!"
  | .escapedWord _ _ | .fault _ _ => "<lexing error>"

def isPunct (t : Token) (text : String) : Bool :=
  match t.kind with
  | .punct p => p == text
  | _ => false

/-- The word of the language that the token may be; nothing if it is none for sure. -/
def role (t : Token) : String :=
  match t.kind with
  | .word _ role => role.getD ""
  | _ => ""

def isWord (t : Token) (word : String) : Bool :=
  t.role == word

def isAnyWord (t : Token) : Bool :=
  match t.kind with
  | .word _ _ => true
  | _ => false

def value (t : Token) : String :=
  let content := (t.text.take (t.text.length - t.rest.length)).drop 1
  let closed := content.getLast? == t.text.head?
  String.ofList (Escape.stringValue 0 (if closed then content.dropLast else content))

def isEof (t : Token) : Bool :=
  match t.kind with
  | .eof => true
  | _ => false

def isString (t : Token) : Bool :=
  match t.kind with
  | .string => true
  | _ => false

def isNumeric (t : Token) : Bool :=
  match t.kind with
  | .number | .bigint => true
  | _ => false

def isNumber (t : Token) : Bool :=
  match t.kind with
  | .number => true
  | _ => false

def isTemplate (t : Token) : Bool :=
  match t.kind with
  | .template _ => true
  | _ => false

/-- The precedence of a binary operator; `??` shares that of `||`. -/
def precedence (t : Token) (inAllowed : Bool) : Option Nat :=
  match t.kind with
  | .punct p =>
    match p with
    | "||" | "??" => some 1
    | "&&" => some 2
    | "|" => some 3
    | "^" => some 4
    | "&" => some 5
    | "==" | "!=" | "===" | "!==" => some 6
    | "<" | "<=" | ">" | ">=" => some 7
    | "<<" | ">>" | ">>>" => some 8
    | "+" | "-" => some 9
    | "*" | "/" | "%" => some 10
    | "**" => some 11
    | _ => none
  | .word _ (some "instanceof") => some 7
  | .word _ (some "in") => if inAllowed then some 7 else none
  | _ => none

def isSign (t : Token) : Bool :=
  match t.kind with
  | .punct _ => (t.precedence false).isSome
  | _ => false

/-- The token assigns; the answer tells whether it is plain `=`. -/
def assignment (t : Token) : Option Bool :=
  match t.kind with
  | .punct "=" => some true
  | .punct p =>
    if ["+=", "-=", "*=", "/=", "%=", "**=", "<<=", ">>=", ">>>=", "&=", "|=", "^=", "&&=", "||=",
        "??="].contains p then some false else none
  | _ => none

end Token

end RefSugar.Syntax
