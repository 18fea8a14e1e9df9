/-!
JSON values and their text.
-/
namespace RefSugar

inductive Json where
  | null
  | bool (b : Bool)
  | nat (n : Nat)
  | str (s : String)
  | arr (items : List Json)
  | obj (fields : List (String × Json))

namespace Json

def hexChars (n : Nat) : List Char :=
  let digits := Nat.toDigits 16 n
  List.replicate (4 - digits.length) '0' ++ digits

/-- A character of a string. Only what has to be escaped is. -/
def escapeChar (c : Char) : List Char :=
  if c == '"' then ['\\', '"']
  else if c == '\\' then ['\\', '\\']
  else if c == '\n' then ['\\', 'n']
  else if c == '\r' then ['\\', 'r']
  else if c == '\t' then ['\\', 't']
  else if c.toNat == 8 then ['\\', 'b']
  else if c.toNat == 12 then ['\\', 'f']
  else if c.toNat < 32 then '\\' :: 'u' :: hexChars c.toNat
  else [c]

def quote (s : String) : String :=
  "\"" ++ String.ofList (s.toList.flatMap escapeChar) ++ "\""

def indent (depth : Nat) : String :=
  "\n" ++ String.ofList (List.replicate (2 * depth) ' ')

mutual

def compact : Json → String
  | null => "null"
  | bool b => if b then "true" else "false"
  | nat n => toString n
  | str s => quote s
  | arr items => "[" ++ compactItems items ++ "]"
  | obj fields => "\x7b" ++ compactFields fields ++ "\x7d"

def compactItems : List Json → String
  | [] => ""
  | [v] => compact v
  | v :: vs => compact v ++ "," ++ compactItems vs

def compactFields : List (String × Json) → String
  | [] => ""
  | [(k, v)] => quote k ++ ":" ++ compact v
  | (k, v) :: fs => quote k ++ ":" ++ compact v ++ "," ++ compactFields fs

end

mutual

/-- The text with one item or field a line, indented by two blanks for each level. -/
def pretty (depth : Nat) : Json → String
  | null => "null"
  | bool b => if b then "true" else "false"
  | nat n => toString n
  | str s => quote s
  | arr [] => "[]"
  | arr items => "[" ++ prettyItems (depth + 1) items ++ indent depth ++ "]"
  | obj [] => "\x7b\x7d"
  | obj fields => "\x7b" ++ prettyFields (depth + 1) fields ++ indent depth ++ "\x7d"

def prettyItems (depth : Nat) : List Json → String
  | [] => ""
  | [v] => indent depth ++ pretty depth v
  | v :: vs => indent depth ++ pretty depth v ++ "," ++ prettyItems depth vs

def prettyFields (depth : Nat) : List (String × Json) → String
  | [] => ""
  | [(k, v)] => indent depth ++ quote k ++ ": " ++ pretty depth v
  | (k, v) :: fs =>
    indent depth ++ quote k ++ ": " ++ pretty depth v ++ "," ++ prettyFields depth fs

end

end Json

end RefSugar
