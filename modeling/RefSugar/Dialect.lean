/-!
The dialects of a script, and which of them a file or a script tag is written in.
-/
namespace RefSugar

inductive Dialect where
  | js
  | jsx
  | ts
  | tsx
  deriving DecidableEq, Repr

namespace Dialect

def name : Dialect → String
  | js => "js"
  | jsx => "jsx"
  | ts => "ts"
  | tsx => "tsx"

def ofName? : String → Option Dialect
  | "js" => some js
  | "jsx" => some jsx
  | "ts" => some ts
  | "tsx" => some tsx
  | _ => none

def isTyped : Dialect → Bool
  | ts | tsx => true
  | js | jsx => false

def hasElements : Dialect → Bool
  | jsx | tsx => true
  | js | ts => false

/-- What follows the last point of a path, wherever that stands. -/
def extension? (path : String) : Option String :=
  let chars := path.toList
  if chars.contains '.' then
    some (String.ofList (chars.reverse.takeWhile (· != '.')).reverse)
  else none

/-- The dialect of a script file. -/
def ofPath? (path : String) : Option Dialect :=
  (extension? path).bind fun
    | "js" | "mjs" | "cjs" => some js
    | "jsx" => some jsx
    | "ts" | "mts" | "cts" => some ts
    | "tsx" => some tsx
    | _ => none

def ofAttr (lang : Option String) : Dialect :=
  match lang with
  | some "ts" => ts
  | some "tsx" => tsx
  | some "jsx" => jsx
  | _ => js

/-- A file that holds its scripts in script tags. -/
def isComponentPath (path : String) : Bool :=
  ".vue".toList.isSuffixOf path.toList

end Dialect

end RefSugar
