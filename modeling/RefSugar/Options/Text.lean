import RefSugar.Json.Print
import RefSugar.Json.Value
import RefSugar.Options

/-!
Options as JSON text. They are written as an object with all fields. They are read from an object,
which may leave fields out and have others, or from a list of the fields in order.
-/
namespace RefSugar.Options

inductive Field where
  | ignore
  | included
  | excluded
  | runtimeModule
  | wrapFn
  | exemptAttributes
  | resolution
  | declarations
  | sourceMap
  deriving DecidableEq, Repr

namespace Field

def all : List Field :=
  [ignore, included, excluded, runtimeModule, wrapFn, exemptAttributes, resolution, declarations,
    sourceMap]

def key : Field → String
  | ignore => "ignore"
  | included => "include"
  | excluded => "exclude"
  | runtimeModule => "runtimeModule"
  | wrapFn => "wrapFn"
  | exemptAttributes => "exemptAttributes"
  | resolution => "resolution"
  | declarations => "declarations"
  | sourceMap => "sourceMap"

def ofKey? (key : String) : Option Field :=
  all.find? (·.key == key)

def value (o : Options) : Field → Json
  | ignore => .arr (o.ignore.map .str)
  | included => .arr (o.included.map .str)
  | excluded => .arr (o.excluded.map .str)
  | runtimeModule => .str o.runtimeModule
  | wrapFn => .str o.wrapFn
  | exemptAttributes => .arr (o.exemptAttributes.map .str)
  | resolution => .str o.resolution.name
  | declarations => .bool o.declarations
  | sourceMap => .bool o.sourceMap

end Field

def toJson (o : Options) : Json :=
  .obj (Field.all.map fun f => (f.key, f.value o))

open Json

def readResolutionName : Scan Resolution := do
  let name ← readText "variant identifier"
  match Resolution.ofName? name with
  | some r => return r
  | none => failHere (.unknownVariant name "\x60lexical\x60 or \x60counting\x60")

/-- A resolution by its name, or as an object with the name for a key and nothing in it. -/
def readResolution : Scan Resolution := do
  match ← peekPastBlanks? with
  | some '"' => readResolutionName
  | some '\x7b' =>
    skip
    match ← peekPastBlanks? with
    | some '"' => pure ()
    | some _ => failNext .keyNotString
    | none => failHere .eofInObject
    let r ← readResolutionName
    colon
    readNull
    match ← peekPastBlanks? with
    | some '\x7d' =>
      skip
      return r
    | some _ => failHere .expectedValue
    | none => failHere .eofInObject
  | some _ => failNext .expectedValue
  | none => failNext .eofInValue

def readField (o : Options) : Field → Scan Options
  | .ignore => return { o with ignore := ← readTexts }
  | .included => return { o with included := ← readTexts }
  | .excluded => return { o with excluded := ← readTexts }
  | .runtimeModule => return { o with runtimeModule := ← readText "a string" }
  | .wrapFn => return { o with wrapFn := ← readText "a string" }
  | .exemptAttributes => return { o with exemptAttributes := ← readTexts }
  | .resolution => return { o with resolution := ← readResolution }
  | .declarations => return { o with declarations := ← readBool }
  | .sourceMap => return { o with sourceMap := ← readBool }

/-- A repeated field is reported behind what follows its key. -/
def failDuplicate {α : Type} (f : Field) : Scan α := do
  if (← peekPastBlanks?) == some '\x7d' then skip
  failHere (.duplicateField f.key)

/-- The fields of an object behind those that have been seen. -/
def readFields : Nat → List Field → Bool → Options → Scan Options
  | 0, _, _, o => return o
  | fuel + 1, seen, isFirst, o => do
    if ← hasKey isFirst then
      match Field.ofKey? (← string) with
      | none =>
        colon
        ignoredValue
        readFields fuel seen false o
      | some f =>
        if seen.contains f then failDuplicate f
        else
          colon
          readFields fuel (f :: seen) false (← readField o f)
    else
      skip
      return o

def readItems : List Field → Bool → Options → Scan Options
  | [], _, o => return o
  | f :: fs, isFirst, o => do
    if ← hasItem isFirst then readItems fs false (← readField o f) else return o

def read : Scan Options := do
  match ← valueStart with
  | '[' =>
    skip
    let o ← readItems Field.all true {}
    listEnd
    return o
  | '\x7b' =>
    skip
    readFields ((← get).rest.length + 1) [] true {}
  | _ => failType "struct Options"

def ofText (text : List Char) : Except Json.Fault Options :=
  scanAll read text

end RefSugar.Options
