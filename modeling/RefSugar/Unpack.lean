import RefSugar.Session
import RefSugar.Syntax.Tree
import RefSugar.Text.Bytes

/-!
Unpacking what a call gives. A pattern is replaced by a temporary, and each of its names is declared
behind it from the temporary. Names become bindings to unwrap; a rest is an ordinary value.
-/
namespace RefSugar

open Syntax

/-- The text under a span. A span that cuts through a character has none. -/
def textUnder (source : List Char) (span : Span) : List Char :=
  (Text.slice? span.lo span.hi source).getD []

namespace Unpack

inductive FieldKey where
  /-- A name or a number, to be quoted. -/
  | name (text : String)
  /-- A string as it is written. -/
  | literal (text : String)
  /-- A place of an array. -/
  | index (n : Nat)
  deriving DecidableEq, Repr

namespace FieldKey

def argument : FieldKey → String
  | name text => "'" ++ text ++ "'"
  | literal text => text
  | index n => toString n

def excluded : FieldKey → String
  | name text => "'" ++ text ++ "'"
  | literal text => text
  | index n => "'" ++ toString n ++ "'"

end FieldKey

inductive Binding where
  | field (target : String) (key : FieldKey) (default : Option Span)
  | rest (target : String)
  deriving DecidableEq, Repr

inductive Shape where
  | object
  | array
  deriving DecidableEq, Repr

structure Plan where
  shape : Shape
  span : Span
  bindings : List Binding
  deriving DecidableEq, Repr

/-- `a` or `a = 1`. -/
def simpleTarget? : Pattern → Option (String × Option Span)
  | .name id => some (id.name, none)
  | .default (.name id) value => some (id.name, some value.span)
  | _ => none

def restTarget? : Pattern → Option String
  | .name id => some id.name
  | _ => none

def fieldKey? (source : List Char) : Key → Option FieldKey
  | .name id => some (.name id.name)
  | .string span => some (.literal (String.ofList (textUnder source span)))
  | .number span => some (.name (String.ofList (textUnder source span)))
  | .computed _ | .other => none

def objectBinding? (source : List Char) : PatternField → Option Binding
  | .shorthand id value => some (.field id.name (.name id.name) (value.map Expr.span))
  | .pair key value =>
    (fieldKey? source key).bind fun key =>
      (simpleTarget? value).map fun (target, default) => .field target key default
  | .rest target => (restTarget? target).map .rest

/-- The bindings of an array pattern from place `n` on. A hole takes up a place. -/
def arrayBindings? : Nat → List Pattern → Option (List Binding)
  | _, [] => some []
  | n, .hole :: items => arrayBindings? (n + 1) items
  | n, .rest target :: items =>
    (restTarget? target).bind fun target =>
      (arrayBindings? (n + 1) items).map (.rest target :: ·)
  | n, item :: items =>
    (simpleTarget? item).bind fun (target, default) =>
      (arrayBindings? (n + 1) items).map (.field target (.index n) default :: ·)

/-- How to unpack a pattern. Nested patterns and computed keys are left alone. -/
def plan? (source : List Char) : Pattern → Option Plan
  | .object span fields => (fields.mapM (objectBinding? source)).map (⟨.object, span, ·⟩)
  | .array span items => (arrayBindings? 0 items).map (⟨.array, span, ·⟩)
  | _ => none

namespace Plan

def fieldNames (p : Plan) : List String :=
  p.bindings.filterMap fun
    | .field target _ _ => some target
    | .rest _ => none

def restName? (p : Plan) : Option String :=
  p.bindings.findSome? fun
    | .field _ _ _ => none
    | .rest target => some target

def primitives (p : Plan) : List Primitive :=
  p.bindings.map fun
    | .field _ _ _ => .toRef
    | .rest _ => .restProxy

/-- The declaration of one binding; `seen` are the keys of the fields in front of it. -/
def declaration (source : List Char) (shape : Shape) (temp : String) (seen : List FieldKey) :
    Binding → String
  | .field target key default =>
    "\n," ++ target ++ " = " ++ Primitive.toRef.localName ++ "(" ++ temp ++ ", " ++ key.argument ++
      (match default with
        | none => ""
        | some span => ", " ++ String.ofList (textUnder source span)) ++ ")"
  | .rest target =>
    let proxy := Primitive.restProxy.localName ++ "(" ++ temp ++ ", [" ++
      ", ".intercalate (seen.map FieldKey.excluded) ++ "])"
    "\n," ++ target ++ " = " ++
      match shape with
      | .object => proxy
      | .array => "Object.values(" ++ proxy ++ ")"

def declarations (source : List Char) (shape : Shape) (temp : String) :
    List FieldKey → List Binding → List String
  | _, [] => []
  | seen, b :: bs =>
    declaration source shape temp seen b ::
      match b with
      | .field _ key _ => declarations source shape temp (seen ++ [key]) bs
      | .rest _ => declarations source shape temp seen bs

/-- The declarations behind the temporary, each on a line of its own. -/
def render (source : List Char) (temp : String) (p : Plan) : String :=
  String.join (declarations source p.shape temp [] p.bindings)

end Plan

end Unpack

end RefSugar
