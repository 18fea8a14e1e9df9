import RefSugar.Options

/-!
What the parts of one document share: the numbering of temporaries, and which primitives of the
runtime have been imported.
-/
namespace RefSugar

inductive Primitive where
  | toRef
  | restProxy
  deriving DecidableEq, Repr

namespace Primitive

def all : List Primitive :=
  [toRef, restProxy]

def exportName : Primitive → String
  | toRef => "toRef"
  | restProxy => "createPropsRestProxy"

def ofExportName? (name : String) : Option Primitive :=
  all.find? (·.exportName == name)

def localName (p : Primitive) : String :=
  "__rfx_" ++ p.exportName

def specifier (p : Primitive) : String :=
  p.exportName ++ " as " ++ p.localName

end Primitive

structure Session where
  nextTemp : Nat := 0
  imported : List Primitive := []
  deriving DecidableEq, Repr

namespace Session

def tempName (n : Nat) : String :=
  "__rfx_ref" ++ toString n

/-- A temporary that no other part of the document has. -/
def freshTemp (s : Session) : String × Session :=
  (tempName s.nextTemp, { s with nextTemp := s.nextTemp + 1 })

/-- The import of those requested primitives that no earlier part imports. -/
def importStatement (s : Session) (requested : List Primitive) (runtime : String) :
    Option String × Session :=
  let new := Primitive.all.filter fun p => requested.contains p && !s.imported.contains p
  if new.isEmpty then (none, s)
  else
    (some ("import \x7b " ++ ", ".intercalate (new.map Primitive.specifier) ++ " \x7d from '" ++
        runtime ++ "';\n"),
      { s with imported := s.imported ++ new })

end Session

/-- Declarations of the wrapping function and the primitives, for those who read the result without
its imports. -/
def primitiveDeclarations (o : Options) : String :=
  let ref := "import('" ++ o.runtimeModule ++ "').Ref"
  "declare function " ++ o.wrapFn ++ "<T>(value: T): " ++ ref ++ "<T>;\n" ++
    "declare function " ++ Primitive.toRef.localName ++
    "<T extends object, K extends keyof T>(source: T, key: K, defaultValue?: T[K]): " ++ ref ++
    "<T[K]>;\n" ++
    "declare function " ++ Primitive.restProxy.localName ++
    "<T extends object>(source: T, excludedKeys: string[]): Record<string, unknown>;\n"

end RefSugar
