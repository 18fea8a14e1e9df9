/-!
What a user may configure.
-/
namespace RefSugar

/-- How a reference is matched with the bindings that are unwrapped. -/
inductive Resolution where
  /-- By the nearest declaration in the scopes around it. -/
  | lexical
  /-- By counting the declarations that are open when the reference is met. -/
  | counting
  deriving DecidableEq, Repr

namespace Resolution

def name : Resolution → String
  | lexical => "lexical"
  | counting => "counting"

def ofName? : String → Option Resolution
  | "lexical" => some lexical
  | "counting" => some counting
  | _ => none

end Resolution

structure Options where
  /-- Names that trigger nothing behind a sigil, besides those that never do. -/
  ignore : List String := []
  /-- Globs of the paths to take from a directory. -/
  included : List String := ["**/*.\x7bjs,mjs,cjs,jsx,ts,mts,cts,tsx,vue\x7d"]
  /-- Globs of the paths to leave out. -/
  excluded : List String := ["**/node_modules/**"]
  /-- The module that primitives are imported from. -/
  runtimeModule : String := "vue"
  /-- The function put around expressions that are passed as references. -/
  wrapFn : String := "$$"
  /-- Attributes, or their namespaces, whose values are left as they are. -/
  exemptAttributes : List String := ["v-slot"]
  resolution : Resolution := .lexical
  /-- Append declarations of the primitives instead of importing them. -/
  declarations : Bool := false
  sourceMap : Bool := false
  deriving DecidableEq, Repr

namespace Options

/-- Names that never trigger anything behind a sigil. -/
def alwaysIgnored : List String :=
  ["defineProps", "defineProp", "defineModels", "defineEmits", "defineSlots"]

def withoutSigil (name : String) : String :=
  match name.toList with
  | '$' :: rest => String.ofList rest
  | _ => name

/-- All names that trigger nothing, each once. One sigil in front of a configured name is dropped.
-/
def ignoreList (o : Options) : List String :=
  o.ignore.foldl (fun list name =>
    let name := withoutSigil name
    if name.isEmpty || list.contains name then list else list ++ [name]) alwaysIgnored

def isExempt (o : Options) (name : String) : Bool :=
  o.exemptAttributes.contains name

end Options

end RefSugar
