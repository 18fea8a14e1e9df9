import RefSugar.Options
import RefSugar.Scope
import RefSugar.Unpack
import RefSugar.Walk.Leaves

/-!
What a walk over a tree comes upon, in order: frames that open and close, declarations, references,
spans that are meant as references, and edits.
-/
namespace RefSugar.Walk

open Syntax

/-- The frame a declaration goes to. -/
inductive Place where
  /-- The innermost open frame. -/
  | current
  /-- The innermost open frame of a function, or the root. -/
  | hoisted
  deriving DecidableEq, Repr

/-- A reference before its frame is known. -/
structure Mention where
  id : Ident
  isWrite : Bool := false
  isShorthand : Bool := false
  chain : List Span := []
  isExempt : Bool := false
  deriving DecidableEq, Repr

inductive Event where
  | edit (e : Edit)
  /-- The span is meant as a reference. -/
  | mark (span : Span)
  | enter (kind : FrameKind)
  | leave
  | known (place : Place) (name : String)
  | unwrap (place : Place) (name : String)
  | mention (m : Mention)
  /-- A declaration that ends at `stop` is unpacked. -/
  | unpack (place : Place) (plan : Unpack.Plan) (stop : Nat)

/-- What the events of a tree depend on besides the tree. -/
structure Setting where
  /-- The text of the unit. -/
  source : List Char
  options : Options
  ignore : List String
  /-- Inside the value of an attribute that is left alone. -/
  isExempt : Bool := false

namespace Setting

def text (s : Setting) (span : Span) : String :=
  String.ofList (textUnder s.source span)

def isExemptAttr (s : Setting) : AttrName → Bool
  | .plain id => s.options.isExempt id.name
  | .qualified span space => s.options.isExempt space || s.options.isExempt (s.text span)

end Setting

/-- Takes away the sigil in front. -/
def stripLeading (span : Span) : Event :=
  .edit (.remove span.lo (span.lo + 1))

/-- Takes away the sigil behind. -/
def stripTrailing (span : Span) : Event :=
  .edit (.remove (span.hi - 1) span.hi)

def wrap (wrapFn : String) (parts : List Leaf) : List Event :=
  parts.flatMap fun leaf => (leaf.edits wrapFn).map .edit ++ [.mark leaf.span]

def framed (kind : FrameKind) (events : List Event) : List Event :=
  .enter kind :: events ++ [.leave]

def declareAll (place : Place) (names : List String) : List Event :=
  names.map (.known place)

def isName : Expr → Bool
  | .name _ => true
  | _ => false

/-- What a call itself gives rise to. A settled call has been dealt with by the declaration whose
value it is. Outside declarations only a plain name triggers. -/
def callEvents (s : Setting) (settled : Bool) (callee : Expr) (args : List Item) : List Event :=
  let span := callee.span
  let text := s.text span
  if Sigil.isExplicitWrap text then
    (args.head?.bind Item.expr?).toList.map (fun e => .mark e.span) ++
      [.edit (.remove span.lo span.hi)]
  else
    let leading :=
      if !settled && isName callee && Sigil.isUnwrapCall s.ignore text then [stripLeading span]
      else []
    let trailing :=
      if Sigil.isAutoWrapCall text then
        (if 1 < text.utf8ByteSize then [stripTrailing span] else []) ++
          wrap s.options.wrapFn (itemLeaves args)
      else []
    leading ++ trailing

/-- The call that a declared value boils down to, by its callee. -/
def declaredCallee? : Expr → Option Expr
  | .call _ .plain callee _ => some callee
  | .wrapped _ .parens inner | .wrapped _ .nonNull inner => declaredCallee? inner
  | _ => none

/-- The callee of a declared value that is to be unwrapped. -/
def unwrapCallee? (s : Setting) (init : Option Expr) : Option Expr :=
  (init.bind declaredCallee?).filter fun callee =>
    Sigil.isUnwrapCall s.ignore (s.text callee.span)

mutual

/-- The names a pattern binds, in order. -/
def boundNames : Pattern → List String
  | .name id => [id.name]
  | .object _ fields => fieldNames fields
  | .array _ items => boundNamesAll items
  | .default target _ => boundNames target
  | .rest target => boundNames target
  | .expr _ | .hole | .invalid => []

def boundNamesAll : List Pattern → List String
  | [] => []
  | p :: ps => boundNames p ++ boundNamesAll ps

def fieldNames : List PatternField → List String
  | [] => []
  | .shorthand id _ :: fields => id.name :: fieldNames fields
  | .pair _ value :: fields => boundNames value ++ fieldNames fields
  | .rest target :: fields => boundNames target ++ fieldNames fields

end

def functionNameEvents (s : Setting) (name : Ident) (body : List Stmt) : List Event :=
  if Sigil.isSigilName name.name then
    stripTrailing name.span :: wrap s.options.wrapFn (returnLeaves body)
  else []

/-- What a declared name with a sigil behind it gives rise to, if its value is a function. -/
def functionValueEvents (s : Setting) (target : Pattern) (init : Option Expr) : List Event :=
  match target, init with
  | .name id, some (.arrow span params body) =>
    if Sigil.isSigilName id.name then
      stripTrailing id.span :: wrap s.options.wrapFn (leaves (.arrow span params body))
    else []
  | .name id, some (.arrowTo span params result) =>
    if Sigil.isSigilName id.name then
      stripTrailing id.span :: wrap s.options.wrapFn (leaves (.arrowTo span params result))
    else []
  | .name id, some (.function span name fn) =>
    if Sigil.isSigilName id.name then
      stripTrailing id.span :: wrap s.options.wrapFn (leaves (.function span name fn))
    else []
  | _, _ => []

/-- What a declaration that ends at `stop`, and whose value is to be unwrapped, gives rise to. A
pattern that cannot be unpacked declares ordinary names. -/
def unwrapEvents? (s : Setting) (place : Place) (stop : Nat) (callee : Expr) :
    Pattern → Option (List Event)
  | .name id => some [.unwrap place id.name, stripLeading callee.span]
  | target =>
    (Unpack.plan? s.source target).map fun plan =>
      [.unpack place plan stop, stripLeading callee.span]

end RefSugar.Walk
