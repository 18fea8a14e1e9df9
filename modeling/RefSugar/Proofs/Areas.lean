import RefSugar.Proofs.DeclaredNames
import RefSugar.Proofs.Frames
import RefSugar.Proofs.LeafSpans

/-! The scopes of a script as its tree alone tells them: which sites of the tree stand in which area,
what each site declares there, and which names it mentions. Nothing here looks at what a walk does. -/
namespace RefSugar

/-- `var` leaves its block. -/
def Syntax.VarKind.place : Syntax.VarKind → Walk.Place
  | .hoisted => .hoisted
  | .lexical => .current

namespace Lexical

open Syntax
open Walk (Decl LeafOf)

/-! ### What patterns and values say -/

inductive Binds : Pattern → Ident → Prop
  | name (id : Ident) : Binds (.name id) id
  | shorthand {span : Span} {fields : List PatternField} {id : Ident} {value : Option Expr}
    (h : .shorthand id value ∈ fields) : Binds (.object span fields) id
  | pair {span : Span} {fields : List PatternField} {key : Key} {value : Pattern} {id : Ident}
    (h : .pair key value ∈ fields) (hid : Binds value id) : Binds (.object span fields) id
  | restField {span : Span} {fields : List PatternField} {target : Pattern} {id : Ident}
    (h : .rest target ∈ fields) (hid : Binds target id) : Binds (.object span fields) id
  | item {span : Span} {items : List Pattern} {p : Pattern} {id : Ident} (h : p ∈ items)
    (hid : Binds p id) : Binds (.array span items) id
  | default {target : Pattern} {value : Expr} {id : Ident} (hid : Binds target id) :
    Binds (.default target value) id
  | rest {target : Pattern} {id : Ident} (hid : Binds target id) : Binds (.rest target) id

def BindsField (id : Ident) : PatternField → Prop
  | .shorthand own _ => own = id
  | .pair _ target | .rest target => Binds target id

def IsRestField : PatternField → Prop
  | .rest _ => True
  | _ => False

def IsRest : Pattern → Prop
  | .rest _ => True
  | _ => False

/-- What a pattern declares where its value is unpacked: its fields are to be unwrapped, and the rest
is an ordinary value. A pattern has one rest; if there were more, only the first would count. -/
inductive Unpacks : Pattern → BindingKind → Ident → Prop
  | field {span : Span} {fields : List PatternField} {f : PatternField} {id : Ident}
    (hf : f ∈ fields) (hrest : ¬ IsRestField f) (hid : BindsField id f) :
    Unpacks (.object span fields) .unwrap id
  | restField {span : Span} {front back : List PatternField} {id : Ident}
    (hfront : ∀ f ∈ front, ¬ IsRestField f) :
    Unpacks (.object span (front ++ .rest (.name id) :: back)) .known id
  | item {span : Span} {items : List Pattern} {p : Pattern} {id : Ident} (hp : p ∈ items)
    (hrest : ¬ IsRest p) (hid : Binds p id) : Unpacks (.array span items) .unwrap id
  | restItem {span : Span} {front back : List Pattern} {id : Ident}
    (hfront : ∀ p ∈ front, ¬ IsRest p) :
    Unpacks (.array span (front ++ .rest (.name id) :: back)) .known id

/-- The value is a call of the callee, but for parentheses and assertions that it is there. -/
inductive IsCallOf : Expr → Expr → Prop
  | call {span : Span} {callee : Expr} {args : List Item} :
    IsCallOf (.call span .plain callee args) callee
  | parens {span : Span} {inner callee : Expr} (h : IsCallOf inner callee) :
    IsCallOf (.wrapped span .parens inner) callee
  | nonNull {span : Span} {inner callee : Expr} (h : IsCallOf inner callee) :
    IsCallOf (.wrapped span .nonNull inner) callee

/-- A sigil stands in front of the callee of the value, and it is not `$$` nor the sigil of a name to
ignore. -/
def GivesRef (source : List Char) (ignore : List String) (value : Expr) : Prop :=
  ∃ callee word, IsCallOf value callee ∧ textUnder source callee.span = '$' :: word ∧
    word ≠ ['$'] ∧ String.ofList word ∉ ignore

/-- The declared variable is to be unwrapped, or unpacked. -/
inductive Unwrapped (source : List Char) (ignore : List String) : Declarator → Prop
  | name {span : Span} {id : Ident} {value : Expr} (h : GivesRef source ignore value) :
    Unwrapped source ignore (.mk span (.name id) (some value))
  | pattern {span : Span} {target : Pattern} {value : Expr} (h : GivesRef source ignore value)
    (htarget : Unpack.Unpackable target) :
    Unwrapped source ignore (.mk span target (some value))

/-! ### Sites and areas -/

/-- A place in a tree: a node, with what the node alone does not tell. -/
inductive Site where
  | expr (e : Expr)
  | property (p : Property)
  | pattern (p : Pattern)
  /-- A pattern that is assigned to. -/
  | target (p : Pattern)
  | field (f : PatternField)
  | targetField (f : PatternField)
  | func (f : Func)
  | cls (c : Syntax.Class)
  | member (m : Member)
  | attr (a : Attr)
  | stmt (st : Stmt)
  | declarator (kind : VarKind) (d : Declarator)

/-- A scope. What opens it declares the names of the patterns `own` in it; all else that it declares
stands in its sites. -/
structure Area where
  /-- It takes the `var` declarations inside. -/
  isBody : Bool
  own : List Pattern
  sites : List Site

def itemSites (items : List Item) : List Site :=
  (items.filterMap Item.expr?).map .expr

def keySites : Key → List Site
  | .computed e => [.expr e]
  | _ => []

inductive Site.Mentions : Site → Ident → Prop
  | name (id : Ident) : Site.Mentions (.expr (.name id)) id
  | update (span : Span) (id : Ident) : Site.Mentions (.expr (.update span (.name id))) id
  | shorthand (id : Ident) : Site.Mentions (.property (.shorthand id)) id
  | target (id : Ident) : Site.Mentions (.target (.name id)) id
  | targetField (id : Ident) (value : Option Expr) :
    Site.Mentions (.targetField (.shorthand id value)) id

/-- The area that a site opens. Functions, arrows, constructors and setters are bodies; a getter and a
static block are not. -/
def inside : Site → Option Area
  | .expr (.function _ (some name) fn) => some ⟨false, [.name name], [.func fn]⟩
  | .expr (.classDef _ (some name) cls) => some ⟨false, [.name name], [.cls cls]⟩
  | .expr (.arrow _ params body) => some ⟨true, params, params.map .pattern ++ body.map .stmt⟩
  | .expr (.arrowTo _ params result) => some ⟨true, params, params.map .pattern ++ [.expr result]⟩
  | .func (.mk decorators params body) =>
    some ⟨true, params.map Param.pattern, decorators.map .expr ++
      (params.map Param.pattern).map .pattern ++ (params.flatMap Param.decorators).map .expr ++
      body.map .stmt⟩
  | .member (.constructor params body) =>
    some ⟨true, params.map Param.pattern,
      (params.flatMap fun p => p.decorators.map .expr ++ [.pattern p.pattern]) ++ body.map .stmt⟩
  | .property (.setter _ _ param body) => some ⟨true, [param], .pattern param :: body.map .stmt⟩
  | .property (.getter _ _ body) | .member (.staticBlock body) | .stmt (.block _ body)
  | .stmt (.switch _ _ body) => some ⟨false, [], body.map .stmt⟩
  | .stmt (.loop _ start parts body) =>
    some ⟨false, [], start.map .stmt ++ parts.map .expr ++ [.stmt body]⟩
  | .stmt (.loopOver _ _ decl body) => some ⟨false, [], [.stmt decl, .stmt body]⟩
  | .stmt (.loopInto _ _ target body) => some ⟨false, [], [.target target, .stmt body]⟩
  | .stmt (.handler _ params body) =>
    some ⟨false, params, params.map .pattern ++ body.map .stmt⟩
  | _ => none

section Areas

variable (source : List Char) (ignore : List String)

open Classical in
/-- The sites outside of the area that a site opens. Those of a pattern that is unpacked are left out:
its defaults are not walked, but moved with their text. -/
noncomputable def outside : Site → List Site
  | .expr (.field _ _ inner) | .expr (.wrapped _ _ inner) => [.expr inner]
  | .expr (.index _ _ object key) => [.expr object, .expr key]
  | .expr (.call _ _ callee args) => .expr callee :: itemSites args
  | .expr (.keywordCall _ items) | .expr (.array _ items) => itemSites items
  | .expr (.assign _ _ target value) => [.target target, .expr value]
  | .expr (.update _ (.name _)) => []
  | .expr (.update _ operand) => [.expr operand]
  | .expr (.object _ properties) => properties.map .property
  | .expr (.function _ none fn) => [.func fn]
  | .expr (.classDef _ none cls) => [.cls cls]
  | .expr (.element _ attrs children) => attrs.map .attr ++ children.map .expr
  | .expr (.compound _ _ parts) => parts.map .expr
  | .property (.pair key value) => keySites key ++ [.expr value]
  | .property (.default _ e) | .property (.spread e) | .pattern (.expr e) | .target (.expr e)
  | .attr (.spread e) | .stmt (.expr _ e) => [.expr e]
  | .property (.getter _ key _) | .property (.setter _ key _ _) => keySites key
  | .property (.method _ key fn) | .member (.method key fn) => keySites key ++ [.func fn]
  | .pattern (.object _ fields) => fields.map .field
  | .pattern (.array _ items) => items.map .pattern
  | .pattern (.default target value) => [.pattern target, .expr value]
  | .pattern (.rest target) | .field (.rest target) => [.pattern target]
  | .target (.object _ fields) => fields.map .targetField
  | .target (.array _ items) => items.map .target
  | .target (.default target value) => [.target target, .expr value]
  | .target (.rest target) | .targetField (.rest target) => [.target target]
  | .field (.shorthand _ value) | .targetField (.shorthand _ value) | .attr (.named _ _ value)
  | .stmt (.ret _ value) => value.toList.map .expr
  | .field (.pair key value) => keySites key ++ [.pattern value]
  | .targetField (.pair key value) => keySites key ++ [.target value]
  | .cls (.mk decorators members heritage) =>
    decorators.map .expr ++ members.map .member ++ heritage.map .expr
  | .member (.property key value decorators) =>
    keySites key ++ value.toList.map .expr ++ decorators.map .expr
  | .declarator _ (.mk span target init) =>
    (if Unwrapped source ignore (.mk span target init) then [] else [.pattern target]) ++
      init.toList.map .expr
  | .stmt (.vars _ kind decls) => decls.map (.declarator kind)
  | .stmt (.resource _ decls) =>
    decls.flatMap fun | .mk _ target init => .pattern target :: init.toList.map .expr
  | .stmt (.function _ _ fn) => [.func fn]
  | .stmt (.classDef _ _ cls) => [.cls cls]
  | .stmt (.enumeration _ _ values) => values.map .expr
  | .stmt (.exported _ decl) => [.stmt decl]
  | .stmt (.loopOver _ e _ _) | .stmt (.loopInto _ e _ _) | .stmt (.switch _ e _) => [.expr e]
  | .stmt (.space _ body) => body.map .stmt
  | .stmt (.group _ parts body) => parts.map .expr ++ body.map .stmt
  | _ => []

inductive Declares : Site → Decl → Prop
  | function (span : Span) (name : Ident) (fn : Func) :
    Declares (.stmt (.function span name fn)) ⟨.current, .known, name.name⟩
  | classDef (span : Span) (name : Ident) (cls : Syntax.Class) :
    Declares (.stmt (.classDef span name cls)) ⟨.current, .known, name.name⟩
  | enumeration (span : Span) (name : Ident) (values : List Expr) :
    Declares (.stmt (.enumeration span name values)) ⟨.current, .known, name.name⟩
  | imports (span : Span) {locals : List Ident} {id : Ident} (h : id ∈ locals) :
    Declares (.stmt (.imports span locals)) ⟨.current, .known, id.name⟩
  | unwrap (kind : VarKind) (span : Span) (id : Ident) {value : Expr}
    (h : GivesRef source ignore value) :
    Declares (.declarator kind (.mk span (.name id) (some value)))
      ⟨kind.place, .unwrap, id.name⟩
  | unpack (kind : VarKind) (span : Span) {target : Pattern} {value : Expr} {binding : BindingKind}
    {id : Ident} (h : GivesRef source ignore value) (htarget : Unpack.Unpackable target)
    (hid : Unpacks target binding id) :
    Declares (.declarator kind (.mk span target (some value)))
      ⟨kind.place, binding, id.name⟩
  | ordinary (kind : VarKind) {span : Span} {target : Pattern} {init : Option Expr} {id : Ident}
    (h : ¬ Unwrapped source ignore (.mk span target init)) (hid : Binds target id) :
    Declares (.declarator kind (.mk span target init)) ⟨kind.place, .known, id.name⟩

/-- The sites declare a name for the area that they stand in. A hoisted declaration leaves the areas
that are no bodies. -/
inductive Declared : List Site → Decl → Prop
  | own {qs : List Site} {q : Site} {d : Decl} (hq : q ∈ qs) (hd : Declares source ignore q d) :
    Declared qs d
  | outside {qs : List Site} {q : Site} {d : Decl} (hq : q ∈ qs)
    (hd : Declared (outside source ignore q) d) : Declared qs d
  | inside {qs : List Site} {q : Site} {A : Area} {d : Decl} (hq : q ∈ qs)
    (hA : inside q = some A) (hbody : A.isBody = false) (hd : Declared A.sites d)
    (hplace : d.place = .hoisted) : Declared qs d

def Has (A : Area) (kind : BindingKind) (name : String) : Prop :=
  (kind = .known ∧ ∃ p ∈ A.own, ∃ id, Binds p id ∧ id.name = name) ∨
    ∃ d, Declared source ignore A.sites d ∧ d.kind = kind ∧ d.name = name ∧
      (d.place = .hoisted → A.isBody = true)

/-- Going outward through the areas, the first one that declares the name declares it as a binding to
unwrap, and not as an ordinary one as well. -/
inductive BindsUnwrap (name : String) : List Area → Prop
  | here {A : Area} {outer : List Area} (hunwrap : Has source ignore A .unwrap name)
    (hknown : ¬ Has source ignore A .known name) : BindsUnwrap name (A :: outer)
  | outer {A : Area} {outer : List Area} (hnone : ∀ kind, ¬ Has source ignore A kind name)
    (h : BindsUnwrap name outer) : BindsUnwrap name (A :: outer)

/-- A reference among the sites, and the areas around it, innermost first. -/
inductive Mentioned : List Site → List Area → Ident → Prop
  | own {qs : List Site} {q : Site} {id : Ident} (hq : q ∈ qs) (hid : q.Mentions id) :
    Mentioned qs [] id
  | outside {qs : List Site} {q : Site} {areas : List Area} {id : Ident} (hq : q ∈ qs)
    (h : Mentioned (outside source ignore q) areas id) : Mentioned qs areas id
  | inside {qs : List Site} {q : Site} {A : Area} {areas : List Area} {id : Ident} (hq : q ∈ qs)
    (hA : inside q = some A) (h : Mentioned A.sites areas id) : Mentioned qs (areas ++ [A]) id

inductive Within : List Site → Site → Prop
  | here {qs : List Site} {q : Site} (hq : q ∈ qs) : Within qs q
  | outside {qs : List Site} {q q' : Site} (hq : q ∈ qs) (h : Within (outside source ignore q) q') :
    Within qs q'
  | inside {qs : List Site} {q q' : Site} {A : Area} (hq : q ∈ qs) (hA : inside q = some A)
    (h : Within A.sites q') : Within qs q'

end Areas

/-! ### What is meant as a reference, and what is left alone -/

section References

variable (source : List Char) (ignore : List String)

def SigilBehind (name : String) : Prop :=
  ∃ word, word ≠ [] ∧ name.toList = word ++ ['$']

inductive IsFunction : Expr → Prop
  | arrow (span : Span) (params : List Pattern) (body : List Stmt) : IsFunction (.arrow span params body)
  | arrowTo (span : Span) (params : List Pattern) (result : Expr) :
    IsFunction (.arrowTo span params result)
  | function (span : Span) (name : Option Ident) (fn : Func) : IsFunction (.function span name fn)

/-- The site means the span as a reference: it is the argument of `$$`, or it is wrapped because of a
sigil behind the name of a callee, a function or an attribute. -/
inductive Site.Means : Site → Span → Prop
  | explicit {span : Span} {link : Link} {callee e : Expr} {arg : Item} {args : List Item}
    (htext : textUnder source callee.span = ['$', '$']) (harg : arg.expr? = some e) :
    Site.Means (.expr (.call span link callee (arg :: args))) e.span
  | argument {span : Span} {link : Link} {callee e : Expr} {args : List Item} {leaf : Walk.Leaf}
    (htext : textUnder source callee.span ≠ ['$', '$'])
    (hsigil : (textUnder source callee.span).getLast? = some '$') (he : .one e ∈ args)
    (hleaf : LeafOf e leaf) : Site.Means (.expr (.call span link callee args)) leaf.span
  | result {span place : Span} {name : Ident} {decorators : List Expr} {params : List Param}
    {body : List Stmt} {e : Expr} {leaf : Walk.Leaf} (hname : SigilBehind name.name)
    (he : .ret place (some e) ∈ body) (hleaf : LeafOf e leaf) :
    Site.Means (.stmt (.function span name (.mk decorators params body))) leaf.span
  | value {kind : VarKind} {span : Span} {id : Ident} {e : Expr} {leaf : Walk.Leaf}
    (hname : SigilBehind id.name) (he : IsFunction e) (hleaf : LeafOf e leaf) :
    Site.Means (.declarator kind (.mk span (.name id) (some e))) leaf.span
  | attr {id : Ident} {e : Expr} {leaf : Walk.Leaf} (hname : SigilBehind id.name)
    (htwo : id.name.toList.count '$' ≠ 2) (hleaf : LeafOf e leaf) :
    Site.Means (.attr (.named (.plain id) true (some e))) leaf.span

/-- The expression is the identifier, with members, calls and wrappings behind and around it. -/
inductive Heads (id : Ident) : Expr → Prop
  | name : Heads id (.name id)
  | field {span : Span} {link : Link} {object : Expr} (h : Heads id object) :
    Heads id (.field span link object)
  | index {span : Span} {link : Link} {object key : Expr} (h : Heads id object) :
    Heads id (.index span link object key)
  | call {span : Span} {link : Link} {callee : Expr} {args : List Item} (h : Heads id callee) :
    Heads id (.call span link callee args)
  | wrapped {span : Span} {kind : Wrapping} {inner : Expr} (h : Heads id inner) :
    Heads id (.wrapped span kind inner)

def Meant (qs : List Site) (a : Span) : Prop :=
  ∃ q, Within source ignore qs q ∧ q.Means source a

/-- The identifier, or an expression that starts from it, is meant as a reference. -/
def IsExplicit (qs : List Site) (id : Ident) : Prop :=
  Meant source ignore qs id.span ∨
    ∃ e, Within source ignore qs (.expr e) ∧ Heads id e ∧ Meant source ignore qs e.span

def IsLeftAlone (o : Options) : AttrName → Prop
  | .plain id => id.name ∈ o.exemptAttributes
  | .qualified span space =>
    space ∈ o.exemptAttributes ∨ String.ofList (textUnder source span) ∈ o.exemptAttributes

/-- The identifier is a reference in the value of an attribute that is left alone. -/
def IsExempt (o : Options) (qs : List Site) (id : Ident) : Prop :=
  ∃ name braced value areas, Within source ignore qs (.attr (.named name braced (some value))) ∧
    IsLeftAlone source o name ∧ Mentioned source ignore [.expr value] areas id

end References

end Lexical

end RefSugar
