import RefSugar.Proofs.Tree

/-! How the spans of a tree lie. The parts of a node lie inside it and apart from each other; where
the node has a sign of its own in front of a part or behind it, the part does not reach the edge. -/
namespace RefSugar.Syntax

namespace Span

def isApart (a b : Span) : Bool :=
  decide (a.hi ≤ b.lo) || decide (b.hi ≤ a.lo)

def holds (a b : Span) : Bool :=
  decide (a.lo ≤ b.lo) && decide (b.hi ≤ a.hi)

/-- Something of `a` stands behind `b`. -/
def opensWith (a b : Span) : Bool :=
  decide (a.lo ≤ b.lo) && decide (b.hi < a.hi)

/-- Something of `a` stands in front of `b`. -/
def closesWith (a b : Span) : Bool :=
  decide (a.lo < b.lo) && decide (b.hi ≤ a.hi)

/-- Something of `a` stands on both sides of `b`. -/
def encloses (a b : Span) : Bool :=
  decide (a.lo < b.lo) && decide (b.hi < a.hi)

def isFilled (a : Span) : Bool :=
  decide (a.lo < a.hi)

def allApart : List Span → Bool
  | [] => true
  | a :: rest => rest.all a.isApart && allApart rest

def Apart (a b : Span) : Prop :=
  a.hi ≤ b.lo ∨ b.hi ≤ a.lo

theorem isApart_iff {a b : Span} : a.isApart b = true ↔ a.Apart b := by
  simp [isApart, Apart]

theorem allApart_iff {spans : List Span} : allApart spans = true ↔ spans.Pairwise Apart := by
  induction spans with
  | nil => simp [allApart]
  | cons a rest ih => simp [allApart, ih, isApart_iff]

/-- All of them lie inside and apart from each other. -/
def holdsAll (a : Span) (parts : List Span) : Bool :=
  parts.all a.holds && allApart parts

variable {a b : Span} {parts : List Span}

theorem holds_iff : a.holds b = true ↔ a.lo ≤ b.lo ∧ b.hi ≤ a.hi := by
  simp [holds]

theorem opensWith_iff : a.opensWith b = true ↔ a.lo ≤ b.lo ∧ b.hi < a.hi := by
  simp [opensWith]

theorem closesWith_iff : a.closesWith b = true ↔ a.lo < b.lo ∧ b.hi ≤ a.hi := by
  simp [closesWith]

theorem encloses_iff : a.encloses b = true ↔ a.lo < b.lo ∧ b.hi < a.hi := by
  simp [encloses]

theorem isFilled_iff : a.isFilled = true ↔ a.lo < a.hi := by
  simp [isFilled]

theorem holdsAll_iff : a.holdsAll parts = true ↔
    (∀ b ∈ parts, a.lo ≤ b.lo ∧ b.hi ≤ a.hi) ∧ parts.Pairwise Apart := by
  simp [holdsAll, holds_iff, allApart_iff]

end Span

namespace Expr

@[simp] theorem span_name (id : Ident) : (name id).span = id.span := rfl

@[simp] theorem span_field (span : Span) (link : Link) (object : Expr) :
    (field span link object).span = span := rfl

@[simp] theorem span_index (span : Span) (link : Link) (object key : Expr) :
    (index span link object key).span = span := rfl

@[simp] theorem span_call (span : Span) (link : Link) (callee : Expr) (args : List Item) :
    (call span link callee args).span = span := rfl

@[simp] theorem span_keywordCall (span : Span) (args : List Item) :
    (keywordCall span args).span = span := rfl

@[simp] theorem span_wrapped (span : Span) (kind : Wrapping) (inner : Expr) :
    (wrapped span kind inner).span = span := rfl

@[simp] theorem span_assign (span : Span) (plain : Bool) (target : Pattern) (value : Expr) :
    (assign span plain target value).span = span := rfl

@[simp] theorem span_update (span : Span) (operand : Expr) :
    (update span operand).span = span := rfl

@[simp] theorem span_array (span : Span) (items : List Item) : (array span items).span = span := rfl

@[simp] theorem span_object (span : Span) (properties : List Property) :
    (object span properties).span = span := rfl

@[simp] theorem span_function (span : Span) (name : Option Ident) (fn : Func) :
    (function span name fn).span = span := rfl

@[simp] theorem span_arrow (span : Span) (params : List Pattern) (body : List Stmt) :
    (arrow span params body).span = span := rfl

@[simp] theorem span_arrowTo (span : Span) (params : List Pattern) (result : Expr) :
    (arrowTo span params result).span = span := rfl

@[simp] theorem span_classDef (span : Span) (name : Option Ident) (cls : Class) :
    (classDef span name cls).span = span := rfl

@[simp] theorem span_element (span : Span) (attrs : List Attr) (children : List Expr) :
    (element span attrs children).span = span := rfl

@[simp] theorem span_compound (span : Span) (form : Form) (parts : List Expr) :
    (compound span form parts).span = span := rfl

end Expr

/-- The span of a statement together with the decorators that stand in front of a class. -/
def Stmt.extent : Stmt → Span
  | .classDef span _ (.mk decorators _ _) =>
    decorators.foldl (fun s d => ⟨min s.lo d.span.lo, s.hi⟩) span
  | .exported span decl => ⟨min span.lo decl.extent.lo, span.hi⟩
  | s => s.span

/-! The spans of parts that have none of their own, in the order in which a walk comes upon them. -/

def Item.spans (i : Item) : List Span :=
  i.expr?.toList.map Expr.span

def Key.spans : Key → List Span
  | .computed e => [e.span]
  | .name _ | .string _ | .number _ | .other => []

def Pattern.spans : Pattern → List Span
  | .name id => [id.span]
  | .object span _ | .array span _ => [span]
  | .default target value => target.spans ++ [value.span]
  | .rest target => target.spans
  | .expr e => [e.span]
  | .hole | .invalid => []

def Pattern.isFilled : Pattern → Bool
  | .object span _ | .array span _ => span.isFilled
  | _ => true

def PatternField.spans : PatternField → List Span
  | .shorthand id value => id.span :: value.toList.map Expr.span
  | .pair key value => key.spans ++ value.spans
  | .rest target => target.spans

namespace Param

def decoratorSpans : Param → List Span
  | .mk decorators _ => decorators.map Expr.span

def patternSpans : Param → List Span
  | .mk _ pattern => pattern.spans

def spans (p : Param) : List Span :=
  p.decoratorSpans ++ p.patternSpans

end Param

def Func.spans : Func → List Span
  | .mk decorators params body =>
    decorators.map Expr.span ++ params.flatMap Param.patternSpans ++
      params.flatMap Param.decoratorSpans ++ body.map Stmt.extent

def Member.spans : Member → List Span
  | .method key fn => key.spans ++ fn.spans
  | .constructor params body => params.flatMap Param.spans ++ body.map Stmt.extent
  | .property key value decorators =>
    key.spans ++ value.toList.map Expr.span ++ decorators.map Expr.span
  | .staticBlock body => body.map Stmt.extent

def Class.spans : Class → List Span
  | .mk decorators members heritage =>
    decorators.map Expr.span ++ members.flatMap Member.spans ++ heritage.map Expr.span

def Property.spans : Property → List Span
  | .shorthand id => [id.span]
  | .pair key value => key.spans ++ [value.span]
  | .default _ value => [value.span]
  | .getter _ key body => key.spans ++ body.map Stmt.extent
  | .setter _ key param body => key.spans ++ param.spans ++ body.map Stmt.extent
  | .method _ key fn => key.spans ++ fn.spans
  | .spread e => [e.span]

def Attr.spans : Attr → List Span
  | .named (.plain id) _ value => id.span :: value.toList.map Expr.span
  | .named (.qualified _ _) _ value => value.toList.map Expr.span
  | .spread e => [e.span]

def Declarator.span : Declarator → Span
  | .mk span _ _ => span

namespace Node

/-- Only a lone name may stand at the very start of an arrow function. -/
def startsArrow (span : Span) : List Pattern → Bool
  | [.name _] => true
  | params => (params.flatMap Pattern.spans).all fun p => decide (span.lo < p.lo)

/-- Only what is assigned to as a whole may stand at the very start of an assignment. -/
def startsAssign (span : Span) (target : Pattern) : Bool :=
  match target with
  | .default _ _ | .rest _ => target.spans.all fun p => decide (span.lo < p.lo)
  | _ => true

def nestedExpr : Expr → Bool
  | .name id => id.span.isFilled
  | .field span _ object => span.opensWith object.span
  | .index span _ object k =>
    span.opensWith object.span && span.encloses k.span && object.span.isApart k.span
  | .call span _ callee args =>
    span.opensWith callee.span && (args.flatMap Item.spans).all span.encloses &&
      Span.allApart (callee.span :: args.flatMap Item.spans)
  | .keywordCall span args =>
    (args.flatMap Item.spans).all span.encloses && Span.allApart (args.flatMap Item.spans)
  | .wrapped span kind inner =>
    match kind with
    | .parens => span.encloses inner.span
    | .nonNull | .asType | .satisfies | .instantiation => span.opensWith inner.span
    | .asConst => span.holds inner.span
    | .assertion => span.closesWith inner.span
  | .assign span _ target value =>
    startsAssign span target && target.spans.all span.opensWith && span.closesWith value.span &&
      Span.allApart (target.spans ++ [value.span])
  | .update span operand => span.holds operand.span
  | .array span items =>
    (items.flatMap Item.spans).all span.encloses && Span.allApart (items.flatMap Item.spans)
  | .object span properties =>
    (properties.flatMap Property.spans).all span.encloses &&
      Span.allApart (properties.flatMap Property.spans)
  | .function span _ fn => fn.spans.all span.encloses && Span.allApart fn.spans
  | .arrow span params body =>
    startsArrow span params && (params.flatMap Pattern.spans).all span.opensWith &&
      (body.map Stmt.extent).all span.encloses &&
      Span.allApart (params.flatMap Pattern.spans ++ body.map Stmt.extent)
  | .arrowTo span params result =>
    startsArrow span params && (params.flatMap Pattern.spans).all span.opensWith &&
      span.closesWith result.span &&
      Span.allApart (params.flatMap Pattern.spans ++ [result.span])
  | .classDef span _ c => c.spans.all span.encloses && Span.allApart c.spans
  | .element span attrs children =>
    (attrs.flatMap Attr.spans ++ children.map Expr.span).all span.encloses &&
      Span.allApart (attrs.flatMap Attr.spans ++ children.map Expr.span)
  | .compound span _ parts =>
    span.holdsAll (parts.map Expr.span) &&
      parts.tail.all fun part => decide (span.lo < part.span.lo)

def nestedDeclarator : Declarator → Bool
  | .mk span target init =>
    target.isFilled && span.holdsAll (target.spans ++ init.toList.map Expr.span)

def nestedStmt : Stmt → Bool
  | .expr span e => span.holds e.span
  | .block span body => span.holdsAll (body.map Stmt.extent)
  | .ret span value => span.holdsAll (value.toList.map Expr.span)
  | .vars span _ decls => span.holdsAll (decls.map Declarator.span)
  | .resource span decls => decls.all nestedDeclarator && span.holdsAll (decls.map Declarator.span)
  | .function span name fn => name.span.isFilled && span.holdsAll (name.span :: fn.spans)
  | .classDef span name c => (Stmt.classDef span name c).extent.holdsAll c.spans
  | .enumeration span _ values => span.holdsAll (values.map Expr.span)
  | .imports _ _ => true
  | .exported span decl => (Stmt.exported span decl).extent.holds decl.extent
  | .loop span start parts body =>
    span.holdsAll (start.map Stmt.extent ++ parts.map Expr.span ++ [body.extent])
  | .loopOver span source decl body => span.holdsAll [source.span, decl.extent, body.extent]
  | .loopInto span source target body =>
    span.holdsAll (source.span :: target.spans ++ [body.extent])
  | .switch span subject cases => span.holdsAll (subject.span :: cases.map Stmt.extent)
  | .handler span params body =>
    span.holdsAll (params.flatMap Pattern.spans ++ body.map Stmt.extent)
  | .space span body => span.holdsAll (body.map Stmt.extent)
  | .group span parts body => span.holdsAll (parts.map Expr.span ++ body.map Stmt.extent)

/-- The spans of the immediate parts of a node lie as they should. Parts of a node without a span
are parts of the node around it. -/
def isNested : Node → Bool
  | expr e => decide (e.span.lo ≤ e.span.hi) && nestedExpr e
  | property (.shorthand id) => id.span.isFilled
  | pattern (.name id) => id.span.isFilled
  | pattern (.object span fields) =>
    span.isFilled && (fields.flatMap PatternField.spans).all span.encloses &&
      Span.allApart (fields.flatMap PatternField.spans)
  | pattern (.array span items) =>
    span.isFilled && (items.flatMap Pattern.spans).all span.encloses &&
      Span.allApart (items.flatMap Pattern.spans)
  | field (.shorthand id _) => id.span.isFilled
  | attr (.named (.plain id) _ _) => id.span.isFilled
  | stmt s => nestedStmt s
  | declarator d => nestedDeclarator d
  | item _ | property _ | key _ | pattern _ | field _ | param _ | func _ | cls _ | member _
  | attr _ => true

def Nested (n : Node) : Prop :=
  Everywhere children (isNested · = true) n

end Node

end RefSugar.Syntax
