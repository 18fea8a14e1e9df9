import RefSugar.Proofs.Traces
import RefSugar.Proofs.Tree

/-! The outline of a walk. A node is visited once, in one of a few ways; a visit gives rise to events
of its own, visits parts of the node, and opens at most one scope, which ends with the visit. The
outline tells all of this one level at a time, and the events of a walk are the outline spelled
out. -/
namespace RefSugar

namespace Walk

open Syntax

/-- A node, and the way a walk comes upon it. -/
inductive Visit where
  | expr (chain : List Span) (settled : Bool) (e : Expr)
  | property (p : Property)
  /-- A pattern that declares names. -/
  | pattern (p : Pattern)
  /-- A pattern that is assigned to. -/
  | target (p : Pattern)
  | field (f : PatternField)
  | targetField (f : PatternField)
  | func (f : Func)
  | cls (c : Syntax.Class)
  | member (m : Member)
  | attr (a : Attr)
  | stmt (st : Stmt)
  | declarator (place : Place) (d : Declarator)

inductive Piece where
  | event (event : Event)
  | part (s : Setting) (v : Visit)

structure Scope where
  kind : FrameKind
  pieces : List Piece

namespace Visit

@[simp] def node : Visit → Node
  | expr _ _ e => .expr e
  | property p => .property p
  | pattern p | target p => .pattern p
  | field f | targetField f => .field f
  | func f => .func f
  | cls c => .cls c
  | member m => .member m
  | attr a => .attr a
  | stmt st => .stmt st
  | declarator _ d => .declarator d

def trace (s : Setting) : Visit → List Event
  | expr chain settled e => traceExpr s chain settled e
  | property p => traceProperties s [p]
  | pattern p => tracePattern s p
  | target p => traceTarget s p
  | field f => traceFields s [f]
  | targetField f => traceTargetFields s [f]
  | func f => traceFunc s f
  | cls c => traceClass s c
  | member m => traceMembers s [m]
  | attr a => traceAttrs s [a]
  | stmt st => traceStmt s st
  | declarator place d => traceDeclarators s place [d]

end Visit

section Outline

variable (s : Setting)

def events (events : List Event) : List Piece :=
  events.map .event

def values (es : List Expr) : List Piece :=
  es.map fun e => .part s (.expr [] false e)

def patterns (ps : List Pattern) : List Piece :=
  ps.map fun p => .part s (.pattern p)

def stmtPieces (stmts : List Stmt) : List Piece :=
  stmts.map fun st => .part s (.stmt st)

def itemPieces (items : List Item) : List Piece :=
  values s (items.filterMap Item.expr?)

def keyPieces : Key → List Piece
  | .computed e => values s [e]
  | .name _ | .string _ | .number _ | .other => []

def arrowPieces (params : List Pattern) (body : List Piece) : List Piece :=
  events (declareAll .current (boundNamesAll params)) ++ patterns s params ++ body

def exprOuter (chain : List Span) (settled : Bool) : Expr → List Piece
  | .name id => [.event (mention s { id, chain })]
  | .field span _ object => [.part s (.expr (chain ++ [span]) false object)]
  | .index span _ object key => .part s (.expr (chain ++ [span]) false object) :: values s [key]
  | .call span _ callee args =>
    events (callEvents s settled callee args) ++
      .part s (.expr (chain ++ [span]) false callee) :: itemPieces s args
  | .keywordCall _ args => itemPieces s args
  | .wrapped span kind inner =>
    [.part s (.expr (chain ++ [span]) (settled && (kind == .parens || kind == .nonNull)) inner)]
  | .assign _ _ target value => .part s (.target target) :: values s [value]
  | .update _ (.name id) => [.event (mention s { id, isWrite := true })]
  | .update _ operand => values s [operand]
  | .array _ items => itemPieces s items
  | .object _ properties => properties.map fun p => .part s (.property p)
  | .function _ none fn => [.part s (.func fn)]
  | .classDef _ none cls => [.part s (.cls cls)]
  | .element _ attrs children => (attrs.map fun a => .part s (.attr a)) ++ values s children
  | .compound _ _ parts => values s parts
  | .function _ (some _) _ | .classDef _ (some _) _ | .arrow _ _ _ | .arrowTo _ _ _ => []

/-- The scopes of arrow functions, and of function and class expressions with a name. -/
def exprScope : Expr → Option Scope
  | .function _ (some name) fn => some ⟨.block, [.event (.known .current name.name), .part s (.func fn)]⟩
  | .classDef _ (some name) cls => some ⟨.block, [.event (.known .current name.name), .part s (.cls cls)]⟩
  | .arrow _ params body => some ⟨.function, arrowPieces s params (stmtPieces s body)⟩
  | .arrowTo _ params result => some ⟨.function, arrowPieces s params (values s [result])⟩
  | _ => none

def propertyOuter : Property → List Piece
  | .shorthand id => [.event (mention s { id, isShorthand := true })]
  | .pair key value => keyPieces s key ++ values s [value]
  | .default _ value => values s [value]
  | .getter _ key _ | .setter _ key _ _ => keyPieces s key
  | .method _ key fn => keyPieces s key ++ [.part s (.func fn)]
  | .spread e => values s [e]

def propertyScope : Property → Option Scope
  | .getter _ _ body => some ⟨.block, stmtPieces s body⟩
  | .setter _ _ param body => some ⟨.function, arrowPieces s [param] (stmtPieces s body)⟩
  | _ => none

def patternOuter : Pattern → List Piece
  | .name _ | .hole | .invalid => []
  | .object _ fields => fields.map fun f => .part s (.field f)
  | .array _ items => patterns s items
  | .default target value => .part s (.pattern target) :: values s [value]
  | .rest target => patterns s [target]
  | .expr e => values s [e]

def targetOuter : Pattern → List Piece
  | .name id => [.event (mention s { id, isWrite := true })]
  | .hole | .invalid => []
  | .object _ fields => fields.map fun f => .part s (.targetField f)
  | .array _ items => items.map fun p => .part s (.target p)
  | .default target value => .part s (.target target) :: values s [value]
  | .rest target => [.part s (.target target)]
  | .expr e => values s [e]

def fieldOuter : PatternField → List Piece
  | .shorthand _ value => values s value.toList
  | .pair key value => keyPieces s key ++ patterns s [value]
  | .rest target => patterns s [target]

def targetFieldOuter : PatternField → List Piece
  | .shorthand id value =>
    .event (mention s { id, isWrite := true, isShorthand := true }) :: values s value.toList
  | .pair key value => keyPieces s key ++ [.part s (.target value)]
  | .rest target => [.part s (.target target)]

/-- A function declares its parameters in a scope of its own. -/
def funcScope : Func → Scope
  | .mk decorators params body =>
    ⟨.function, values s decorators ++ events (declareAll .current (paramNames params)) ++
      patterns s (params.map Param.pattern) ++ values s (params.flatMap Param.decorators) ++
      stmtPieces s body⟩

def memberOuter : Member → List Piece
  | .method key fn => keyPieces s key ++ [.part s (.func fn)]
  | .property key value decorators =>
    keyPieces s key ++ values s value.toList ++ values s decorators
  | .constructor _ _ | .staticBlock _ => []

def memberScope : Member → Option Scope
  | .constructor params body =>
    some ⟨.function, events (declareAll .current (paramNames params)) ++
      (params.flatMap fun p => values s p.decorators ++ patterns s [p.pattern]) ++
      stmtPieces s body⟩
  | .staticBlock body => some ⟨.block, stmtPieces s body⟩
  | _ => none

def attrOuter : Attr → List Piece
  | .spread e => values s [e]
  | .named name braced value =>
    events (attrEvents s name braced value) ++
      values { s with isExempt := s.isExempt || s.isExemptAttr name } value.toList

/-- What a declared variable consists of. If its value is to be unwrapped, the call that the value
boils down to is dealt with here. -/
def declaratorOuter (place : Place) : Declarator → List Piece
  | .mk span target init =>
    let ordinary := events (declareAll place (boundNames target))
    match unwrapCallee? s init with
    | none =>
      ordinary ++ events (functionValueEvents s target init) ++ patterns s [target] ++
        values s init.toList
    | some callee =>
      (match unwrapEvents? s place span.hi callee target with
        | some unwrapping => events unwrapping
        | none => ordinary ++ patterns s [target]) ++
        init.toList.map fun e => .part s (.expr [] true e)

def resourceOuter : Declarator → List Piece
  | .mk _ target init => patterns s [target] ++ values s init.toList

def stmtOuter : Stmt → List Piece
  | .expr _ e => values s [e]
  | .ret _ value => values s value.toList
  | .vars _ kind decls =>
    decls.map fun d => .part s (.declarator (if kind = .hoisted then .hoisted else .current) d)
  | .resource _ decls => decls.flatMap (resourceOuter s)
  | .function _ name (.mk decorators params body) =>
    events (.known .current name.name :: functionNameEvents s name body) ++
      [.part s (.func (.mk decorators params body))]
  | .classDef _ name cls => [.event (.known .current name.name), .part s (.cls cls)]
  | .enumeration _ name values' => .event (.known .current name.name) :: values s values'
  | .imports _ locals => events (declareAll .current (locals.map Ident.name))
  | .exported _ decl => stmtPieces s [decl]
  | .loopOver _ source _ _ | .loopInto _ source _ _ => values s [source]
  | .switch _ subject _ => values s [subject]
  | .space _ body => stmtPieces s body
  | .group _ parts body => values s parts ++ stmtPieces s body
  | .block _ _ | .loop _ _ _ _ | .handler _ _ _ => []

def stmtScope : Stmt → Option Scope
  | .block _ body => some ⟨.block, stmtPieces s body⟩
  | .loop _ start parts body =>
    some ⟨.loop, stmtPieces s start ++ values s parts ++ stmtPieces s [body]⟩
  | .loopOver _ _ decl body => some ⟨.loop, stmtPieces s [decl, body]⟩
  | .loopInto _ _ target body => some ⟨.loop, .part s (.target target) :: stmtPieces s [body]⟩
  | .switch _ _ cases => some ⟨.block, stmtPieces s cases⟩
  | .handler _ params body => some ⟨.handler, arrowPieces s params (stmtPieces s body)⟩
  | _ => none

namespace Visit

def outer : Visit → List Piece
  | expr chain settled e => exprOuter s chain settled e
  | property p => propertyOuter s p
  | pattern p => patternOuter s p
  | target p => targetOuter s p
  | field f => fieldOuter s f
  | targetField f => targetFieldOuter s f
  | func _ => []
  | cls (.mk decorators members heritage) =>
    values s decorators ++ (members.map fun m => .part s (.member m)) ++ values s heritage
  | member m => memberOuter s m
  | attr a => attrOuter s a
  | stmt st => stmtOuter s st
  | declarator place d => declaratorOuter s place d

def scope? : Visit → Option Scope
  | expr _ _ e => exprScope s e
  | property p => propertyScope s p
  | func f => some (funcScope s f)
  | member m => memberScope s m
  | stmt st => stmtScope s st
  | pattern _ | target _ | field _ | targetField _ | cls _ | attr _ | declarator _ _ => none

end Visit

end Outline

def Piece.trace : Piece → List Event
  | event ev => [ev]
  | part s v => v.trace s

def expand (ps : List Piece) : List Event :=
  ps.flatMap Piece.trace

section Expand

variable (s : Setting)

@[simp] theorem expand_nil : expand [] = [] :=
  rfl

@[simp] theorem expand_cons (p : Piece) (ps : List Piece) :
    expand (p :: ps) = p.trace ++ expand ps :=
  List.flatMap_cons

@[simp] theorem expand_append (ps qs : List Piece) :
    expand (ps ++ qs) = expand ps ++ expand qs :=
  List.flatMap_append

@[simp] theorem expand_events (es : List Event) : expand (events es) = es := by
  simp [expand, events, List.flatMap_map, Piece.trace]

theorem expand_parts {α : Type} (visit : α → Visit) (l : List α) :
    expand (l.map fun a => .part s (visit a)) = l.flatMap fun a => (visit a).trace s := by
  simp [expand, List.flatMap_map, Piece.trace]

@[simp] theorem expand_values (es : List Expr) : expand (values s es) = traceExprs s es := by
  rw [values, expand_parts, traceExprs_eq]
  rfl

@[simp] theorem expand_patterns (ps : List Pattern) : expand (patterns s ps) = tracePatterns s ps := by
  rw [patterns, expand_parts, tracePatterns_eq]
  rfl

@[simp] theorem expand_stmtPieces (stmts : List Stmt) :
    expand (stmtPieces s stmts) = traceStmts s stmts := by
  rw [stmtPieces, expand_parts, traceStmts_eq]
  rfl

@[simp] theorem expand_itemPieces (items : List Item) :
    expand (itemPieces s items) = traceItems s items := by
  rw [itemPieces, expand_values]
  induction items with
  | nil => simp [traceItems, traceExprs]
  | cons i items ih => cases i <;> simp [List.filterMap_cons, Item.expr?, traceItems, traceExprs, ih]

@[simp] theorem expand_keyPieces (k : Key) : expand (keyPieces s k) = traceKey s k := by
  cases k <;> simp [keyPieces, traceKey, traceExprs]

@[simp] theorem expand_arrowPieces (params : List Pattern) (body : List Piece) :
    expand (arrowPieces s params body) =
      declareAll .current (boundNamesAll params) ++ tracePatterns s params ++ expand body := by
  simp [arrowPieces]

theorem traceExprs_option (value : Option Expr) : traceExprs s value.toList = traceOption s value := by
  cases value <;> simp [traceExprs, traceOption]

end Expand

section Events

variable {s : Setting} {ev : Event}

@[simp] theorem event_mem_events {es : List Event} : .event ev ∈ events es ↔ ev ∈ es := by
  simp [events]

@[simp] theorem event_not_mem_values {es : List Expr} : .event ev ∉ values s es := by
  simp [values]

@[simp] theorem event_not_mem_patterns {ps : List Pattern} : .event ev ∉ patterns s ps := by
  simp [patterns]

@[simp] theorem event_not_mem_stmtPieces {stmts : List Stmt} : .event ev ∉ stmtPieces s stmts := by
  simp [stmtPieces]

@[simp] theorem event_not_mem_itemPieces {items : List Item} : .event ev ∉ itemPieces s items :=
  event_not_mem_values

@[simp] theorem event_not_mem_keyPieces {k : Key} : .event ev ∉ keyPieces s k := by
  cases k <;> simp [keyPieces]

@[simp] theorem event_mem_arrowPieces {params : List Pattern} {body : List Piece} :
    .event ev ∈ arrowPieces s params body ↔
      ev ∈ declareAll .current (boundNamesAll params) ∨ .event ev ∈ body := by
  simp [arrowPieces]

end Events

def partsOf (ps : List Piece) : List Visit :=
  ps.filterMap fun
    | .part _ v => some v
    | .event _ => none

section Parts

variable {s : Setting} {ps qs : List Piece}

theorem mem_partsOf {v : Visit} : v ∈ partsOf ps ↔ ∃ s, .part s v ∈ ps := by
  simp only [partsOf, List.mem_filterMap]
  constructor
  · rintro ⟨_ | ⟨s, v⟩, hp, heq⟩
    · cases heq
    · exact ⟨s, Option.some.inj heq ▸ hp⟩
  · rintro ⟨s, hv⟩
    exact ⟨_, hv, rfl⟩

@[simp] theorem partsOf_nil : partsOf [] = [] :=
  rfl

@[simp] theorem partsOf_append : partsOf (ps ++ qs) = partsOf ps ++ partsOf qs :=
  List.filterMap_append

@[simp] theorem partsOf_event (ev : Event) : partsOf (.event ev :: ps) = partsOf ps :=
  rfl

@[simp] theorem partsOf_part (v : Visit) : partsOf (.part s v :: ps) = v :: partsOf ps :=
  rfl

@[simp] theorem partsOf_events (es : List Event) : partsOf (events es) = [] := by
  simp [partsOf, events, List.filterMap_map]

@[simp] theorem partsOf_map {α : Type} (l : List α) (visit : α → Visit) :
    partsOf (l.map fun a => .part s (visit a)) = l.map visit := by
  simp [partsOf, List.filterMap_map, Function.comp_def]

@[simp] theorem partsOf_flatMap {α : Type} (l : List α) (f : α → List Piece) :
    partsOf (l.flatMap f) = l.flatMap fun a => partsOf (f a) := by
  simp [partsOf, List.filterMap_flatMap]

@[simp] theorem partsOf_values (es : List Expr) :
    partsOf (values s es) = es.map (.expr [] false) :=
  partsOf_map es _

@[simp] theorem partsOf_patterns (targets : List Pattern) :
    partsOf (patterns s targets) = targets.map .pattern :=
  partsOf_map targets _

@[simp] theorem partsOf_stmtPieces (stmts : List Stmt) :
    partsOf (stmtPieces s stmts) = stmts.map .stmt :=
  partsOf_map stmts _

end Parts

def Scope.trace (S : Scope) : List Event :=
  framed S.kind (expand S.pieces)

namespace Visit

variable (s : Setting)

/-- The events of an expression are those outside of its scope, and then those of the scope. -/
theorem trace_expr (chain : List Span) (settled : Bool) (e : Expr) :
    traceExpr s chain settled e =
      expand (exprOuter s chain settled e) ++ (exprScope s e).toList.flatMap Scope.trace := by
  have hproperties (ps : List Property) :
      expand (ps.map fun p => .part s (.property p)) = traceProperties s ps := by
    rw [expand_parts, traceProperties_eq]
    rfl
  have hattrs (attrs : List Attr) :
      expand (attrs.map fun a => .part s (.attr a)) = traceAttrs s attrs := by
    rw [expand_parts, traceAttrs_eq]
    rfl
  cases e with
  | update span operand =>
    cases operand <;> simp [exprOuter, exprScope, Piece.trace, traceExprs, traceExpr]
  | function span name fn | classDef span name cls =>
    cases name <;> simp [exprOuter, exprScope, Scope.trace, Piece.trace, Visit.trace, traceExpr]
  | _ =>
    simp [exprOuter, exprScope, Scope.trace, Piece.trace, Visit.trace, traceExpr, traceExprs,
      hproperties, hattrs]

theorem trace_property (p : Property) :
    traceProperties s [p] =
      expand (propertyOuter s p) ++ (propertyScope s p).toList.flatMap Scope.trace := by
  cases p <;>
    simp [propertyOuter, propertyScope, Scope.trace, Piece.trace, Visit.trace, traceProperties,
      traceExprs, tracePatterns, boundNamesAll]

theorem trace_pattern (p : Pattern) : tracePattern s p = expand (patternOuter s p) := by
  have hfields (fields : List PatternField) :
      expand (fields.map fun f => .part s (.field f)) = traceFields s fields := by
    rw [expand_parts, traceFields_eq]
    rfl
  cases p <;>
    simp [patternOuter, hfields, Piece.trace, Visit.trace, tracePattern, traceExprs, tracePatterns]

theorem trace_target (p : Pattern) : traceTarget s p = expand (targetOuter s p) := by
  have hfields (fields : List PatternField) :
      expand (fields.map fun f => .part s (.targetField f)) = traceTargetFields s fields := by
    rw [expand_parts, traceTargetFields_eq]
    rfl
  have hitems (items : List Pattern) :
      expand (items.map fun p => .part s (.target p)) = traceTargets s items := by
    rw [expand_parts, traceTargets_eq]
    rfl
  cases p <;>
    simp [targetOuter, hfields, hitems, Piece.trace, Visit.trace, traceTarget, traceExprs]

theorem trace_field (f : PatternField) : traceFields s [f] = expand (fieldOuter s f) := by
  cases f <;> simp [fieldOuter, traceFields, tracePatterns, traceExprs_option]

theorem trace_targetField (f : PatternField) :
    traceTargetFields s [f] = expand (targetFieldOuter s f) := by
  cases f <;>
    simp [targetFieldOuter, Piece.trace, Visit.trace, traceTargetFields, traceExprs_option]

/-- A function makes the events of its scope. -/
theorem trace_func (f : Func) : traceFunc s f = (funcScope s f).trace := by
  have hpatterns (params : List Param) :
      tracePatterns s (params.map Param.pattern) = traceParamPatterns s params := by
    induction params with
    | nil => simp [tracePatterns, traceParamPatterns]
    | cons p params ih => cases p; simp [tracePatterns, traceParamPatterns, Param.pattern, ih]
  have hdecorators (params : List Param) :
      traceExprs s (params.flatMap Param.decorators) = traceParamDecorators s params := by
    induction params with
    | nil => simp [traceExprs, traceParamDecorators]
    | cons p params ih =>
      cases p
      rw [List.flatMap_cons, traceExprs_eq, List.flatMap_append, ← traceExprs_eq, ← traceExprs_eq, ih]
      simp [traceParamDecorators, Param.decorators]
  cases f
  simp [funcScope, Scope.trace, traceFunc, hpatterns, hdecorators]

theorem trace_member (m : Member) :
    traceMembers s [m] =
      expand (memberOuter s m) ++ (memberScope s m).toList.flatMap Scope.trace := by
  have hparams (params : List Param) :
      expand (params.flatMap fun p => values s p.decorators ++ patterns s [p.pattern]) =
        traceParams s params := by
    induction params with
    | nil => simp [traceParams]
    | cons p params ih =>
      cases p
      rw [List.flatMap_cons, expand_append, ih]
      simp [traceParams, tracePatterns, Param.decorators, Param.pattern]
  cases m <;>
    simp [memberOuter, memberScope, Scope.trace, Piece.trace, Visit.trace, traceMembers,
      traceExprs_option, hparams]

theorem trace_attr (a : Attr) : traceAttrs s [a] = expand (attrOuter s a) := by
  cases a <;> simp [attrOuter, traceAttrs, traceExprs, traceExprs_option]

/-- A declared variable opens no scope. -/
theorem trace_declarator (place : Place) (d : Declarator) :
    traceDeclarators s place [d] = expand (declaratorOuter s place d) := by
  obtain ⟨span, target, init⟩ := d
  have hsettled : expand (init.toList.map fun e => .part s (.expr [] true e)) = traceSettled s init := by
    cases init <;> simp [Piece.trace, Visit.trace, traceSettled]
  simp only [traceDeclarators, declaratorOuter, List.append_nil]
  cases unwrapCallee? s init with
  | none => simp [tracePatterns, traceExprs_option]
  | some callee =>
    dsimp only
    rw [expand_append, hsettled]
    cases unwrapEvents? s place span.hi callee target <;> simp [tracePatterns]

/-- As for expressions: outside of the scope first. -/
theorem trace_stmt (st : Stmt) :
    traceStmt s st = expand (stmtOuter s st) ++ (stmtScope s st).toList.flatMap Scope.trace := by
  have hdeclarators (place : Place) (decls : List Declarator) :
      expand (decls.map fun d => .part s (.declarator place d)) = traceDeclarators s place decls := by
    rw [expand_parts, traceDeclarators_eq]
    rfl
  have hresources (decls : List Declarator) :
      expand (decls.flatMap (resourceOuter s)) = traceResources s decls := by
    induction decls with
    | nil => simp [traceResources]
    | cons d decls ih =>
      cases d
      simp [resourceOuter, traceResources, tracePatterns, traceExprs_option, ih]
  cases st with
  | function span name fn =>
    cases fn
    simp [stmtOuter, stmtScope, Piece.trace, Visit.trace, traceStmt]
  | _ =>
    simp [stmtOuter, stmtScope, Scope.trace, Piece.trace, Visit.trace, traceStmt, traceExprs,
      traceStmts, traceExprs_option, hdeclarators, hresources]

/-- A walk makes the events of the outline, the scope at the end. -/
theorem trace_eq (v : Visit) :
    v.trace s = expand (v.outer s) ++ (v.scope? s).toList.flatMap Scope.trace := by
  cases v with
  | expr chain settled e => exact trace_expr s chain settled e
  | property p => exact trace_property s p
  | member m => exact trace_member s m
  | stmt st => exact trace_stmt s st
  | func f => simpa [Visit.trace, outer, scope?] using trace_func s f
  | pattern p => simpa [Visit.trace, outer, scope?] using trace_pattern s p
  | target p => simpa [Visit.trace, outer, scope?] using trace_target s p
  | field f => simpa [Visit.trace, outer, scope?] using trace_field s f
  | targetField f => simpa [Visit.trace, outer, scope?] using trace_targetField s f
  | attr a => simpa [Visit.trace, outer, scope?] using trace_attr s a
  | declarator place d => simpa [Visit.trace, outer, scope?] using trace_declarator s place d
  | cls c =>
    obtain ⟨decorators, members, heritage⟩ := c
    have hmembers : expand (members.map fun m => .part s (.member m)) = traceMembers s members := by
      rw [expand_parts, traceMembers_eq]
      rfl
    simp [Visit.trace, outer, scope?, traceClass, hmembers]

end Visit

/-- The second node stands properly below the first. -/
def Below (n m : Node) : Prop :=
  ∃ c ∈ n.children, Node.Reaches Node.children c m

theorem Below.child {n c : Node} (h : c ∈ n.children) : Below n c :=
  ⟨c, h, .refl c⟩

/-- What a walk depends on below a node. The value of an attribute may be left alone. -/
inductive Under (s : Setting) : Node → Setting → Prop
  | same (n : Node) : Under s n s
  | value (name : AttrName) (braced : Bool) (value : Option Expr) :
    Under s (.attr (.named name braced value))
      { s with isExempt := s.isExempt || s.isExemptAttr name }

theorem Under.eq {s s' : Setting} {n : Node} (h : Under s n s') :
    ∃ b, s' = { s with isExempt := b } := by
  cases h <;> exact ⟨_, rfl⟩

/-- The parts among the pieces stand below the node, and are walked with what the walk depends on
there. -/
def Inside (s : Setting) (n : Node) (ps : List Piece) : Prop :=
  ∀ s' v, .part s' v ∈ ps → Under s n s' ∧ Below n v.node

def Visit.pieces (s : Setting) (v : Visit) : List Piece :=
  v.outer s ++ (v.scope? s).toList.flatMap Scope.pieces

theorem Below.item {n : Node} {e : Expr} (h : ∃ i, .item i ∈ n.children ∧ i.expr? = some e) :
    Below n (.expr e) := by
  obtain ⟨i, hi, he⟩ := h
  exact ⟨_, hi, .step (by simp [he]) (.refl _)⟩

theorem Below.key {n : Node} {e : Expr} (h : .key (.computed e) ∈ n.children) : Below n (.expr e) :=
  ⟨_, h, .step (by simp) (.refl _)⟩

theorem Below.param {n : Node} {p : Pattern}
    (h : ∃ param, .param param ∈ n.children ∧ param.pattern = p) : Below n (.pattern p) := by
  obtain ⟨⟨_, _⟩, hparam, rfl⟩ := h
  exact ⟨_, hparam, .step (by simp [Param.pattern]) (.refl _)⟩

theorem Below.decorator {n : Node} {e : Expr}
    (h : ∃ param, .param param ∈ n.children ∧ e ∈ param.decorators) : Below n (.expr e) := by
  obtain ⟨⟨_, _⟩, hparam, he⟩ := h
  exact ⟨_, hparam, .step (by simp_all [Param.decorators]) (.refl _)⟩

section Below
variable {s s' : Setting} {v' : Visit}

theorem part_mem_keyPieces {k : Key} : .part s' v' ∈ keyPieces s k ↔
    s' = s ∧ ∃ e, k = .computed e ∧ v' = .expr [] false e := by
  cases k <;> simp [keyPieces, values]

attribute [local simp] values patterns stmtPieces itemPieces events Visit.pieces Visit.outer
  Visit.scope? arrowPieces part_mem_keyPieces
attribute [local grind ←] Below.child Below.item Below.key Below.param Below.decorator
attribute [local grind] Node.children Node.ofExpr Node.ofProperty Node.ofPattern Node.ofField
  Node.ofMember Node.ofStmt Visit.node

/-- The parts of an expression stand below it. -/
theorem below_of_expr {chain : List Span} {settled : Bool} {e : Expr}
    (h : .part s' v' ∈ Visit.pieces s (.expr chain settled e)) :
    s' = s ∧ Below (.expr e) v'.node := by
  cases e with
  | update span operand => cases operand <;> simp [exprOuter, exprScope] at h <;> grind
  | function span name fn | classDef span name cls =>
    cases name <;> simp [exprOuter, exprScope] at h <;> grind
  | _ => simp [exprOuter, exprScope] at h <;> grind

/-- The parts of a statement stand below it. -/
theorem below_of_stmt {st : Stmt} (h : .part s' v' ∈ Visit.pieces s (.stmt st)) :
    s' = s ∧ Below (.stmt st) v'.node := by
  cases st with
  | function span name fn =>
    cases fn
    simp [stmtOuter, stmtScope] at h
    grind
  | resource span decls =>
    simp [stmtOuter, stmtScope] at h
    obtain ⟨⟨dspan, target, init⟩, hd, h⟩ := h
    have hbelow {c : Node} (hc : c ∈ (Node.declarator (.mk dspan target init)).children) :
        Below (.stmt (.resource span decls)) c :=
      ⟨.declarator (.mk dspan target init), by simp [hd], .step hc (.refl _)⟩
    simp [resourceOuter] at h
    grind
  | _ => simp [stmtOuter, stmtScope] at h <;> grind

theorem below_of_member {m : Member} (h : .part s' v' ∈ Visit.pieces s (.member m)) :
    s' = s ∧ Below (.member m) v'.node := by
  cases m <;> simp [memberOuter, memberScope] at h <;> grind

theorem below_of_func {f : Func} (h : .part s' v' ∈ Visit.pieces s (.func f)) :
    s' = s ∧ Below (.func f) v'.node := by
  obtain ⟨decorators, params, body⟩ := f
  simp [funcScope] at h
  rcases h with ⟨e, he, rfl, rfl⟩ | ⟨p, hp, rfl, rfl⟩ | ⟨e, ⟨p, hp, he⟩, rfl, rfl⟩ |
    ⟨st, hst, rfl, rfl⟩
  · exact ⟨rfl, .child (by simp [he])⟩
  · exact ⟨rfl, .param ⟨p, by simp [hp], rfl⟩⟩
  · exact ⟨rfl, .decorator ⟨p, by simp [hp], he⟩⟩
  · exact ⟨rfl, .child (by simp [hst])⟩

theorem below_of_declarator {place : Place} {d : Declarator}
    (h : .part s' v' ∈ Visit.pieces s (.declarator place d)) :
    s' = s ∧ Below (.declarator d) v'.node := by
  obtain ⟨span, binding, init⟩ := d
  simp [declaratorOuter] at h
  split at h <;> (try split at h) <;> simp at h <;> grind

/-- The parts of a visit stand below its node. -/
theorem Visit.pieces_inside (s : Setting) (v : Visit) : Inside s v.node (v.pieces s) := by
  intro s' v' h
  have hsame {n : Node} (h : s' = s ∧ Below n v'.node) : Under s n s' ∧ Below n v'.node :=
    ⟨h.1 ▸ .same n, h.2⟩
  cases v with
  | expr chain settled e => exact hsame (below_of_expr h)
  | stmt st => exact hsame (below_of_stmt h)
  | member m => exact hsame (below_of_member h)
  | declarator place d => exact hsame (below_of_declarator h)
  | attr a =>
    cases a with
    | spread e => exact hsame (by simp [attrOuter] at h; grind)
    | named name braced value =>
      simp [attrOuter] at h
      obtain ⟨e, rfl, rfl, rfl⟩ := h
      exact ⟨.value name braced _, .child (by simp)⟩
  | property p => exact hsame (by cases p <;> simp [propertyOuter, propertyScope] at h <;> grind)
  | pattern p => exact hsame (by cases p <;> simp [patternOuter] at h <;> grind)
  | target p => exact hsame (by cases p <;> simp [targetOuter] at h <;> grind)
  | field f => exact hsame (by cases f <;> simp [fieldOuter] at h <;> grind)
  | targetField f => exact hsame (by cases f <;> simp [targetFieldOuter] at h <;> grind)
  | func f => exact hsame (below_of_func h)
  | cls c =>
    obtain ⟨decorators, members, heritage⟩ := c
    exact hsame (by simp at h; grind)

end Below

namespace Visit

/-- What happens right inside of a scope is that names are declared there. -/
theorem scope_event {s : Setting} {v : Visit} {S : Scope} (hS : v.scope? s = some S) {ev : Event}
    (hev : .event ev ∈ S.pieces) : ∃ name, ev = .known .current name := by
  have hdeclared {names : List String} (h : ev ∈ declareAll .current names) :
      ∃ name, ev = .known .current name := by
    obtain ⟨name, _, rfl⟩ := List.mem_map.mp h
    exact ⟨name, rfl⟩
  cases v with
  | expr chain settled e =>
    simp only [scope?, exprScope] at hS
    split at hS <;> cases hS
    · exact ⟨_, by simpa using hev⟩
    · exact ⟨_, by simpa using hev⟩
    · exact hdeclared (by simpa using hev)
    · exact hdeclared (by simpa using hev)
  | property p =>
    simp only [scope?, propertyScope] at hS
    split at hS <;> cases hS
    · simp at hev
    · exact hdeclared (by simpa using hev)
  | func f =>
    obtain ⟨decorators, params, body⟩ := f
    cases hS
    exact hdeclared (by simpa [funcScope] using hev)
  | member m =>
    simp only [scope?, memberScope] at hS
    split at hS <;> cases hS
    · exact hdeclared (by simpa using hev)
    · simp at hev
  | stmt st =>
    simp only [scope?, stmtScope] at hS
    split at hS <;> cases hS
    all_goals
      first
      | exact hdeclared (by simpa using hev)
      | simp at hev
  | pattern _ | target _ | field _ | targetField _ | cls _ | attr _ | declarator _ _ => cases hS

end Visit

theorem Below.sizeOf_lt {n m : Node} (h : Below n m) : sizeOf m < sizeOf n := by
  obtain ⟨c, hc, hm⟩ := h
  have hle : sizeOf m ≤ sizeOf c := by
    clear hc
    induction hm with
    | refl n => exact Nat.le_refl _
    | step hc _ ih => exact Nat.le_trans ih (Nat.le_of_lt (Node.sizeOf_lt_of_mem_children hc))
  exact Nat.lt_of_le_of_lt hle (Node.sizeOf_lt_of_mem_children hc)

/-- What holds of a visit as soon as it holds of its parts holds of all visits. -/
theorem Visit.induct {motive : Setting → Visit → Prop}
    (step : ∀ s v, (∀ s' v', .part s' v' ∈ v.pieces s → motive s' v') → motive s v)
    (s : Setting) (v : Visit) : motive s v :=
  step s v fun s' v' _ => Visit.induct step s' v'
termination_by sizeOf v.node
decreasing_by exact (v.pieces_inside s s' v' (by assumption)).2.sizeOf_lt

theorem mem_expand {ev : Event} {ps : List Piece} (h : ev ∈ expand ps) :
    .event ev ∈ ps ∨ ∃ s v, .part s v ∈ ps ∧ ev ∈ v.trace s := by
  obtain ⟨p, hp, hev⟩ := List.mem_flatMap.mp h
  cases p with
  | event e => exact .inl (List.mem_singleton.mp hev ▸ hp)
  | part s v => exact .inr ⟨s, v, hp, hev⟩

/-- An event of a visit opens or closes its scope, or belongs to a piece of it. -/
theorem Visit.mem_trace_cases {s : Setting} {v : Visit} {ev : Event} (h : ev ∈ v.trace s) :
    (∃ kind, ev = .enter kind) ∨ ev = .leave ∨ ev ∈ expand (v.pieces s) := by
  rw [trace_eq, List.mem_append] at h
  rw [pieces, expand_append, List.mem_append]
  rcases h with h | h
  · exact .inr (.inr (.inl h))
  · cases hS : v.scope? s with
    | none => simp [hS] at h
    | some S =>
      simp only [hS, Option.toList_some, List.flatMap_cons, List.flatMap_nil, List.append_nil,
        Scope.trace, framed, List.cons_append, List.mem_cons, List.mem_append, List.not_mem_nil,
        or_false] at h ⊢
      rcases h with rfl | h | rfl
      · exact .inl ⟨S.kind, rfl⟩
      · exact .inr (.inr (.inr h))
      · exact .inr (.inl rfl)

/-- Every event of a walk opens or closes a scope, or comes from a node that the walk visits. -/
theorem Visit.mem_trace (s : Setting) (v : Visit) :
    ∀ ev ∈ v.trace s, (∃ kind, ev = .enter kind) ∨ ev = .leave ∨
      ∃ (b : Bool) (v' : Visit), Node.Reaches Node.children v.node v'.node ∧
        .event ev ∈ v'.pieces { s with isExempt := b } := by
  induction s, v using Visit.induct with
  | step s v ih =>
    intro ev hev
    rcases mem_trace_cases hev with h | h | h
    · exact .inl h
    · exact .inr (.inl h)
    · rcases mem_expand h with h | ⟨s', v', hpart, h⟩
      · exact .inr (.inr ⟨s.isExempt, v, .refl _, h⟩)
      · obtain ⟨hunder, c, hc, hreach⟩ := v.pieces_inside s s' v' hpart
        obtain ⟨b, rfl⟩ := hunder.eq
        rcases ih _ v' hpart ev h with h | h | ⟨b', w, hw, h⟩
        · exact .inl h
        · exact .inr (.inl h)
        · exact .inr (.inr ⟨b', w, .step hc (hreach.trans hw), h⟩)

end Walk

end RefSugar
