import RefSugar.Walk.Run

/-! Walks that keep their surroundings. The events of a tree are told with the chain of a reference and
the exemption around it handed down. A walker keeps both as it goes along: the links of a chain are put
down on the way to its head, taken by the name there and dropped where anything else is met, and the
attributes that are left alone are counted on the way in and on the way out. Main statements: a walker
makes the events of the tree, has no chain left behind any node and is as deep in exempt attributes as
before; so scripts and lone expressions come to what a walker makes of them. -/
namespace RefSugar.Walk

open Syntax

structure Walker where
  run : Run
  /-- The spans of the expressions whose head is still to come, outermost first. -/
  chain : List Span := []
  /-- How many of the attributes around are left alone. -/
  exemptDepth : Nat := 0

namespace Walker

def act (source : List Char) (w : Walker) (events : List Event) : Walker :=
  { w with run := w.run.steps source events }

def link (w : Walker) (span : Span) : Walker :=
  { w with chain := w.chain ++ [span] }

def clear (w : Walker) : Walker :=
  { w with chain := [] }

def record (w : Walker) (m : Mention) : Walker :=
  { w.clear with run := w.run.refer { m with chain := w.chain, isExempt := decide (0 < w.exemptDepth) } }

def inFrame (w : Walker) (kind : FrameKind) (inside : Walker → Walker) : Walker :=
  let w := inside { w with run := { w.run with scopes := w.run.scopes.enter kind } }
  { w with run := { w.run with scopes := w.run.scopes.leave } }

def inAttr (w : Walker) (exempt : Bool) (inside : Walker → Walker) : Walker :=
  let w := inside (if exempt then { w with exemptDepth := w.exemptDepth + 1 } else w)
  if exempt then { w with exemptDepth := w.exemptDepth - 1 } else w

mutual

def visitExpr (s : Setting) (settled : Bool) (w : Walker) : Expr → Walker
  | .name id => w.record { id }
  | .field span _ object => (visitExpr s false (w.link span) object).clear
  | .index span _ object key => visitExpr s false (visitExpr s false (w.link span) object).clear key
  | .call span _ callee args =>
    let w := (w.act s.source (callEvents s settled callee args)).link span
    visitItems s (visitExpr s false w callee).clear args
  | .keywordCall span args => visitItems s (w.link span).clear args
  | .wrapped span kind inner =>
    visitExpr s (settled && (kind == .parens || kind == .nonNull)) (w.link span) inner
  | .assign _ _ target value => visitExpr s false (visitTarget s w.clear target) value
  | .update _ (.name id) => w.clear.record { id, isWrite := true }
  | .update _ operand => visitExpr s false w.clear operand
  | .array _ items => visitItems s w.clear items
  | .object _ properties => visitProperties s w.clear properties
  | .function _ none fn => visitFunc s w.clear fn
  | .function _ (some name) fn =>
    w.clear.inFrame .block fun w => visitFunc s (w.act s.source [.known .current name.name]) fn
  | .arrow _ params body =>
    w.clear.inFrame .function fun w =>
      let w := w.act s.source (declareAll .current (boundNamesAll params))
      visitStmts s (visitPatterns s w params) body
  | .arrowTo _ params result =>
    w.clear.inFrame .function fun w =>
      let w := w.act s.source (declareAll .current (boundNamesAll params))
      visitExpr s false (visitPatterns s w params) result
  | .classDef _ none cls => visitClass s w.clear cls
  | .classDef _ (some name) cls =>
    w.clear.inFrame .block fun w => visitClass s (w.act s.source [.known .current name.name]) cls
  | .element _ attrs children => visitExprs s (visitAttrs s w.clear attrs) children
  | .compound _ _ parts => visitExprs s w.clear parts

def visitExprs (s : Setting) (w : Walker) : List Expr → Walker
  | [] => w
  | e :: es => visitExprs s (visitExpr s false w e) es

def visitOption (s : Setting) (w : Walker) : Option Expr → Walker
  | none => w
  | some e => visitExpr s false w e

def visitItems (s : Setting) (w : Walker) : List Item → Walker
  | [] => w
  | .hole :: items => visitItems s w items
  | .one e :: items => visitItems s (visitExpr s false w e) items
  | .spread e :: items => visitItems s (visitExpr s false w e) items

def visitProperties (s : Setting) (w : Walker) : List Property → Walker
  | [] => w
  | .shorthand id :: ps => visitProperties s (w.clear.record { id, isShorthand := true }) ps
  | .pair key value :: ps => visitProperties s (visitExpr s false (visitKey s w key) value) ps
  | .default _ value :: ps => visitProperties s (visitExpr s false w value) ps
  | .getter _ key body :: ps =>
    visitProperties s ((visitKey s w key).inFrame .block fun w => visitStmts s w body) ps
  | .setter _ key param body :: ps =>
    let w := (visitKey s w key).inFrame .function fun w =>
      let w := w.act s.source (declareAll .current (boundNames param))
      visitStmts s (visitPattern s w param) body
    visitProperties s w ps
  | .method _ key fn :: ps => visitProperties s (visitFunc s (visitKey s w key) fn) ps
  | .spread e :: ps => visitProperties s (visitExpr s false w e) ps

def visitKey (s : Setting) (w : Walker) : Key → Walker
  | .computed e => visitExpr s false w e
  | .name _ | .string _ | .number _ | .other => w

def visitPattern (s : Setting) (w : Walker) : Pattern → Walker
  | .name _ | .hole | .invalid => w
  | .object _ fields => visitFields s w fields
  | .array _ items => visitPatterns s w items
  | .default target value => visitExpr s false (visitPattern s w target) value
  | .rest target => visitPattern s w target
  | .expr e => visitExpr s false w e

def visitPatterns (s : Setting) (w : Walker) : List Pattern → Walker
  | [] => w
  | p :: ps => visitPatterns s (visitPattern s w p) ps

def visitFields (s : Setting) (w : Walker) : List PatternField → Walker
  | [] => w
  | .shorthand _ value :: fields => visitFields s (visitOption s w value) fields
  | .pair key value :: fields => visitFields s (visitPattern s (visitKey s w key) value) fields
  | .rest target :: fields => visitFields s (visitPattern s w target) fields

def visitTarget (s : Setting) (w : Walker) : Pattern → Walker
  | .name id => w.record { id, isWrite := true }
  | .object _ fields => visitTargetFields s w fields
  | .array _ items => visitTargets s w items
  | .default target value => visitExpr s false (visitTarget s w target) value
  | .rest target => visitTarget s w target
  | .expr e => visitExpr s false w e
  | .hole | .invalid => w

def visitTargets (s : Setting) (w : Walker) : List Pattern → Walker
  | [] => w
  | p :: ps => visitTargets s (visitTarget s w p) ps

def visitTargetFields (s : Setting) (w : Walker) : List PatternField → Walker
  | [] => w
  | .shorthand id value :: fields =>
    let w := w.record { id, isWrite := true, isShorthand := true }
    visitTargetFields s (visitOption s w value) fields
  | .pair key value :: fields => visitTargetFields s (visitTarget s (visitKey s w key) value) fields
  | .rest target :: fields => visitTargetFields s (visitTarget s w target) fields

def visitParamPatterns (s : Setting) (w : Walker) : List Param → Walker
  | [] => w
  | .mk _ pattern :: ps => visitParamPatterns s (visitPattern s w pattern) ps

def visitParamDecorators (s : Setting) (w : Walker) : List Param → Walker
  | [] => w
  | .mk decorators _ :: ps => visitParamDecorators s (visitExprs s w decorators) ps

def visitParams (s : Setting) (w : Walker) : List Param → Walker
  | [] => w
  | .mk decorators pattern :: ps => visitParams s (visitPattern s (visitExprs s w decorators) pattern) ps

def visitFunc (s : Setting) (w : Walker) : Func → Walker
  | .mk decorators params body =>
    w.inFrame .function fun w =>
      let w := (visitExprs s w decorators).act s.source (declareAll .current (paramNames params))
      visitStmts s (visitParamDecorators s (visitParamPatterns s w params) params) body

def visitClass (s : Setting) (w : Walker) : Syntax.Class → Walker
  | .mk decorators members heritage =>
    visitExprs s (visitMembers s (visitExprs s w decorators) members) heritage

def visitMembers (s : Setting) (w : Walker) : List Member → Walker
  | [] => w
  | .method key fn :: ms => visitMembers s (visitFunc s (visitKey s w key) fn) ms
  | .constructor params body :: ms =>
    let w := w.inFrame .function fun w =>
      let w := w.act s.source (declareAll .current (paramNames params))
      visitStmts s (visitParams s w params) body
    visitMembers s w ms
  | .property key value decorators :: ms =>
    visitMembers s (visitExprs s (visitOption s (visitKey s w key) value) decorators) ms
  | .staticBlock body :: ms => visitMembers s (w.inFrame .block fun w => visitStmts s w body) ms

def visitAttrs (s : Setting) (w : Walker) : List Attr → Walker
  | [] => w
  | .spread e :: attrs => visitAttrs s (visitExpr s false w e) attrs
  | .named name braced value :: attrs =>
    let w := (w.act s.source (attrEvents s name braced value)).inAttr (s.isExemptAttr name) fun w =>
      visitOption s w value
    visitAttrs s w attrs

def visitStmt (s : Setting) (w : Walker) : Stmt → Walker
  | .expr _ e => visitExpr s false w e
  | .block _ body => w.inFrame .block fun w => visitStmts s w body
  | .ret _ value => visitOption s w value
  | .vars _ kind decls =>
    visitDeclarators s (if kind = .hoisted then .hoisted else .current) w decls
  | .resource _ decls => visitResources s w decls
  | .function _ name (.mk decorators params body) =>
    let w := w.act s.source (.known .current name.name :: functionNameEvents s name body)
    visitFunc s w (.mk decorators params body)
  | .classDef _ name cls => visitClass s (w.act s.source [.known .current name.name]) cls
  | .enumeration _ name values => visitExprs s (w.act s.source [.known .current name.name]) values
  | .imports _ locals => w.act s.source (declareAll .current (locals.map Ident.name))
  | .exported _ decl => visitStmt s w decl
  | .loop _ start parts body =>
    w.inFrame .loop fun w => visitStmt s (visitExprs s (visitStmts s w start) parts) body
  | .loopOver _ source decl body =>
    (visitExpr s false w source).inFrame .loop fun w => visitStmt s (visitStmt s w decl) body
  | .loopInto _ source target body =>
    (visitExpr s false w source).inFrame .loop fun w => visitStmt s (visitTarget s w target) body
  | .switch _ subject cases =>
    (visitExpr s false w subject).inFrame .block fun w => visitStmts s w cases
  | .handler _ params body =>
    w.inFrame .handler fun w =>
      let w := w.act s.source (declareAll .current (boundNamesAll params))
      visitStmts s (visitPatterns s w params) body
  | .space _ body => visitStmts s w body
  | .group _ parts body => visitStmts s (visitExprs s w parts) body

def visitStmts (s : Setting) (w : Walker) : List Stmt → Walker
  | [] => w
  | st :: sts => visitStmts s (visitStmt s w st) sts

def visitDeclarators (s : Setting) (place : Place) (w : Walker) : List Declarator → Walker
  | [] => w
  | .mk span target init :: decls =>
    let w :=
      match unwrapCallee? s init with
      | none =>
        let events := declareAll place (boundNames target) ++ functionValueEvents s target init
        visitOption s (visitPattern s (w.act s.source events) target) init
      | some callee =>
        let w :=
          match unwrapEvents? s place span.hi callee target with
          | some events => w.act s.source events
          | none => visitPattern s (w.act s.source (declareAll place (boundNames target))) target
        visitSettled s w init
    visitDeclarators s place w decls

def visitSettled (s : Setting) (w : Walker) : Option Expr → Walker
  | none => w
  | some e => visitExpr s true w e

def visitResources (s : Setting) (w : Walker) : List Declarator → Walker
  | [] => w
  | .mk _ target init :: decls => visitResources s (visitOption s (visitPattern s w target) init) decls

end

/-- From wherever it starts with the chain, the step makes the events, drops the chain and is as deep
in exempt attributes as before. The events depend on whether it is in any. -/
def Makes (s : Setting) (chain : List Span) (step : Walker → Walker) (events : Bool → List Event) :
    Prop :=
  ∀ w : Walker, w.chain = chain →
    step w = w.clear.act s.source (events (decide (0 < w.exemptDepth)))

section Steps

variable {s : Setting} {chain : List Span} {step next : Walker → Walker}
  {events more : Bool → List Event}

theorem clear_eq_self {w : Walker} (h : w.chain = []) : w.clear = w := by
  rw [clear, ← h]

theorem act_append (source : List Char) (w : Walker) (events more : List Event) :
    (w.act source events).act source more = w.act source (events ++ more) := by
  simp [act, Run.steps]

theorem Makes.nothing : Makes s [] (fun w => w) fun _ => [] :=
  fun _ h => (clear_eq_self h).symm

theorem Makes.acts (events : List Event) : Makes s [] (·.act s.source events) fun _ => events :=
  fun _ h => by rw [clear_eq_self h]

theorem Makes.record (m : Mention) :
    Makes s chain (·.record m) fun b => [mention { s with isExempt := b } { m with chain }] := by
  rintro w rfl
  rfl

/-- One step behind another makes the events of both. -/
theorem Makes.andThen (h : Makes s chain step events) (hnext : Makes s [] next more) :
    Makes s chain (fun w => next (step w)) fun b => events b ++ more b := by
  intro w hw
  have hstep := h w hw
  have hclear : (step w).chain = [] := by
    rw [hstep]
    rfl
  calc next (step w)
      = (step w).clear.act s.source (more (decide (0 < (step w).exemptDepth))) := hnext _ hclear
    _ = (w.clear.act s.source (events (decide (0 < w.exemptDepth)))).act s.source
          (more (decide (0 < w.exemptDepth))) := by
        rw [clear_eq_self hclear, hstep]
        rfl
    _ = _ := act_append ..

/-- Events before anything else leave the chain alone. -/
theorem Makes.acting (h : Makes s chain step events) (first : List Event) :
    Makes s chain (fun w => step (w.act s.source first)) fun b => first ++ events b := by
  intro w hw
  exact (h (w.act s.source first) hw).trans (act_append s.source w.clear first _)

theorem Makes.link {span : Span} (h : Makes s (chain ++ [span]) step events) :
    Makes s chain (fun w => step (w.link span)) events := by
  rintro w rfl
  exact h (w.link span) rfl

/-- Something else than a link of the chain is met. -/
theorem Makes.cleared (h : Makes s [] step events) : Makes s chain (fun w => step w.clear) events :=
  fun w _ => h w.clear rfl

theorem Makes.clear (h : Makes s chain step events) :
    Makes s chain (fun w => (step w).clear) events := by
  intro w hw
  exact congrArg Walker.clear (h w hw)

/-- Inside of a frame the events stand between its opening and its closing. -/
theorem Makes.inFrame (h : Makes s [] step events) (kind : FrameKind) :
    Makes s [] (·.inFrame kind step) fun b => framed kind (events b) := by
  intro w hw
  have hinside := h (w.act s.source [.enter kind]) hw
  calc w.inFrame kind step
      = (step (w.act s.source [.enter kind])).act s.source [.leave] := rfl
    _ = ((w.clear.act s.source [.enter kind]).act s.source
          (events (decide (0 < w.exemptDepth)))).act s.source [.leave] := by
        rw [hinside]
        rfl
    _ = _ := by
        rw [act_append, act_append]
        rfl

/-- Inside of an attribute that is left alone the walker is exempt, and behind it as it was before. -/
theorem Makes.inAttr (h : Makes s [] step events) (exempt : Bool) :
    Makes s [] (·.inAttr exempt step) fun b => events (b || exempt) := by
  intro w hw
  cases exempt with
  | false => simpa [Walker.inAttr] using h w hw
  | true =>
    -- inside, the depth is positive whatever it was before
    have hinside := h { w with exemptDepth := w.exemptDepth + 1 } hw
    simp [Walker.inAttr, hinside, act, Walker.clear]

end Steps

section Updates

variable {operand : Expr} (s : Setting) (settled : Bool) (span : Span)

theorem visitExpr_update (w : Walker) (h : ¬ ∃ id, operand = .name id) :
    w.visitExpr s settled (.update span operand) = w.clear.visitExpr s false operand := by
  cases operand with
  | name id => exact absurd ⟨id, rfl⟩ h
  | _ => rfl

theorem traceExpr_update (chain : List Span) (h : ¬ ∃ id, operand = .name id) :
    traceExpr s chain settled (.update span operand) = traceExpr s [] false operand := by
  cases operand with
  | name id => exact absurd ⟨id, rfl⟩ h
  | _ => rfl

end Updates

-- One case per form of syntax: the parts of a node are visited one after the other.
mutual

/-- Going down to the head puts down the links that the trace is handed. -/
theorem visitExpr_makes (s : Setting) : ∀ (e : Expr) (settled : Bool) (chain : List Span),
    Makes s chain (visitExpr s settled · e) fun b =>
      traceExpr { s with isExempt := b } chain settled e
  | .name id, _, _ => .record { id }
  | .field span _ object, _, chain => (visitExpr_makes s object false (chain ++ [span])).link.clear
  | .index span _ object key, _, chain =>
    ((visitExpr_makes s object false (chain ++ [span])).link.clear.andThen
      (visitExpr_makes s key false []) :)
  | .call span _ callee args, settled, chain =>
    (((visitExpr_makes s callee false (chain ++ [span])).link.acting
      (callEvents s settled callee args)).clear.andThen (visitItems_makes s args) :)
  | .keywordCall _ args, _, _ => (visitItems_makes s args).cleared
  | .wrapped span kind inner, settled, chain =>
    (visitExpr_makes s inner (settled && (kind == .parens || kind == .nonNull)) (chain ++ [span])).link
  | .assign _ _ target value, _, _ =>
    ((visitTarget_makes s target).andThen (visitExpr_makes s value false [])).cleared
  | .update span operand, settled, chain => by
    by_cases hname : ∃ id, operand = .name id
    · obtain ⟨id, rfl⟩ := hname
      exact (Makes.record { id, isWrite := true }).cleared
    · simp only [visitExpr_update s settled span _ hname, traceExpr_update _ settled span chain hname]
      exact (visitExpr_makes s operand false []).cleared
  | .array _ items, _, _ => (visitItems_makes s items).cleared
  | .object _ properties, _, _ => (visitProperties_makes s properties).cleared
  | .function _ none fn, _, _ => (visitFunc_makes s fn).cleared
  | .function _ (some name) fn, _, _ =>
    (((Makes.acts [.known .current name.name]).andThen (visitFunc_makes s fn)).inFrame .block).cleared
  | .arrow _ params body, _, _ =>
    ((((Makes.acts (declareAll .current (boundNamesAll params))).andThen
      (visitPatterns_makes s params)).andThen (visitStmts_makes s body)).inFrame .function).cleared
  | .arrowTo _ params result, _, _ =>
    ((((Makes.acts (declareAll .current (boundNamesAll params))).andThen
      (visitPatterns_makes s params)).andThen (visitExpr_makes s result false [])).inFrame
        .function).cleared
  | .classDef _ none cls, _, _ => (visitClass_makes s cls).cleared
  | .classDef _ (some name) cls, _, _ =>
    (((Makes.acts [.known .current name.name]).andThen (visitClass_makes s cls)).inFrame .block).cleared
  | .element _ attrs children, _, _ =>
    ((visitAttrs_makes s attrs).andThen (visitExprs_makes s children)).cleared
  | .compound _ _ parts, _, _ => (visitExprs_makes s parts).cleared

theorem visitExprs_makes (s : Setting) : ∀ es : List Expr,
    Makes s [] (visitExprs s · es) fun b => traceExprs { s with isExempt := b } es
  | [] => .nothing
  | e :: es => ((visitExpr_makes s e false []).andThen (visitExprs_makes s es) :)

theorem visitOption_makes (s : Setting) : ∀ value : Option Expr,
    Makes s [] (visitOption s · value) fun b => traceOption { s with isExempt := b } value
  | none => .nothing
  | some e => visitExpr_makes s e false []

theorem visitItems_makes (s : Setting) : ∀ items : List Item,
    Makes s [] (visitItems s · items) fun b => traceItems { s with isExempt := b } items
  | [] => .nothing
  | .hole :: items => visitItems_makes s items
  | .one e :: items | .spread e :: items =>
    ((visitExpr_makes s e false []).andThen (visitItems_makes s items) :)

theorem visitProperties_makes (s : Setting) : ∀ ps : List Property,
    Makes s [] (visitProperties s · ps) fun b => traceProperties { s with isExempt := b } ps
  | [] => .nothing
  | .shorthand id :: ps =>
    ((Makes.record { id, isShorthand := true }).cleared.andThen (visitProperties_makes s ps) :)
  | .pair key value :: ps =>
    (((visitKey_makes s key).andThen (visitExpr_makes s value false [])).andThen
      (visitProperties_makes s ps) :)
  | .default _ value :: ps | .spread value :: ps =>
    ((visitExpr_makes s value false []).andThen (visitProperties_makes s ps) :)
  | .getter _ key body :: ps =>
    (((visitKey_makes s key).andThen ((visitStmts_makes s body).inFrame .block)).andThen
      (visitProperties_makes s ps) :)
  | .setter _ key param body :: ps =>
    (((visitKey_makes s key).andThen ((((Makes.acts (declareAll .current (boundNames param))).andThen
      (visitPattern_makes s param)).andThen (visitStmts_makes s body)).inFrame .function)).andThen
        (visitProperties_makes s ps) :)
  | .method _ key fn :: ps =>
    (((visitKey_makes s key).andThen (visitFunc_makes s fn)).andThen (visitProperties_makes s ps) :)

theorem visitKey_makes (s : Setting) : ∀ key : Key,
    Makes s [] (visitKey s · key) fun b => traceKey { s with isExempt := b } key
  | .computed e => visitExpr_makes s e false []
  | .name _ | .string _ | .number _ | .other => .nothing

theorem visitPattern_makes (s : Setting) : ∀ p : Pattern,
    Makes s [] (visitPattern s · p) fun b => tracePattern { s with isExempt := b } p
  | .name _ | .hole | .invalid => .nothing
  | .object _ fields => visitFields_makes s fields
  | .array _ items => visitPatterns_makes s items
  | .default target value => ((visitPattern_makes s target).andThen (visitExpr_makes s value false []) :)
  | .rest target => visitPattern_makes s target
  | .expr e => visitExpr_makes s e false []

theorem visitPatterns_makes (s : Setting) : ∀ ps : List Pattern,
    Makes s [] (visitPatterns s · ps) fun b => tracePatterns { s with isExempt := b } ps
  | [] => .nothing
  | p :: ps => ((visitPattern_makes s p).andThen (visitPatterns_makes s ps) :)

theorem visitFields_makes (s : Setting) : ∀ fields : List PatternField,
    Makes s [] (visitFields s · fields) fun b => traceFields { s with isExempt := b } fields
  | [] => .nothing
  | .shorthand _ value :: fields => ((visitOption_makes s value).andThen (visitFields_makes s fields) :)
  | .pair key value :: fields =>
    (((visitKey_makes s key).andThen (visitPattern_makes s value)).andThen
      (visitFields_makes s fields) :)
  | .rest target :: fields => ((visitPattern_makes s target).andThen (visitFields_makes s fields) :)

theorem visitTarget_makes (s : Setting) : ∀ p : Pattern,
    Makes s [] (visitTarget s · p) fun b => traceTarget { s with isExempt := b } p
  | .name id => .record { id, isWrite := true }
  | .object _ fields => visitTargetFields_makes s fields
  | .array _ items => visitTargets_makes s items
  | .default target value => ((visitTarget_makes s target).andThen (visitExpr_makes s value false []) :)
  | .rest target => visitTarget_makes s target
  | .expr e => visitExpr_makes s e false []
  | .hole | .invalid => .nothing

theorem visitTargets_makes (s : Setting) : ∀ ps : List Pattern,
    Makes s [] (visitTargets s · ps) fun b => traceTargets { s with isExempt := b } ps
  | [] => .nothing
  | p :: ps => ((visitTarget_makes s p).andThen (visitTargets_makes s ps) :)

theorem visitTargetFields_makes (s : Setting) : ∀ fields : List PatternField,
    Makes s [] (visitTargetFields s · fields) fun b =>
      traceTargetFields { s with isExempt := b } fields
  | [] => .nothing
  | .shorthand id value :: fields =>
    (((Makes.record { id, isWrite := true, isShorthand := true }).andThen
      (visitOption_makes s value)).andThen (visitTargetFields_makes s fields) :)
  | .pair key value :: fields =>
    (((visitKey_makes s key).andThen (visitTarget_makes s value)).andThen
      (visitTargetFields_makes s fields) :)
  | .rest target :: fields =>
    ((visitTarget_makes s target).andThen (visitTargetFields_makes s fields) :)

theorem visitParamPatterns_makes (s : Setting) : ∀ ps : List Param,
    Makes s [] (visitParamPatterns s · ps) fun b => traceParamPatterns { s with isExempt := b } ps
  | [] => .nothing
  | .mk _ pattern :: ps => ((visitPattern_makes s pattern).andThen (visitParamPatterns_makes s ps) :)

theorem visitParamDecorators_makes (s : Setting) : ∀ ps : List Param,
    Makes s [] (visitParamDecorators s · ps) fun b => traceParamDecorators { s with isExempt := b } ps
  | [] => .nothing
  | .mk decorators _ :: ps =>
    ((visitExprs_makes s decorators).andThen (visitParamDecorators_makes s ps) :)

theorem visitParams_makes (s : Setting) : ∀ ps : List Param,
    Makes s [] (visitParams s · ps) fun b => traceParams { s with isExempt := b } ps
  | [] => .nothing
  | .mk decorators pattern :: ps =>
    (((visitExprs_makes s decorators).andThen (visitPattern_makes s pattern)).andThen
      (visitParams_makes s ps) :)

theorem visitFunc_makes (s : Setting) : ∀ fn : Func,
    Makes s [] (visitFunc s · fn) fun b => traceFunc { s with isExempt := b } fn
  | .mk decorators params body =>
    (((((visitExprs_makes s decorators).andThen
      (.acts (declareAll .current (paramNames params)))).andThen
        (visitParamPatterns_makes s params)).andThen (visitParamDecorators_makes s params)).andThen
          (visitStmts_makes s body)).inFrame .function

theorem visitClass_makes (s : Setting) : ∀ cls : Syntax.Class,
    Makes s [] (visitClass s · cls) fun b => traceClass { s with isExempt := b } cls
  | .mk decorators members heritage =>
    (((visitExprs_makes s decorators).andThen (visitMembers_makes s members)).andThen
      (visitExprs_makes s heritage) :)

theorem visitMembers_makes (s : Setting) : ∀ ms : List Member,
    Makes s [] (visitMembers s · ms) fun b => traceMembers { s with isExempt := b } ms
  | [] => .nothing
  | .method key fn :: ms =>
    (((visitKey_makes s key).andThen (visitFunc_makes s fn)).andThen (visitMembers_makes s ms) :)
  | .constructor params body :: ms =>
    (((((Makes.acts (declareAll .current (paramNames params))).andThen
      (visitParams_makes s params)).andThen (visitStmts_makes s body)).inFrame .function).andThen
        (visitMembers_makes s ms) :)
  | .property key value decorators :: ms =>
    ((((visitKey_makes s key).andThen (visitOption_makes s value)).andThen
      (visitExprs_makes s decorators)).andThen (visitMembers_makes s ms) :)
  | .staticBlock body :: ms =>
    (((visitStmts_makes s body).inFrame .block).andThen (visitMembers_makes s ms) :)

theorem visitAttrs_makes (s : Setting) : ∀ attrs : List Attr,
    Makes s [] (visitAttrs s · attrs) fun b => traceAttrs { s with isExempt := b } attrs
  | [] => .nothing
  | .spread e :: attrs => ((visitExpr_makes s e false []).andThen (visitAttrs_makes s attrs) :)
  | .named name braced value :: attrs => by
    -- the events of the name do not depend on exemption, form by form
    have h := ((Makes.acts (attrEvents s name braced value)).andThen
      ((visitOption_makes s value).inAttr (s.isExemptAttr name))).andThen (visitAttrs_makes s attrs)
    cases name <;> exact h

/-- No chain is left behind a statement. -/
theorem visitStmt_makes (s : Setting) : ∀ st : Stmt,
    Makes s [] (visitStmt s · st) fun b => traceStmt { s with isExempt := b } st
  | .expr _ e => visitExpr_makes s e false []
  | .block _ body => (visitStmts_makes s body).inFrame .block
  | .ret _ value => visitOption_makes s value
  | .vars _ kind decls =>
    visitDeclarators_makes s (if kind = .hoisted then .hoisted else .current) decls
  | .resource _ decls => visitResources_makes s decls
  | .function _ name (.mk decorators params body) =>
    ((Makes.acts (.known .current name.name :: functionNameEvents s name body)).andThen
      (visitFunc_makes s (.mk decorators params body)) :)
  | .classDef _ name cls =>
    ((Makes.acts [.known .current name.name]).andThen (visitClass_makes s cls) :)
  | .enumeration _ name values =>
    ((Makes.acts [.known .current name.name]).andThen (visitExprs_makes s values) :)
  | .imports _ locals => .acts (declareAll .current (locals.map Ident.name))
  | .exported _ decl => visitStmt_makes s decl
  | .loop _ start parts body =>
    (((visitStmts_makes s start).andThen (visitExprs_makes s parts)).andThen
      (visitStmt_makes s body)).inFrame .loop
  | .loopOver _ source decl body =>
    ((visitExpr_makes s source false []).andThen
      (((visitStmt_makes s decl).andThen (visitStmt_makes s body)).inFrame .loop) :)
  | .loopInto _ source target body =>
    ((visitExpr_makes s source false []).andThen
      (((visitTarget_makes s target).andThen (visitStmt_makes s body)).inFrame .loop) :)
  | .switch _ subject cases =>
    ((visitExpr_makes s subject false []).andThen ((visitStmts_makes s cases).inFrame .block) :)
  | .handler _ params body =>
    (((Makes.acts (declareAll .current (boundNamesAll params))).andThen
      (visitPatterns_makes s params)).andThen (visitStmts_makes s body)).inFrame .handler
  | .space _ body => (visitStmts_makes s body :)
  | .group _ parts body => ((visitExprs_makes s parts).andThen (visitStmts_makes s body) :)

theorem visitStmts_makes (s : Setting) : ∀ stmts : List Stmt,
    Makes s [] (visitStmts s · stmts) fun b => traceStmts { s with isExempt := b } stmts
  | [] => .nothing
  | st :: stmts => ((visitStmt_makes s st).andThen (visitStmts_makes s stmts) :)

theorem visitDeclarators_makes (s : Setting) (place : Place) : ∀ decls : List Declarator,
    Makes s [] (visitDeclarators s place · decls) fun b =>
      traceDeclarators { s with isExempt := b } place decls
  | [] => .nothing
  | .mk span target init :: decls => by
    -- what is unwrapped does not depend on exemption
    have hcallee (b : Bool) : unwrapCallee? { s with isExempt := b } init = unwrapCallee? s init := rfl
    have hevents (b : Bool) (callee : Expr) :
        unwrapEvents? { s with isExempt := b } place span.hi callee target =
          unwrapEvents? s place span.hi callee target := by
      cases target <;> rfl
    simp only [visitDeclarators, traceDeclarators, hcallee, hevents]
    refine Makes.andThen ?_ (visitDeclarators_makes s place decls)
    cases unwrapCallee? s init with
    | none =>
      exact ((Makes.acts (declareAll place (boundNames target) ++
        functionValueEvents s target init)).andThen (visitPattern_makes s target)).andThen
          (visitOption_makes s init)
    | some callee =>
      refine Makes.andThen ?_ (visitSettled_makes s init)
      cases unwrapEvents? s place span.hi callee target with
      | some events => exact .acts events
      | none =>
        exact (Makes.acts (declareAll place (boundNames target))).andThen (visitPattern_makes s target)

theorem visitSettled_makes (s : Setting) : ∀ init : Option Expr,
    Makes s [] (visitSettled s · init) fun b => traceSettled { s with isExempt := b } init
  | none => .nothing
  | some e => visitExpr_makes s e true []

theorem visitResources_makes (s : Setting) : ∀ decls : List Declarator,
    Makes s [] (visitResources s · decls) fun b => traceResources { s with isExempt := b } decls
  | [] => .nothing
  | .mk _ target init :: decls =>
    (((visitPattern_makes s target).andThen (visitOption_makes s init)).andThen
      (visitResources_makes s decls) :)

end

end Walker

inductive Site where
  | expr (settled : Bool) (e : Expr)
  | item (i : Item)
  | property (p : Property)
  | key (k : Key)
  /-- A pattern that declares names. -/
  | pattern (p : Pattern)
  /-- A pattern that is assigned to. -/
  | target (p : Pattern)
  | field (f : PatternField)
  | targetField (f : PatternField)
  /-- A parameter of a constructor. -/
  | param (p : Param)
  | func (f : Func)
  | cls (c : Syntax.Class)
  | member (m : Member)
  | attr (a : Attr)
  | stmt (st : Stmt)
  | declarator (place : Place) (d : Declarator)
  /-- A declared resource. -/
  | resource (d : Declarator)

def Site.trace (s : Setting) : Site → List Event
  | expr settled e => traceExpr s [] settled e
  | item i => traceItems s [i]
  | property p => traceProperties s [p]
  | key k => traceKey s k
  | pattern p => tracePattern s p
  | target p => traceTarget s p
  | field f => traceFields s [f]
  | targetField f => traceTargetFields s [f]
  | param p => traceParams s [p]
  | func f => traceFunc s f
  | cls c => traceClass s c
  | member m => traceMembers s [m]
  | attr a => traceAttrs s [a]
  | stmt st => traceStmt s st
  | declarator place d => traceDeclarators s place [d]
  | resource d => traceResources s [d]

namespace Walker

def visit (s : Setting) (w : Walker) : Site → Walker
  | .expr settled e => w.visitExpr s settled e
  | .item i => w.visitItems s [i]
  | .property p => w.visitProperties s [p]
  | .key k => w.visitKey s k
  | .pattern p => w.visitPattern s p
  | .target p => w.visitTarget s p
  | .field f => w.visitFields s [f]
  | .targetField f => w.visitTargetFields s [f]
  | .param p => w.visitParams s [p]
  | .func f => w.visitFunc s f
  | .cls c => w.visitClass s c
  | .member m => w.visitMembers s [m]
  | .attr a => w.visitAttrs s [a]
  | .stmt st => w.visitStmt s st
  | .declarator place d => w.visitDeclarators s place [d]
  | .resource d => w.visitResources s [d]

/-- In whatever way a walker comes upon a node, it makes the events of the node. -/
theorem visit_makes (s : Setting) (site : Site) :
    Makes s [] (visit s · site) fun b => site.trace { s with isExempt := b } := by
  cases site with
  | expr settled e => exact visitExpr_makes s e settled []
  | item i => exact visitItems_makes s [i]
  | property p => exact visitProperties_makes s [p]
  | key k => exact visitKey_makes s k
  | pattern p => exact visitPattern_makes s p
  | target p => exact visitTarget_makes s p
  | field f => exact visitFields_makes s [f]
  | targetField f => exact visitTargetFields_makes s [f]
  | param p => exact visitParams_makes s [p]
  | func f => exact visitFunc_makes s f
  | cls c => exact visitClass_makes s c
  | member m => exact visitMembers_makes s [m]
  | attr a => exact visitAttrs_makes s [a]
  | stmt st => exact visitStmt_makes s st
  | declarator place d => exact visitDeclarators_makes s place [d]
  | resource d => exact visitResources_makes s [d]

end Walker

/-- A script is walked by a walker that starts with no chain and outside of any attribute. -/
theorem script_eq_visitStmts (o : Options) (session : Session) (base : Nat) (source : List Char)
    (stmts : List Stmt) :
    script o session base source stmts =
      ((Walker.mk (Run.start base .program session) [] 0).visitStmts (setting o source)
        stmts).run.finish o := by
  have hmakes := Walker.visitStmts_makes (setting o source) stmts
    (Walker.mk (Run.start base .program session) [] 0) rfl
  exact (congrArg (fun w : Walker => w.run.finish o) hmakes).symm

/-- And so is a lone expression, with the names to unwrap declared at its root. -/
theorem expression_eq_visitExpr (o : Options) (unwraps : List String) (source : List Char) (e : Expr) :
    let start := Run.start 0 .expression {}
    let start := { start with scopes := unwraps.foldl (·.declareUnwrap 0) start.scopes }
    expression o unwraps source e =
      ((Walker.mk start [] 0).visitExpr (setting o source) false e).run.finish o := by
  intro _ start
  have hmakes := Walker.visitExpr_makes (setting o source) e false [] (Walker.mk start [] 0) rfl
  exact (congrArg (fun w : Walker => w.run.finish o) hmakes).symm

end RefSugar.Walk
