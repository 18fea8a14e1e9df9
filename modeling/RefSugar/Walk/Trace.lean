import RefSugar.Walk.Event

/-!
The events of a tree. A reference carries the spans of the expressions whose head it is; they are
handed down while the tree is walked.
-/
namespace RefSugar.Walk

open Syntax

def mention (s : Setting) (m : Mention) : Event :=
  .mention { m with isExempt := s.isExempt }

mutual

/-- The events of an expression. `chain` are the spans of the expressions whose head it is, and
`settled` tells that a call at its core has been dealt with. -/
def traceExpr (s : Setting) (chain : List Span) (settled : Bool) : Expr → List Event
  | .name id => [mention s { id, chain }]
  | .field span _ object => traceExpr s (chain ++ [span]) false object
  | .index span _ object key =>
    traceExpr s (chain ++ [span]) false object ++ traceExpr s [] false key
  | .call span _ callee args =>
    callEvents s settled callee args ++ traceExpr s (chain ++ [span]) false callee ++
      traceItems s args
  | .keywordCall _ args => traceItems s args
  | .wrapped span kind inner =>
    traceExpr s (chain ++ [span]) (settled && (kind == .parens || kind == .nonNull)) inner
  | .assign _ _ target value => traceTarget s target ++ traceExpr s [] false value
  | .update _ (.name id) => [mention s { id, isWrite := true }]
  | .update _ operand => traceExpr s [] false operand
  | .array _ items => traceItems s items
  | .object _ properties => traceProperties s properties
  | .function _ none fn => traceFunc s fn
  | .function _ (some name) fn => framed .block (.known .current name.name :: traceFunc s fn)
  | .arrow _ params body =>
    framed .function
      (declareAll .current (boundNamesAll params) ++ tracePatterns s params ++ traceStmts s body)
  | .arrowTo _ params result =>
    framed .function
      (declareAll .current (boundNamesAll params) ++ tracePatterns s params ++
        traceExpr s [] false result)
  | .classDef _ none cls => traceClass s cls
  | .classDef _ (some name) cls => framed .block (.known .current name.name :: traceClass s cls)
  | .element _ attrs children => traceAttrs s attrs ++ traceExprs s children
  | .compound _ _ parts => traceExprs s parts

def traceExprs (s : Setting) : List Expr → List Event
  | [] => []
  | e :: es => traceExpr s [] false e ++ traceExprs s es

def traceOption (s : Setting) : Option Expr → List Event
  | none => []
  | some e => traceExpr s [] false e

def traceItems (s : Setting) : List Item → List Event
  | [] => []
  | .hole :: items => traceItems s items
  | .one e :: items => traceExpr s [] false e ++ traceItems s items
  | .spread e :: items => traceExpr s [] false e ++ traceItems s items

def traceProperties (s : Setting) : List Property → List Event
  | [] => []
  | .shorthand id :: ps => mention s { id, isShorthand := true } :: traceProperties s ps
  | .pair key value :: ps => traceKey s key ++ traceExpr s [] false value ++ traceProperties s ps
  | .default _ value :: ps => traceExpr s [] false value ++ traceProperties s ps
  | .getter _ key body :: ps =>
    traceKey s key ++ framed .block (traceStmts s body) ++ traceProperties s ps
  | .setter _ key param body :: ps =>
    traceKey s key ++
      framed .function
        (declareAll .current (boundNames param) ++ tracePattern s param ++ traceStmts s body) ++
      traceProperties s ps
  | .method _ key fn :: ps => traceKey s key ++ traceFunc s fn ++ traceProperties s ps
  | .spread e :: ps => traceExpr s [] false e ++ traceProperties s ps

def traceKey (s : Setting) : Key → List Event
  | .computed e => traceExpr s [] false e
  | .name _ | .string _ | .number _ | .other => []

def tracePattern (s : Setting) : Pattern → List Event
  | .name _ | .hole | .invalid => []
  | .object _ fields => traceFields s fields
  | .array _ items => tracePatterns s items
  | .default target value => tracePattern s target ++ traceExpr s [] false value
  | .rest target => tracePattern s target
  | .expr e => traceExpr s [] false e

def tracePatterns (s : Setting) : List Pattern → List Event
  | [] => []
  | p :: ps => tracePattern s p ++ tracePatterns s ps

def traceFields (s : Setting) : List PatternField → List Event
  | [] => []
  | .shorthand _ value :: fields => traceOption s value ++ traceFields s fields
  | .pair key value :: fields => traceKey s key ++ tracePattern s value ++ traceFields s fields
  | .rest target :: fields => tracePattern s target ++ traceFields s fields

/-- The references and expressions in a pattern that is assigned to. -/
def traceTarget (s : Setting) : Pattern → List Event
  | .name id => [mention s { id, isWrite := true }]
  | .object _ fields => traceTargetFields s fields
  | .array _ items => traceTargets s items
  | .default target value => traceTarget s target ++ traceExpr s [] false value
  | .rest target => traceTarget s target
  | .expr e => traceExpr s [] false e
  | .hole | .invalid => []

def traceTargets (s : Setting) : List Pattern → List Event
  | [] => []
  | p :: ps => traceTarget s p ++ traceTargets s ps

def traceTargetFields (s : Setting) : List PatternField → List Event
  | [] => []
  | .shorthand id value :: fields =>
    mention s { id, isWrite := true, isShorthand := true } :: traceOption s value ++
      traceTargetFields s fields
  | .pair key value :: fields => traceKey s key ++ traceTarget s value ++ traceTargetFields s fields
  | .rest target :: fields => traceTarget s target ++ traceTargetFields s fields

def paramNames : List Param → List String
  | [] => []
  | .mk _ pattern :: ps => boundNames pattern ++ paramNames ps

def traceParamPatterns (s : Setting) : List Param → List Event
  | [] => []
  | .mk _ pattern :: ps => tracePattern s pattern ++ traceParamPatterns s ps

def traceParamDecorators (s : Setting) : List Param → List Event
  | [] => []
  | .mk decorators _ :: ps => traceExprs s decorators ++ traceParamDecorators s ps

/-- Parameters of a constructor, each with its decorators in front. -/
def traceParams (s : Setting) : List Param → List Event
  | [] => []
  | .mk decorators pattern :: ps =>
    traceExprs s decorators ++ tracePattern s pattern ++ traceParams s ps

def traceFunc (s : Setting) : Func → List Event
  | .mk decorators params body =>
    framed .function
      (traceExprs s decorators ++ declareAll .current (paramNames params) ++
        traceParamPatterns s params ++ traceParamDecorators s params ++ traceStmts s body)

def traceClass (s : Setting) : Syntax.Class → List Event
  | .mk decorators members heritage =>
    traceExprs s decorators ++ traceMembers s members ++ traceExprs s heritage

def traceMembers (s : Setting) : List Member → List Event
  | [] => []
  | .method key fn :: ms => traceKey s key ++ traceFunc s fn ++ traceMembers s ms
  | .constructor params body :: ms =>
    framed .function
        (declareAll .current (paramNames params) ++ traceParams s params ++ traceStmts s body) ++
      traceMembers s ms
  | .property key value decorators :: ms =>
    traceKey s key ++ traceOption s value ++ traceExprs s decorators ++ traceMembers s ms
  | .staticBlock body :: ms => framed .block (traceStmts s body) ++ traceMembers s ms

def traceAttrs (s : Setting) : List Attr → List Event
  | [] => []
  | .spread e :: attrs => traceExpr s [] false e ++ traceAttrs s attrs
  | .named name braced value :: attrs =>
    attrEvents s name braced value ++
      traceOption { s with isExempt := s.isExempt || s.isExemptAttr name } value ++
      traceAttrs s attrs

def attrEvents (s : Setting) (name : AttrName) (braced : Bool) (value : Option Expr) :
    List Event :=
  match name with
  | .plain id =>
    if braced && Sigil.isSigilAttribute id.name then
      stripTrailing id.span ::
        match value with
        | some e => wrap s.options.wrapFn (leaves e)
        | none => []
    else []
  | .qualified _ _ => []

def traceStmt (s : Setting) : Stmt → List Event
  | .expr _ e => traceExpr s [] false e
  | .block _ body => framed .block (traceStmts s body)
  | .ret _ value => traceOption s value
  | .vars _ kind decls =>
    traceDeclarators s (if kind = .hoisted then .hoisted else .current) decls
  | .resource _ decls => traceResources s decls
  | .function _ name (.mk decorators params body) =>
    .known .current name.name :: functionNameEvents s name body ++
      traceFunc s (.mk decorators params body)
  | .classDef _ name cls => .known .current name.name :: traceClass s cls
  | .enumeration _ name values => .known .current name.name :: traceExprs s values
  | .imports _ locals => declareAll .current (locals.map Ident.name)
  | .exported _ decl => traceStmt s decl
  | .loop _ start parts body =>
    framed .loop (traceStmts s start ++ traceExprs s parts ++ traceStmt s body)
  | .loopOver _ source decl body =>
    traceExpr s [] false source ++ framed .loop (traceStmt s decl ++ traceStmt s body)
  | .loopInto _ source target body =>
    traceExpr s [] false source ++ framed .loop (traceTarget s target ++ traceStmt s body)
  | .switch _ subject cases =>
    traceExpr s [] false subject ++ framed .block (traceStmts s cases)
  | .handler _ params body =>
    framed .handler
      (declareAll .current (boundNamesAll params) ++ tracePatterns s params ++ traceStmts s body)
  | .space _ body => traceStmts s body
  | .group _ parts body => traceExprs s parts ++ traceStmts s body

def traceStmts (s : Setting) : List Stmt → List Event
  | [] => []
  | st :: sts => traceStmt s st ++ traceStmts s sts

/-- Declared variables. One whose value is to be unwrapped becomes a binding to unwrap, or is
unpacked; any other declares its names as ordinary bindings. -/
def traceDeclarators (s : Setting) (place : Place) : List Declarator → List Event
  | [] => []
  | .mk span target init :: decls =>
    (match unwrapCallee? s init with
      | none =>
        declareAll place (boundNames target) ++ functionValueEvents s target init ++
          tracePattern s target ++ traceOption s init
      | some callee =>
        (unwrapEvents? s place span.hi callee target).getD
            (declareAll place (boundNames target) ++ tracePattern s target) ++
          traceSettled s init) ++
      traceDeclarators s place decls

/-- The value of a declaration that has dealt with the call it boils down to. -/
def traceSettled (s : Setting) : Option Expr → List Event
  | none => []
  | some e => traceExpr s [] true e

def traceResources (s : Setting) : List Declarator → List Event
  | [] => []
  | .mk _ target init :: decls =>
    tracePattern s target ++ traceOption s init ++ traceResources s decls

end

end RefSugar.Walk
