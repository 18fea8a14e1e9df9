import RefSugar.Edit.Basic
import RefSugar.Sigil.Trigger
import RefSugar.Syntax.Tree

/-!
Wrapping. Where references are asked for, the parts of an expression that denote them are put into
calls of the wrapping function.
-/
namespace RefSugar.Walk

open Syntax

inductive Leaf where
  | whole (span : Span)
  /-- A member of an object that is both key and value. -/
  | shorthand (id : Ident)
  deriving DecidableEq, Repr

def Leaf.span : Leaf → Span
  | whole span => span
  | shorthand id => id.span

def isExplicitCallee : Expr → Bool
  | .name id => Sigil.isExplicitWrap id.name
  | _ => false

mutual

/-- The parts of an expression that denote references, in order. -/
def leaves : Expr → List Leaf
  | .name id => [.whole id.span]
  | .field span _ _ | .index span _ _ _ | .keywordCall span _ => [.whole span]
  | .call span link callee _ =>
    if link == .plain && isExplicitCallee callee then [] else [.whole span]
  | .wrapped span kind inner => if kind = .instantiation then [.whole span] else leaves inner
  | .array _ items => itemLeaves items
  | .object _ properties => propertyLeaves properties
  | .function _ _ (.mk _ _ body) => returnLeaves body
  | .arrow _ _ body => returnLeaves body
  | .arrowTo _ _ result => leaves result
  | _ => []

def itemLeaves : List Item → List Leaf
  | [] => []
  | .one e :: items => leaves e ++ itemLeaves items
  | .hole :: items | .spread _ :: items => itemLeaves items

def propertyLeaves : List Property → List Leaf
  | [] => []
  | .shorthand id :: properties => .shorthand id :: propertyLeaves properties
  | .pair _ value :: properties => leaves value ++ propertyLeaves properties
  | _ :: properties => propertyLeaves properties

def returnLeaves : List Stmt → List Leaf
  | [] => []
  | .ret _ (some e) :: stmts => leaves e ++ returnLeaves stmts
  | _ :: stmts => returnLeaves stmts

end

def Leaf.edits (wrapFn : String) : Leaf → List Edit
  | .whole span => [.insertBefore span.lo (wrapFn ++ "("), .insertAfter span.hi ")"]
  | .shorthand id =>
    [.insertBefore id.span.lo (id.name ++ ": " ++ wrapFn ++ "("), .insertAfter id.span.hi ")"]

end RefSugar.Walk
