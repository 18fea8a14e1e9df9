import RefSugar.Syntax.Tree

/-! Trees as a whole. All kinds of syntax are nodes of one kind here, with their immediate parts, so
that a property of all nodes of a tree is stated once and proved by one induction. -/
namespace RefSugar.Syntax

def Param.pattern : Param → Pattern
  | .mk _ pattern => pattern

def Param.decorators : Param → List Expr
  | .mk decorators _ => decorators

inductive Node where
  | expr (e : Expr)
  | item (i : Item)
  | property (p : Property)
  | key (k : Key)
  | pattern (p : Pattern)
  | field (f : PatternField)
  | param (p : Param)
  | func (f : Func)
  | cls (c : Class)
  | member (m : Member)
  | attr (a : Attr)
  | stmt (s : Stmt)
  | declarator (d : Declarator)

namespace Node

@[simp] def ofExpr : Expr → List Node
  | .name _ => []
  | .field _ _ object => [expr object]
  | .index _ _ object k => [expr object, expr k]
  | .call _ _ callee args => expr callee :: args.map item
  | .keywordCall _ args => args.map item
  | .wrapped _ _ inner => [expr inner]
  | .assign _ _ target value => [pattern target, expr value]
  | .update _ operand => [expr operand]
  | .array _ items => items.map item
  | .object _ properties => properties.map property
  | .function _ _ fn => [func fn]
  | .arrow _ params body => params.map pattern ++ body.map stmt
  | .arrowTo _ params result => params.map pattern ++ [expr result]
  | .classDef _ _ c => [cls c]
  | .element _ attrs children => attrs.map attr ++ children.map expr
  | .compound _ _ parts => parts.map expr

@[simp] def ofProperty : Property → List Node
  | .shorthand _ => []
  | .pair k value => [key k, expr value]
  | .default _ value => [expr value]
  | .getter _ k body => key k :: body.map stmt
  | .setter _ k p body => key k :: pattern p :: body.map stmt
  | .method _ k fn => [key k, func fn]
  | .spread e => [expr e]

@[simp] def ofPattern : Pattern → List Node
  | .name _ | .hole | .invalid => []
  | .object _ fields => fields.map field
  | .array _ items => items.map pattern
  | .default target value => [pattern target, expr value]
  | .rest target => [pattern target]
  | .expr e => [expr e]

@[simp] def ofField : PatternField → List Node
  | .shorthand _ value => value.toList.map expr
  | .pair k value => [key k, pattern value]
  | .rest target => [pattern target]

@[simp] def ofMember : Member → List Node
  | .method k fn => [key k, func fn]
  | .constructor params body => params.map param ++ body.map stmt
  | .property k value decorators => key k :: value.toList.map expr ++ decorators.map expr
  | .staticBlock body => body.map stmt

@[simp] def ofStmt : Stmt → List Node
  | .expr _ e => [expr e]
  | .block _ body => body.map stmt
  | .ret _ value => value.toList.map expr
  | .vars _ _ decls | .resource _ decls => decls.map declarator
  | .function _ _ fn => [func fn]
  | .classDef _ _ c => [cls c]
  | .enumeration _ _ values => values.map expr
  | .imports _ _ => []
  | .exported _ decl => [stmt decl]
  | .loop _ start parts body => start.map stmt ++ parts.map expr ++ [stmt body]
  | .loopOver _ source decl body => [expr source, stmt decl, stmt body]
  | .loopInto _ source target body => [expr source, pattern target, stmt body]
  | .switch _ subject cases => expr subject :: cases.map stmt
  | .handler _ params body => params.map pattern ++ body.map stmt
  | .space _ body => body.map stmt
  | .group _ parts body => parts.map expr ++ body.map stmt

@[simp] def children : Node → List Node
  | expr e => ofExpr e
  | item i => i.expr?.toList.map expr
  | property p => ofProperty p
  | key (.computed e) => [expr e]
  | key _ => []
  | pattern p => ofPattern p
  | field f => ofField f
  | param (.mk decorators p) => decorators.map expr ++ [pattern p]
  | func (.mk decorators params body) =>
    decorators.map expr ++ params.map param ++ body.map stmt
  | cls (.mk decorators members heritage) =>
    decorators.map expr ++ members.map member ++ heritage.map expr
  | member m => ofMember m
  | attr (.named _ _ value) => value.toList.map expr
  | attr (.spread e) => [expr e]
  | stmt s => ofStmt s
  | declarator (.mk _ target init) => pattern target :: init.toList.map expr

/-- Parts are smaller, which recursion over nodes rests on. -/
theorem sizeOf_lt_of_mem_children {n c : Node} (h : c ∈ n.children) : sizeOf c < sizeOf n := by
  have hlist {α : Type} [SizeOf α] {a : α} {l : List α} (ha : a ∈ l) : sizeOf a < sizeOf l :=
    List.sizeOf_lt_of_mem ha
  cases n with
  | expr e => cases e <;> simp only [children, ofExpr] at h <;> grind
  | item i => cases i <;> simp only [children, Item.expr?] at h <;> grind
  | property p => cases p <;> simp only [children, ofProperty] at h <;> grind
  | key k => cases k <;> simp only [children] at h <;> grind
  | pattern p => cases p <;> simp only [children, ofPattern] at h <;> grind
  | field f => cases f <;> simp only [children, ofField] at h <;> grind
  | param p => cases p; simp only [children] at h; grind
  | func f => cases f; simp only [children] at h; grind
  | cls c => cases c; simp only [children] at h; grind
  | member m => cases m <;> simp only [children, ofMember] at h <;> grind
  | attr a => cases a <;> simp only [children] at h <;> grind
  | stmt s => cases s <;> simp only [children, ofStmt] at h <;> grind
  | declarator d => cases d; simp only [children] at h; grind

/-- Holds of the node and of everything below it, where `parts` tells what stands right below a
node. -/
inductive Everywhere (parts : Node → List Node) (P : Node → Prop) : Node → Prop
  | mk {n : Node} (here : P n) (below : ∀ c ∈ parts n, Everywhere parts P c) : Everywhere parts P n

inductive Reaches (parts : Node → List Node) : Node → Node → Prop
  | refl (n : Node) : Reaches parts n n
  | step {n c m : Node} (hc : c ∈ parts n) (h : Reaches parts c m) : Reaches parts n m

variable {parts : Node → List Node} {P Q : Node → Prop} {n c m : Node}

namespace Everywhere

theorem here (h : Everywhere parts P n) : P n := by
  cases h with
  | mk here _ => exact here

theorem all_parts (h : Everywhere parts P n) : ∀ c ∈ parts n, Everywhere parts P c := by
  cases h with
  | mk _ below => exact below

theorem child (h : Everywhere parts P n) (hc : c ∈ parts n) : Everywhere parts P c :=
  h.all_parts c hc

theorem and (hp : Everywhere parts P n) (hq : Everywhere parts Q n) :
    Everywhere parts (fun m => P m ∧ Q m) n := by
  induction hp with
  | mk here below ih => exact mk ⟨here, hq.here⟩ fun c hc => ih c hc (hq.child hc)

theorem reached (h : Everywhere parts P n) (hm : Reaches parts n m) : Everywhere parts P m := by
  induction hm with
  | refl => exact h
  | step hc _ ih => exact ih (h.child hc)

theorem of_reaches (h : Everywhere parts P n) (hm : Reaches parts n m) : P m :=
  (h.reached hm).here

end Everywhere

theorem Reaches.trans (hn : Reaches parts n c) (hm : Reaches parts c m) : Reaches parts n m := by
  induction hn with
  | refl => exact hm
  | step hc _ ih => exact .step hc (ih hm)

theorem everywhere_of_reaches (hparts : ∀ n, ∀ c ∈ parts n, sizeOf c < sizeOf n) (n : Node)
    (h : ∀ m, Reaches parts n m → P m) : Everywhere parts P n :=
  .mk (h n (.refl n)) fun c hc => everywhere_of_reaches hparts c fun m hm => h m (.step hc hm)
termination_by sizeOf n
decreasing_by exact hparts n c hc

/-- Looks at a node and at everything up to `depth` levels below it, beyond which it finds nothing
good. -/
def check (P : Node → Bool) : Nat → Node → Bool
  | 0, _ => false
  | depth + 1, n => P n && n.children.all (check P depth)

theorem everywhere_of_check {P : Node → Bool} {depth : Nat} {n : Node} (h : check P depth n = true) :
    Everywhere children (P · = true) n := by
  induction depth generalizing n with
  | zero => exact absurd h (by simp [check])
  | succ depth ih =>
    rw [check, Bool.and_eq_true, List.all_eq_true] at h
    exact .mk h.1 fun c hc => ih (h.2 c hc)

end Node

end RefSugar.Syntax
