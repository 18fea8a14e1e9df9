/-!
The syntax tree of a script, as far as references, scopes and sigils need it. Types are left out,
and so is all that tells apart two forms with the same parts in the same order. Spans are byte
offsets into the text of the unit.
-/
namespace RefSugar.Syntax

/-- The bytes from `lo` up to, but not including, `hi`. -/
structure Span where
  lo : Nat
  hi : Nat
  deriving DecidableEq, Repr

/-- An identifier. Its name has escapes decoded, the text under its span has not. -/
structure Ident where
  name : String
  span : Span
  deriving DecidableEq, Repr

/-- The forms that enclose one expression and denote the same value. -/
inductive Wrapping where
  | parens
  | nonNull
  | asType
  | satisfies
  | asConst
  | assertion
  | instantiation
  deriving DecidableEq, Repr

inductive Form where
  | literal
  /-- `this`, `import.meta`, `new.target`, and a private name in front of `in`. -/
  | keyword
  | superField
  | construction
  | template
  /-- A template behind the function that is applied to it. -/
  | tagged
  | unary
  | await
  | yield
  | operation
  | conditional
  | sequence
  /-- Stands where an expression should have stood. -/
  | missing
  deriving DecidableEq, Repr

/-- How a field, an index or a call is linked to what stands in front of it. -/
inductive Link where
  | plain
  /-- Some link in front of it is optional. -/
  | chained
  /-- Written with a question mark. -/
  | optional
  deriving DecidableEq, Repr

inductive AttrName where
  | plain (id : Ident)
  | qualified (span : Span) (space : String)
  deriving DecidableEq, Repr

inductive VarKind where
  /-- `var`: belongs to the enclosing function. -/
  | hoisted
  /-- `let` and `const`: belong to the enclosing block. -/
  | lexical
  deriving DecidableEq, Repr

mutual

inductive Expr where
  | name (id : Ident)
  | field (span : Span) (link : Link) (object : Expr)
  | index (span : Span) (link : Link) (object key : Expr)
  | call (span : Span) (link : Link) (callee : Expr) (args : List Item)
  /-- A call of `super` or `import`. -/
  | keywordCall (span : Span) (args : List Item)
  | wrapped (span : Span) (kind : Wrapping) (inner : Expr)
  /-- An assignment; `plain` tells one by `=`. -/
  | assign (span : Span) (plain : Bool) (target : Pattern) (value : Expr)
  | update (span : Span) (operand : Expr)
  | array (span : Span) (items : List Item)
  | object (span : Span) (properties : List Property)
  | function (span : Span) (name : Option Ident) (fn : Func)
  /-- An arrow function whose body is a block. -/
  | arrow (span : Span) (params : List Pattern) (body : List Stmt)
  /-- An arrow function whose body is its result. -/
  | arrowTo (span : Span) (params : List Pattern) (result : Expr)
  | classDef (span : Span) (name : Option Ident) (cls : Class)
  | element (span : Span) (attrs : List Attr) (children : List Expr)
  | compound (span : Span) (form : Form) (parts : List Expr)

inductive Item where
  | hole
  | one (e : Expr)
  | spread (e : Expr)

inductive Property where
  | shorthand (id : Ident)
  | pair (key : Key) (value : Expr)
  /-- `a = 1`, which only makes sense once the literal turns out to be a pattern. -/
  | default (id : Ident) (value : Expr)
  | getter (span : Span) (key : Key) (body : List Stmt)
  | setter (span : Span) (key : Key) (param : Pattern) (body : List Stmt)
  | method (span : Span) (key : Key) (fn : Func)
  | spread (e : Expr)

inductive Key where
  | name (id : Ident)
  | string (span : Span)
  | number (span : Span)
  | computed (e : Expr)
  /-- A big integer or a private name. -/
  | other

inductive Pattern where
  | name (id : Ident)
  | object (span : Span) (fields : List PatternField)
  | array (span : Span) (items : List Pattern)
  | default (target : Pattern) (value : Expr)
  | rest (target : Pattern)
  | expr (e : Expr)
  /-- A place of an array where nothing stands. -/
  | hole
  /-- Stands for what cannot be a pattern. It binds nothing. -/
  | invalid

inductive PatternField where
  | shorthand (id : Ident) (value : Option Expr)
  | pair (key : Key) (value : Pattern)
  | rest (target : Pattern)

inductive Param where
  | mk (decorators : List Expr) (pattern : Pattern)

/-- A function behind its name. One without a body, as in an overload, has no statements. -/
inductive Func where
  | mk (decorators : List Expr) (params : List Param) (body : List Stmt)

/-- A class behind its name. The heritage is the superclass, then the implemented interfaces. -/
inductive Class where
  | mk (decorators : List Expr) (members : List Member) (heritage : List Expr)

inductive Member where
  | method (key : Key) (fn : Func)
  | constructor (params : List Param) (body : List Stmt)
  | property (key : Key) (value : Option Expr) (decorators : List Expr)
  | staticBlock (body : List Stmt)

/-- Attributes of an element. `braced` tells that the value is written in braces, which may hold
nothing; text is no value. -/
inductive Attr where
  | named (name : AttrName) (braced : Bool) (value : Option Expr)
  | spread (e : Expr)

inductive Stmt where
  | expr (span : Span) (e : Expr)
  | block (span : Span) (body : List Stmt)
  | ret (span : Span) (value : Option Expr)
  | vars (span : Span) (kind : VarKind) (decls : List Declarator)
  /-- A `using` declaration. -/
  | resource (span : Span) (decls : List Declarator)
  | function (span : Span) (name : Ident) (fn : Func)
  | classDef (span : Span) (name : Ident) (cls : Class)
  | enumeration (span : Span) (name : Ident) (values : List Expr)
  | imports (span : Span) (locals : List Ident)
  | exported (span : Span) (decl : Stmt)
  /-- A loop with a head of three parts: what starts it, and its test and step. -/
  | loop (span : Span) (start : List Stmt) (parts : List Expr) (body : Stmt)
  /-- A loop over `source` that declares its variable. -/
  | loopOver (span : Span) (source : Expr) (decl : Stmt) (body : Stmt)
  /-- A loop over `source` that assigns to a pattern. -/
  | loopInto (span : Span) (source : Expr) (target : Pattern) (body : Stmt)
  | switch (span : Span) (subject : Expr) (cases : List Stmt)
  | handler (span : Span) (params : List Pattern) (body : List Stmt)
  /-- A namespace, an ambient module or the global scope, with its items. -/
  | space (span : Span) (body : List Stmt)
  /-- Any other statement, with its expressions and then its statements. -/
  | group (span : Span) (parts : List Expr) (body : List Stmt)

inductive Declarator where
  | mk (span : Span) (target : Pattern) (init : Option Expr)

end

namespace Expr

def span : Expr → Span
  | name id => id.span
  | field s _ _ | index s _ _ _ | call s _ _ _ | keywordCall s _ | wrapped s _ _ | assign s _ _ _
  | update s _ | array s _ | object s _ | function s _ _ | arrow s _ _ | arrowTo s _ _
  | classDef s _ _ | element s _ _ | compound s _ _ => s

/-- The expression, not counting assertions that it is there, is a link of an optional chain. -/
def isChain : Expr → Bool
  | field _ link _ | index _ link _ _ | call _ link _ _ => link != .plain
  | wrapped _ .nonNull inner => inner.isChain
  | _ => false

def isOptional : Expr → Bool
  | field _ link _ | index _ link _ _ | call _ link _ _ => link == .optional
  | _ => false

def nextLink (e : Expr) : Link :=
  if e.isChain then .chained else .plain

def isArrow : Expr → Bool
  | arrow _ _ _ | arrowTo _ _ _ => true
  | _ => false

end Expr

def Stmt.span : Stmt → Span
  | expr s _ | block s _ | ret s _ | vars s _ _ | resource s _ | function s _ _ | classDef s _ _
  | enumeration s _ _ | imports s _ | exported s _ | loop s _ _ _ | loopOver s _ _ _
  | loopInto s _ _ _ | switch s _ _ | handler s _ _ | space s _
  | group s _ _ => s

def Item.expr? : Item → Option Expr
  | .one e | .spread e => some e
  | .hole => none

end RefSugar.Syntax
