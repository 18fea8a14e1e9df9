import RefSugar.Syntax.Declarations

/-!
Reading imports, exports, and statements of all kinds.
-/
namespace RefSugar.Syntax.Modules

variable (g : Grammar)

def exportName : Reader (Option Ident) := do
  let t ← token
  if t.isString then
    advance
    return none
  if t.isAnyWord then return some (← anyName)
  unexpected "identifier or string"

/-- The name behind `type` in braces. Of `type as`, `type as as` and so on, which word is the name
depends on what follows; `other` reads the name behind `as`. The flag tells that the specifier may
go on. -/
def typedName (other : Reader Ident) : Reader (Ident × Bool) := do
  let second ← anyName
  if second.name != "as" then return (second, true)
  if !(← token).isAnyWord then return (second, false)
  let third ← other
  if third.name == "as" && (← token).isAnyWord then return (← other, false)
  return (third, false)

def importSpecifier : Reader Ident := do
  let mode ← read
  let t ← token
  match ← exportName with
  | none =>
    if ← acceptWord "as" then properName
    else failAt (.importNeedsAlias t.value) t.lo
  | some first =>
    let second ← token
    let isTyped := mode.typescript && first.name == "type" && second.isAnyWord
    let (name, more) ← if isTyped then typedName properName else pure (first, true)
    if more then
      if ← acceptWord "as" then return ← properName
      if mode.reserves (if isTyped then second.role else t.role) then
        failAt .reservedImport name.span.lo
    return name

def attributes : Reader (List Expr) := do
  let t ← token
  if !t.fresh && (t.isWord "with" || t.isWord "assert") then
    advance
    return [← Literals.object g]
  return []

/-- Where something is imported from: the attributes behind it, and where it ends without them. -/
def moduleSource : Reader (List Expr × Nat) := do
  unless (← token).isString do unexpected "a string literal"
  let stop := (← token).hi
  advance
  let found ← attributes g
  expectStatementEnd
  return (found, stop)

/-- `= require("…")` or `= A.B`. -/
def importEquals (lo : Nat) : Reader Stmt := do
  expect "="
  let next ← ahead
  if (← isAtWord "require") && next.isPunct "(" then
    advance
    advance
    unless (← token).isString do unexpected "a string literal"
    advance
    expect ")"
  else Types.entityName (nameOr false false)
  expectStatementEnd
  return .group (← spanFrom lo) [] []

/-- When an imported module is evaluated. -/
inductive Phase where
  | evaluation
  | deferred
  | source
  deriving DecidableEq

def Phase.ofName? : String → Option Phase
  | "defer" => some .deferred
  | "source" => some .source
  | _ => none

/-- The names in braces or behind a star. A phase other than evaluation rules some of them out. -/
def importNames (phase : Phase) : Reader (List Ident) := do
  if phase != .source then
    if ← accept "*" then
      expectWord "as"
      return [← properName]
  if phase == .evaluation then
    if ← accept "\x7b" then
      let names ← commaList "\x7d" importSpecifier
      expect "\x7d"
      return names
  return []

/-- The default name behind `import`, with the words in front of it. -/
structure ImportHead where
  name? : Option Ident
  phase : Phase := .evaluation

/-- The default name behind `import type`, where the word has just been read as `first`. Nothing is
named if other names follow. -/
def typeHead (first : Ident) : Reader (Option Ident) := do
  if ← isAtAny ["*", "\x7b"] then return none
  let next ← ahead
  if !(← isAtReference) then return some first
  if !(← isAtWord "from") || next.isWord "from" then return some (← properName)
  if next.isPunct "=" then return some (← anyName)
  return some first

/-- The default name behind a phase, where the word has just been read as `first`. -/
def phaseHead (first : Ident) (phase : Phase) : Reader ImportHead := do
  if ← isAtAny ["*", "\x7b"] then return ⟨none, phase⟩
  let next ← ahead
  if ((← isAtReference) && !(← isAtWord "from")) || next.isWord "from" then
    return ⟨some (← properName), phase⟩
  return { name? := some first }

def importHead : Reader ImportHead := do
  if !(← isAtReference) then return { name? := none }
  let first ← properName
  let name? ← do
    if (← read).typescript && first.name == "type" then typeHead first else pure (some first)
  match name? with
  | none => return { name? }
  | some name =>
    if ← whenTyped (isAt "=") then return { name? }
    match Phase.ofName? name.name with
    | some phase => phaseHead name phase
    | none => return { name? }

def importDecl : Reader Stmt := do
  let lo ← here
  advance
  if (← token).isString then
    let _ ← moduleSource g
    return .imports (← spanFrom lo) []
  let head ← importHead
  if head.name?.isSome then
    if ← whenTyped (isAt "=") then return ← importEquals lo
    unless ← isAtWord "from" do expect ","
  let names ← importNames head.phase
  expectWord "from"
  let _ ← moduleSource g
  return .imports (← spanFrom lo) (head.name?.toList ++ names)

def exportSpecifier : Reader Unit := do
  match ← exportName with
  | some first =>
    if (← read).typescript && first.name == "type" && (← token).isAnyWord then
      let (_, more) ← typedName anyName
      if !more then return
  | none => pure ()
  if ← acceptWord "as" then
    let _ ← exportName

def exportDecorators (before : List Expr) : Reader (List Expr) := do
  if !(← isAt "@") then return before
  let lo ← here
  let found ← g.decorators false
  if !before.isEmpty then failAt .decoratedTwice lo
  return found

/-- A statement with the span of the export it is part of. -/
def exportOf (lo : Nat) (decl : Stmt) : Reader Stmt := do
  return .exported ⟨lo, decl.span.hi⟩ decl

def exportDefault (lo : Nat) (decorators : List Expr) : Reader Stmt := do
  let start ← here
  let decorators ← exportDecorators g decorators
  let classStart := if decorators.isEmpty then start else lo
  let typescript := (← read).typescript
  let next ← ahead
  if typescript && (← isAtWord "abstract") then
    if next.isWord "class" && !next.fresh then
      advance
      let e ← Operators.classDef g classStart decorators
      return .expr (← spanFrom lo) e
    if next.isWord "interface" then advance
  let t ← token
  let next ← ahead
  if typescript && t.isWord "interface" then
    advance
    let _ ← Declarations.interfaceTail g start
    return .group (← spanFrom lo) [] []
  if t.isWord "class" then
    let e ← Operators.classDef g classStart decorators
    return .expr (← spanFrom lo) e
  let async := t.isWord "async" && next.isWord "function" && !next.fresh
  if async || t.isWord "function" then
    if async then advance
    match ← Operators.functionWith g decorators async false with
    | (some name, fn, _) => return .function (← spanFrom lo) name fn
    | (none, fn, _) =>
      let span ← spanFrom lo
      return .expr span (.function ⟨start, span.hi⟩ none fn)
  let e ← allowIn g.assignment
  expectStatementEnd
  return .expr (← spanFrom lo) e

/-- All names of another module, or those in braces. The former end where their source does. -/
def exportList (lo : Nat) : Reader Stmt := do
  if ← accept "*" then
    if ← acceptWord "as" then
      let _ ← exportName
    expectWord "from"
    let (attributes, stop) ← moduleSource g
    return .group ⟨lo, stop⟩ attributes []
  expect "\x7b"
  let _ ← commaList "\x7d" exportSpecifier
  expect "\x7d"
  if ← acceptWord "from" then
    let (attributes, _) ← moduleSource g
    return .group (← spanFrom lo) attributes []
  let _ ← acceptStatementEnd
  return .group (← spanFrom lo) [] []

def typedExport (lo : Nat) (decorators : List Expr) : Reader (Option Stmt) := do
  let start ← here
  if ← acceptWord "declare" then
    if let some decl ← Declarations.declared g start decorators then
      return some (← exportOf lo decl)
  match (← token).kind with
  | .word name _ =>
    let start ← here
    if let some decl ← attempt (Declarations.ofWord g start decorators name true) then
      return some (← exportOf lo decl)
  | _ => pure ()
  if ← acceptWord "import" then
    if (← isAtWord "type") && (← ahead).isAnyWord then advance
    let _ ← anyName
    return some (← importEquals lo)
  if ← accept "=" then
    let e ← g.expression
    expectStatementEnd
    return some (.expr (← spanFrom lo) e)
  if ← acceptWord "as" then
    expectWord "namespace"
    let _ ← nameOr false false
    expectStatementEnd
    return some (.group (← spanFrom lo) [] [])
  return none

def exportDecl (decorators : List Expr) : Reader Stmt := do
  let lo ← here
  expectWord "export"
  if (← token).isEof then failAtEnd
  let typescript := (← read).typescript
  if typescript then
    if let some s ← typedExport g lo decorators then return s
  let typeOnly ← whenTyped (acceptWord "type")
  if !typeOnly then
    if ← acceptWord "default" then return ← exportDefault g lo decorators
  let decorators ← exportDecorators g decorators
  if typeOnly then return ← exportList g lo
  let start ← here
  let t ← token
  let next ← ahead
  if t.isWord "class" then return ← exportOf lo (← Statements.classDecl g start decorators)
  if t.isWord "async" && next.isWord "function" && !next.fresh then
    advance
    return ← exportOf lo (← Statements.functionDecl g start decorators true)
  if t.isWord "function" then
    return ← exportOf lo (← Statements.functionDecl g start decorators false)
  if typescript && t.isWord "const" && next.isWord "enum" then
    advance
    advance
    return ← exportOf lo (← Declarations.enumTail g start)
  if ← Statements.atVars true then return ← exportOf lo (← Statements.vars g false)
  exportList g lo

/-- Words that are let pass in front of `interface`. -/
def interfaceModifiers : List String :=
  ["public", "static", "abstract"]

/-- A statement that starts with an expression: a label, a typed declaration, or the expression. -/
def exprStmt (lo : Nat) (decorators : List Expr) : Reader Stmt := do
  let e ← allowIn g.expression
  match e with
  | .name id =>
    if ← accept ":" then
      let body ← g.statement false
      return .group (← spanFrom id.span.lo) [] [body]
    if id.name == "interface" && (← token).fresh then
      let _ ← acceptStatementEnd
      return .expr (← spanFrom lo) e
    if (← read).typescript then
      if let some s ← Declarations.ofName g id.span.lo decorators id.name then return s
      if interfaceModifiers.contains id.name then
        if ← acceptWord "interface" then return ← Declarations.interfaceTail g lo
  | _ => pure ()
  Statements.exprEnd g lo e

/-- A type that is declared here, by a word with a name behind it on the same line. -/
def typeDecl? : Reader (Option Stmt) := do
  let t ← token
  let next ← ahead
  if !(← read).typescript || !next.isAnyWord || next.fresh then return none
  match t.role with
  | "interface" =>
    advance
    return some (← Declarations.interfaceTail g t.lo)
  | "type" =>
    advance
    return some (← Declarations.aliasTail g t.lo)
  | "enum" =>
    advance
    return some (← Declarations.enumTail g t.lo)
  | _ => return none

/-- A statement behind the decorators in front of it, which count for where some of them start. -/
def undecorated (lo : Nat) (decorators : List Expr) (declares : Bool) : Reader Stmt := do
  let mode ← read
  let t ← token
  let next ← ahead
  if mode.typescript && t.isWord "const" && next.isWord "enum" then
    advance
    advance
    return ← Declarations.enumTail g lo
  if t.isWord "await" && next.isWord "using" && (declares || mode.topLevel) then
    return ← Statements.awaitUsing g lo
  if declares then
    if let some s ← Statements.resource? g lo then return s
  if let some s ← typeDecl? g then return s
  if ← Statements.atVars declares then return ← Statements.vars g false
  match t.kind with
  | .punct "\x7b" => Statements.blockStmt g
  | .punct ";" =>
    advance
    return .group (← spanFrom lo) [] []
  | _ =>
    match t.role with
    | "function" => Statements.functionDecl g t.lo decorators false
    | "class" => Statements.classDecl g lo decorators
    | "if" => Statements.ifStmt g t.lo
    | "for" => Statements.forStmt g t.lo
    | "while" | "with" =>
      advance
      let e ← Statements.test g
      let body ← g.statement false
      return .group (← spanFrom t.lo) [e] [body]
    | "do" => Statements.doStmt g t.lo
    | "return" => Statements.returnStmt g t.lo
    | "throw" => Statements.throwStmt g t.lo
    | "break" | "continue" => Statements.jumpStmt lo
    | "debugger" =>
      advance
      expectStatementEnd
      return .group (← spanFrom lo) [] []
    | "switch" => Statements.switchStmt g t.lo
    | "try" => Statements.tryStmt g t.lo
    | "catch" | "finally" => Statements.strayHandler g
    | role =>
      if role == "async" && next.isWord "function" && !next.fresh then
        advance
        Statements.functionDecl g t.lo decorators true
      else exprStmt g lo decorators

/-- An expression that starts with `import` here, as a statement. No end has to follow it. -/
def importExpr? : Reader (Option Stmt) := do
  let next ← ahead
  if (← isAtWord "import") && (next.isPunct "(" || next.isPunct ".") then
    let lo ← here
    let e ← g.expression
    let _ ← acceptStatementEnd
    return some (.expr (← spanFrom lo) e)
  return none

def statement (declares : Bool) : Reader Stmt := do
  let lo ← here
  let decorators ← g.decorators true
  if let some s ← importExpr? g then return s
  let t ← token
  if t.isWord "export" || t.isWord "import" then fail .moduleItemNested
  undecorated g lo decorators declares

def moduleItem : Reader Stmt := do
  let lo ← here
  let decorators ← g.decorators true
  if let some s ← importExpr? g then return s
  let t ← token
  if t.isWord "import" then importDecl g
  else if t.isWord "export" then exportDecl g decorators
  else undecorated g lo decorators true

end RefSugar.Syntax.Modules
