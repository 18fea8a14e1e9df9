import RefSugar.Syntax.Operators

/-!
Reading statements and declarations.
-/
namespace RefSugar.Syntax.Statements

variable (g : Grammar)

/-- Statements up to a closing brace, which may be missing at the end of the text. -/
def statements (statement : Reader Stmt) : Reader (List Stmt) := do
  let stmts ← collect do
    let t ← token
    if t.isEof || t.isPunct "\x7d" then return none
    return some (← statement)
  unless (← token).isEof do expect "\x7d"
  return stmts

def block : Reader (List Stmt) := do
  expect "\x7b"
  within (fun m => { m with colonAhead := false, topLevel := false })
    (statements (g.statement true))

def blockStmt : Reader Stmt := do
  let lo ← here
  let stmts ← g.block
  return .block (← spanFrom lo) stmts

inductive VarWord where
  | var
  | let_
  | const
  deriving DecidableEq

def VarWord.kind : VarWord → VarKind
  | var => .hoisted
  | let_ | const => .lexical

/-- One declared variable of a statement, or of the head of a loop. Only `const` and ambient
declarations may leave a pattern without a value. -/
def declarator (inLoop : Bool) (word : VarWord) : Reader Declarator := do
  let lo ← here
  let target ← Patterns.bindingWith g (if word == .var then properName else lexicalName)
  let isName := match target with
    | .name _ => true
    | _ => false
  if isName then
    let _ ← whenTyped (accept "!")
  Types.optionalAnnotation g
  let headEnds ← do
    if inLoop then pure ((← isAtWord "in") || (← isAtWord "of")) else pure false
  let init ←
    if headEnds then pure none
    else do
      if ← accept "=" then pure (some (← g.assignment))
      else if isName || (word == .const && !inLoop) || (← read).ambient then pure none
      else failAt .missingInitializer lo
  return .mk (← spanFrom lo) target init

/-- Declared variables with commas between them, up to where the statement ends. -/
def declarators (inLoop : Bool) (word : VarWord) : Reader (List Declarator) := do
  let (found, _) ← iterate (fun (found, more) => do
    if !more || (← isAt ";") then return none
    let d ← declarator g inLoop word
    return some (found ++ [d], ← accept ",")) ([], true)
  return found

/-- The head of a loop goes on to what it goes through without declaring anything. -/
def declaresNothing : Reader Bool := do
  if !(← isAtWord "in") && !(← isAtWord "of") then return false
  foresee do
    advance
    let _ ← g.assignment
    isAt ")"

def skipToEnd : Reader Unit := do
  let _ ← try (do let _ ← g.expression) catch _ => pure ()
  let _ ← collect do
    if ← acceptStatementEnd then return none
    advance
    match (← token).kind with
    | .fault _ _ | .escapedWord _ _ => return none
    | _ => return some ()

/-- `var`, `let` or `const`. Outside loops, what follows the last variable is skipped. -/
def vars (inLoop : Bool) : Reader Stmt := do
  let t ← token
  let word : VarWord :=
    if t.isWord "var" then .var else if t.isWord "const" then .const else .let_
  advance
  if inLoop && (← whenTyped (declaresNothing g)) then return .vars (← spanFrom t.lo) word.kind []
  let decls ← within (fun m => { m with inAllowed := m.inAllowed || word != .var || !inLoop })
    (declarators g inLoop word)
  if !inLoop then
    unless ← acceptStatementEnd do skipToEnd g
  return .vars (← spanFrom t.lo) word.kind decls

/-- `let` declares something if this token stands behind it. -/
def letDeclares (next : Token) : Bool :=
  next.isPunct "\x7b" || next.isPunct "[" ||
    (next.isAnyWord && (next.isWord "enum" || !isReserved next.role))

def atVars (letToo : Bool) : Reader Bool := do
  let t ← token
  if t.isWord "var" || (t.isWord "const" && letToo) then return true
  return t.isWord "let" && letToo && letDeclares (← ahead)

/-- The token may be the first name that `using` declares, where `before` is `using` itself. -/
def followsUsing (m : Mode) (before next : Token) : Bool :=
  before.isWord "using" && !next.fresh && m.isReference next

/-- A declaration from `using` on, if a name follows it. -/
def resource? (lo : Nat) : Reader (Option Stmt) := do
  if !followsUsing (← read) (← token) (← ahead) then return none
  advance
  let decls ← declarators g false .var
  expectStatementEnd
  return some (.resource (← spanFrom lo) decls)

/-- A statement that starts with `await using`. If no name follows, it is an expression, behind
which no end has to follow. -/
def awaitUsing (lo : Nat) : Reader Stmt := do
  let word ← tokenSpan
  advance
  if let some s ← resource? g lo then return s
  let e ← Operators.awaited g word
  let e ← allowIn (Operators.operators g e)
  let _ ← acceptStatementEnd
  return .expr (← spanFrom lo) e

def functionDecl (lo : Nat) (decorators : List Expr) (async : Bool) : Reader Stmt := do
  expectWord "function"
  let generator ← accept "*"
  let name ← properName
  let (fn, _) ← Functions.tail g decorators async generator
  return .function (← spanFrom lo) name fn

def classDecl (lo : Nat) (decorators : List Expr) : Reader Stmt := do
  let (name, cls) ← Classes.classWith g decorators lexicalName
  return .classDef (← spanFrom lo) name cls

def test : Reader Expr := do
  expect "("
  let e ← allowIn g.expression
  expect ")"
  return e

def ifStmt (lo : Nat) : Reader Stmt := do
  advance
  let e ← test g
  let first ← g.statement false
  let second ← do
    if ← acceptWord "else" then pure [← g.statement false] else pure []
  return .group (← spanFrom lo) [e] (first :: second)

def doStmt (lo : Nat) : Reader Stmt := do
  advance
  let body ← g.statement false
  expectWord "while"
  let e ← test g
  let _ ← acceptStatementEnd
  return .group (← spanFrom lo) [e] [body]

/-- The test and the step of a loop, the first semicolon read already. The second may be missing
behind a test. -/
def loopParts : Reader (List Expr) := do
  let test ← do
    if ← accept ";" then pure []
    else
      let e ← allowIn g.expression
      let _ ← accept ";"
      pure [e]
  let step ← do
    if ← isAt ")" then pure [] else pure [← allowIn g.expression]
  return test ++ step

inductive LoopHead where
  | steps (start : List Stmt) (parts : List Expr)
  | over (decl : Stmt) (source : Expr) (isOf : Bool)
  | into (target : Pattern) (source : Expr) (isOf : Bool)

/-- What a loop goes through, from `in` or `of` on, and whether it is `of`. -/
def loopSource : Reader (Expr × Bool) := do
  let isOf ← acceptWord "of"
  if isOf then return (← allowIn g.assignment, true)
  advance
  return (← allowIn g.expression, false)

def atLoopWord : Reader Bool := do
  return (← isAtWord "of") || (← isAtWord "in")

def headWithDecl (decl : Stmt) : Reader LoopHead := do
  if ← atLoopWord then
    let (source, isOf) ← loopSource g
    return .over decl source isOf
  expect ";"
  return .steps [decl] (← loopParts g)

/-- `using`, or `await using`, as it is read before it is known to declare a name. -/
def isUsing : Expr → Bool
  | .name id | .compound _ .await [.name id] => id.name == "using"
  | _ => false

def headWithExpr : Reader LoopHead := do
  let lo ← here
  let e ← within (fun m => { m with inAllowed := false }) g.expression
  let next ← ahead
  let declares ← whenTyped
    (return isUsing e && !(← isAtWord "of") && (next.isWord "of" || next.isWord "in"))
  if declares then
    let name ← properName
    let span ← spanFrom lo
    let (source, isOf) ← loopSource g
    return .over (.resource span [.mk span (.name name) none]) source isOf
  if ← atLoopWord then
    let target ← Patterns.lift (Patterns.loopTarget e)
    let (source, isOf) ← loopSource g
    return .into target source isOf
  let span ← spanFrom lo
  expect ";"
  return .steps [.expr span e] (← loopParts g)

def loopHead : Reader LoopHead := do
  if ← atVars true then headWithDecl g (← vars g true)
  else if ← accept ";" then return .steps [] (← loopParts g)
  else headWithExpr g

def forStmt (lo : Nat) : Reader Stmt := do
  advance
  let awaitAt ← here
  let awaits ← acceptWord "await"
  expect "("
  let head ← within (fun m => { m with inLoopHead := true }) (loopHead g)
  expect ")"
  let body ← g.statement false
  let span ← spanFrom lo
  let isOf := match head with
    | .steps _ _ => false
    | .over _ _ isOf | .into _ _ isOf => isOf
  if awaits && !isOf then failAt .awaitNotOfLoop awaitAt
  match head with
  | .steps start parts => return .loop span start parts body
  | .over decl source _ => return .loopOver span source decl body
  | .into target source _ => return .loopInto span source target body

/-- One case of a `switch`; `seen` tells that the default one was before it. -/
def switchCase (seen : Bool) : Reader (Stmt × Bool) := do
  let lo ← here
  let isDefault ← isAtWord "default"
  advance
  if isDefault && seen then fail .secondDefault
  let parts ← if isDefault then pure [] else pure [← allowIn g.expression]
  expect ":"
  let body ← collect do
    let t ← token
    if t.isPunct "\x7d" || t.isWord "case" || t.isWord "default" then return none
    return some (← g.statement true)
  return (.group (← spanFrom lo) parts body, seen || isDefault)

def switchStmt (lo : Nat) : Reader Stmt := do
  advance
  let subject ← test g
  expect "\x7b"
  let (cases, _) ← iterate (fun (cases, seen) => do
    if (← isAtWord "case") || (← isAtWord "default") then
      let (found, seen) ← switchCase g seen
      return some (cases ++ [found], seen)
    else return none) ([], false)
  expect "\x7d"
  return .switch (← spanFrom lo) subject cases

def handler : Reader Stmt := do
  let lo ← here
  advance
  let params ← do
    if ← accept "(" then
      let p ← g.binding
      Types.optionalAnnotation g
      expect ")"
      pure [p]
    else pure []
  let body ← g.block
  return .handler (← spanFrom lo) params body

def tryStmt (lo : Nat) : Reader Stmt := do
  advance
  let body ← blockStmt g
  let caught ← do
    if ← isAtWord "catch" then pure [← handler g] else pure []
  let final ← do
    if ← acceptWord "finally" then pure [← blockStmt g] else pure []
  return .group (← spanFrom lo) [] (body :: caught ++ final)

/-- A handler without the block it handles is read and dropped, but for its word. -/
def strayHandler : Reader Stmt := do
  let span ← tokenSpan
  if ← isAtWord "catch" then
    let _ ← try (do let _ ← handler g) catch _ => pure ()
  if ← acceptWord "finally" then
    let _ ← try (do let _ ← g.block) catch _ => pure ()
  return .group span [] []

def jumpStmt (lo : Nat) : Reader Stmt := do
  advance
  unless ← acceptStatementEnd do
    let mode ← read
    let _ ← nameOr (!mode.generator) (!mode.async)
    expectStatementEnd
  return .group (← spanFrom lo) [] []

def returnStmt (lo : Nat) : Reader Stmt := do
  advance
  let value ← do
    if ← atStatementEnd then pure none else pure (some (← allowIn g.expression))
  expectStatementEnd
  return .ret (← spanFrom lo) value

def throwStmt (lo : Nat) : Reader Stmt := do
  advance
  if (← token).fresh then fail .lineBreakAfterThrow
  let e ← allowIn g.expression
  expectStatementEnd
  return .group (← spanFrom lo) [e] []

/-- An expression on its own. If an operator follows it, its operands are read as well. -/
def exprEnd (lo : Nat) (e : Expr) : Reader Stmt := do
  if ← acceptStatementEnd then return .expr (← spanFrom lo) e
  if (← token).isSign then
    let e ← Operators.operators g e
    return .expr (← spanFrom lo) e
  fail .statementEnd

end RefSugar.Syntax.Statements
