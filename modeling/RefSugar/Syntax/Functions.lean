import RefSugar.Syntax.Patterns

/-!
Reading functions from behind their names.
-/
namespace RefSugar.Syntax.Functions

variable (g : Grammar)

def inBody (async generator : Bool) (m : Mode) : Mode :=
  { m with
    async, generator, inFunction := true, inParams := false, inStaticBlock := false
    topLevel := false }

/-- The current token opens a block whose first statement asks for strictness. -/
def asksStrictness : Reader Bool := do
  let next ← ahead
  let spelling := "use strict".toList
  return (← isAt "\x7b") && next.isString && next.hi - next.start == 12 &&
    (next.text.drop 1).take 10 == spelling

/-- The body of a function. In a typed dialect it may be missing. -/
def body (async generator : Bool) : Reader (Option (List Stmt)) :=
  within (inBody async generator) do
    if ← whenTyped (return !(← isAt "\x7b") && (← acceptStatementEnd)) then return none
    let strictly ← asksStrictness
    within (fun m => { m with strict := m.strict || strictly }) do
      return some (← allowIn g.block)

/-- A function from its type parameters on; the flag tells that it has a body. -/
def tailAndBody (decorators : List Expr) (async generator : Bool) : Reader (Func × Bool) :=
  within (fun m => { m with async, generator }) do
    Types.optionalTypeParams g
    expect "("
    let params ← within (fun m => { m with inParams := true, inFunction := false }) g.params
    expect ")"
    if ← whenTyped (isAt ":") then Types.resultType g ":"
    let stmts ← body g async generator
    return (.mk decorators params (stmts.getD []), stmts.isSome)

def methodTail (decorators : List Expr) (async generator : Bool) : Reader Func := do
  let (fn, _) ← within (fun m => { m with superAllowed := true })
    (tailAndBody g decorators async generator)
  return fn

/-- A function that is no method, from its type parameters on. -/
def tail (decorators : List Expr) (async generator : Bool) : Reader (Func × Bool) :=
  within (fun m => { m with superAllowed := false, colonAhead := false })
    (tailAndBody g decorators async generator)

def arrowTail (lo : Nat) (async : Bool) (params : List Pattern) : Reader Expr :=
  within (inBody async false) do
    if ← isAt "\x7b" then
      let stmts ← g.block
      return .arrow (← spanFrom lo) params stmts
    else
      let result ← g.assignment
      return .arrowTo (← spanFrom lo) params result

def atMethod : Reader Bool := do
  if ← isAt "(" then return true
  whenTyped (isAt "<")

end RefSugar.Syntax.Functions
