import RefSugar.Syntax.Classes

/-!
Parentheses. What stands in them is a parenthesized expression, the parameters of an arrow function
or the arguments of a call of `async`, and only what follows tells which.
-/
namespace RefSugar.Syntax.Parens

variable (g : Grammar)

inductive Entry where
  | item (i : Item)
  | pattern (p : Pattern)

/-- The entries as parameters. One that takes the rest, but is not the last, is dropped. -/
def patternsOf : List Entry → Except Fault (List Pattern)
  | [] => .ok []
  | [.item i] => do
    let pattern ← Patterns.itemOf .binding i
    return [pattern]
  | .item (.spread _) :: entries | .pattern (.expr _) :: entries => patternsOf entries
  | .item i :: entries => do
    let pattern ← Patterns.itemOf .binding i
    let patterns ← patternsOf entries
    return pattern :: patterns
  | .pattern p :: entries => do
    let patterns ← patternsOf entries
    return p :: patterns

def patterns (entries : List Entry) : Reader (List Pattern) :=
  Patterns.lift (patternsOf entries)

/-- The middle and the last part of a conditional expression, from behind the question mark. -/
def branches : Reader (Expr × Expr) := do
  let middle ← within (fun m => { m with inAllowed := true, inCond := true, colonAhead := true })
    g.assignment
  expect ":"
  let last ← within (fun m => { m with inCond := true, colonAhead := false }) g.assignment
  return (middle, last)

def joinSpans (a b : Expr) : Span :=
  ⟨a.span.lo, b.span.hi⟩

/-- An argument, or a parameter without its type. A name is not taken for the test of a conditional
expression before the token behind the question mark is known. -/
def entryItem (binary : Reader Expr) (finish : Nat → Expr → Reader Expr) (lo : Nat) :
    Reader Item := do
  let mode ← read
  let t ← token
  let next ← ahead
  if mode.typescript && (mode.isReference t || (t.isPunct "..." && mode.isReference next)) then
    if ← accept "..." then return .spread (← binary)
    let e ← binary
    return .one (← finish lo e)
  Literals.item g

/-- The question mark behind an entry marks an optional parameter, or goes on to a conditional
expression. -/
def entryMark (lo : Nat) (entry : Item) : Reader (Item × Bool) := do
  if !(← whenTyped (isAt "?")) then return (entry, false)
  let next ← ahead
  if [",", ":", ")", "="].any next.isPunct then
    advance
    match entry with
    | .one (.name _) | .spread (.name _) | .hole => return (entry, true)
    | .one e => failAt .optionalPattern e.span.lo
    | .spread _ => failAt .optionalPattern lo
  match entry with
  | .one e =>
    advance
    let (middle, last) ← branches g
    return (.one (.compound ⟨lo, last.span.hi⟩ .conditional [e, middle, last]), false)
  | _ => return (entry, false)

/-- A parameter that is a pattern takes its type; one that is none, or has a default already, leaves
it. -/
def entryType (pattern : Pattern) : Reader Unit := do
  match pattern with
  | .default _ _ | .hole | .invalid => pure ()
  | _ => Types.optionalAnnotation g

def entry (binary : Reader Expr) (finish : Nat → Expr → Reader Expr) : Reader Entry := do
  let lo ← here
  modify fun s => { s with arrowStart := some lo }
  skipParamModifier
  let (found, marked) ← entryMark g lo (← entryItem g binary finish lo)
  if marked || (← whenTyped (isAt ":")) then
    let pattern ← Patterns.lift (Patterns.itemOf .binding found)
    entryType g pattern
    if ← accept "=" then return .pattern (.default pattern (← g.assignment))
    return .pattern pattern
  return .item found

def Entry.isName : Entry → Bool
  | .item (.one (.name _)) | .item (.spread (.name _)) | .pattern (.name _) => true
  | _ => false

/-- The entries up to the closing parenthesis. A name with an arrow behind it makes an arrow
function of all entries so far, which is one more entry. -/
def entries (binary : Reader Expr) (finish : Nat → Expr → Reader Expr) : Reader (List Entry) :=
  iterate (fun found => do
    if ← isAt ")" then return none
    let lo ← here
    let found := found ++ [← entry g binary finish]
    let found ← do
      if (← accept "=>") && found.head?.any Entry.isName then
        let e ← Functions.arrowTail g lo false (← patterns found)
        pure (found ++ [.item (.one e)])
      else pure found
    unless ← isAt ")" do expect ","
    return some found) []

/-- An arrow function in the middle of a conditional expression, whose result type starts at the
colon. -/
def arrowBetween (lo : Nat) (async : Bool) (entries : List Entry) : Reader (Option Expr) := do
  Types.resultType g ":"
  expect "=>"
  let e ← Functions.arrowTail g lo async (← patterns entries)
  if (← read).colonAhead && !(← isAt ":") then return none
  return some e

def arrowType : Reader (Option Unit) := do
  Types.resultType g ":"
  return if ← isAt "=>" then some () else none

def enclosed (lo : Nat) (entries : List Entry) : Reader Expr := do
  let parts ← entries.mapM fun
    | .item (.one e) => pure e
    | .item (.spread e) => failAt .spreadInParens e.span.lo
    | _ => failAt .spreadInParens lo
  match parts with
  | [] => failAt .emptyParens lo
  | [e] => return .wrapped (← spanFrom lo) .parens e
  | first :: rest =>
    let last := rest.getLastD first
    return .wrapped (← spanFrom lo) .parens
      (.compound (joinSpans first last) .sequence parts)

/-- Everything from the opening parenthesis on. `asyncAt` is where the word `async` stands in front
of it, if it does; `mayArrow` tells that an arrow function may start here. -/
def parens (binary : Reader Expr) (finish : Nat → Expr → Reader Expr)
    (operators : Expr → Reader Expr) (mayArrow : Bool) (asyncAt : Option Ident) : Reader Expr := do
  let mode ← read
  let lo ← match asyncAt with
    | some id => pure id.span.lo
    | none => here
  let async := asyncAt.isSome
  let entries ← within (fun m => { m with inAllowed := true, colonAhead := false }) do
    expect "("
    let found ← entries g binary finish
    expect ")"
    return found
  if mode.typescript && mode.inCond && (← isAt ":") then
    if let some e ← attempt (arrowBetween g lo async entries) then return e
  let typed ←
    if mode.typescript && !mode.colonAhead && (← isAt ":") then attempt (arrowType g)
    else pure none
  let hasPattern := entries.any fun
    | .pattern _ => true
    | .item _ => false
  if hasPattern || typed.isSome || (← isAt "=>") then
    if (← token).fresh then failAt .lineBreakBeforeArrow lo
    if !mayArrow then failAt .arrowNotAllowed lo
    expect "=>"
    let e ← Functions.arrowTail g lo async (← patterns entries)
    match e with
    | .arrow _ _ _ => if (← token).isSign then operators e else return e
    | e => return e
  else
    match asyncAt with
    | some id =>
      let items := entries.filterMap fun
        | .item i => some i
        | .pattern _ => none
      return .call (← spanFrom lo) .plain (.name id) items
    | none => enclosed lo entries

end RefSugar.Syntax.Parens
