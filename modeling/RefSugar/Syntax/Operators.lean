import RefSugar.Syntax.Parens

/-!
Expressions from their smallest parts up to assignments.
-/
namespace RefSugar.Syntax.Operators

variable (g : Grammar)

/-- Stands for an operand that could not be read. -/
def missing (lo : Nat) : Expr :=
  .compound ⟨lo, lo⟩ .missing []

/-- An angle bracket that a type left standing alone joins with what follows it. -/
def rejoin : Reader Unit := do
  let t ← token
  if (t.isPunct "<" || t.isPunct ">") && !(← read).inType then
    let (kind, stop) := Lexer.scan false t.start t.text
    retake kind stop

/-- The operators that bind tighter than `least`, and their operands, behind an expression. -/
def operatorsUpTo : Nat → Nat → Expr → Reader Expr
  | 0, _, left => return left
  | fuel + 1, least, left => do
    let mode ← read
    let t ← token
    if mode.typescript && !t.fresh && least < 7 && (t.isWord "as" || t.isWord "satisfies") then
      let next ← ahead
      if t.isWord "as" && next.isWord "const" then
        advance
        advance
        operatorsUpTo fuel least (.wrapped (← spanFrom left.span.lo) .asConst left)
      else
        advance
        inTypes g.type
        rejoin
        let kind : Wrapping := if t.isWord "as" then .asType else .satisfies
        operatorsUpTo fuel least (.wrapped (← spanFrom left.span.lo) kind left)
    else
      match t.precedence mode.inAllowed with
      | none => return left
      | some tightness =>
        if tightness ≤ least then return left
        else
          advance
          match left with
          | .compound _ .unary _ | .compound _ .await _ =>
            if t.isPunct "**" then fail .powerOfUnary
          | _ => pure ()
          let first ← g.unary
          let right ← operatorsUpTo fuel (if t.isPunct "**" then tightness - 1 else tightness) first
          operatorsUpTo fuel least
            (.compound (Parens.joinSpans left right) .operation [left, right])

def operators (e : Expr) : Reader Expr := do
  operatorsUpTo g (← read).limit 0 e

/-- Operands with operators between them. If the first operand cannot be read, and an operator
stands where reading stopped, the operand counts as missing. A place without any token explains the
failure better than the failure itself. -/
def binary : Reader Expr := do
  let first ← try g.unary catch fault => do
    checkToken
    let mode ← read
    if ((← token).precedence mode.inAllowed).isSome then pure (missing fault.offset)
    else throw fault
  if first.isArrow then return first
  operators g first

def assigned (lo : Nat) (left : Expr) : Reader Expr := do
  match (← token).assignment with
  | none => return left
  | some plain =>
    let target ← Patterns.lift (Patterns.assignmentTarget plain left)
    advance
    let value ← g.assignment
    return .assign (← spanFrom lo) plain target value

def parens (mayArrow : Bool) (asyncAt : Option Ident) : Reader Expr :=
  Parens.parens g (binary g) (assigned g) (operators g) mayArrow asyncAt

/-- A function behind `function`, whose name may be missing, and whether it has a body. -/
def functionWith (decorators : List Expr) (async own : Bool) :
    Reader (Option Ident × Func × Bool) := do
  expectWord "function"
  let generator ← accept "*"
  let name ← within (fun m => if own then { m with async, generator } else m)
    (optionalName properName)
  let (fn, hasBody) ← Functions.tail g decorators async generator
  return (name, fn, hasBody)

def function (lo : Nat) (async : Bool) : Reader Expr := do
  let (name, fn, hasBody) ← functionWith g [] async true
  unless hasBody do unexpected "\x7b"
  return .function (← spanFrom lo) name fn

def classDef (lo : Nat) (decorators : List Expr) : Reader Expr := do
  let (name, cls) ← Classes.classWith g decorators (optionalName lexicalName)
  return .classDef (← spanFrom lo) name cls

def named (mayArrow : Bool) : Reader Expr := do
  let id ← properName
  let mode ← read
  let t ← token
  if mayArrow && id.name == "async" && !t.fresh && mode.isReference t then
    if mode.inLoopHead && t.isWord "of" && !(← ahead).isPunct "=>" then return .name id
    let param ← properName
    if mode.typescript && param.name == "as" && !(← isAt "=>") then
      inTypes g.type
      return .wrapped (← spanFrom id.span.lo) .asType (.name id)
    expect "=>"
    return ← Functions.arrowTail g id.span.lo true [.name param]
  if mayArrow && !t.fresh then
    if ← accept "=>" then return ← Functions.arrowTail g id.span.lo false [.name id]
  return .name id

/-- What may start with the word `async`, apart from a name: a function, or an arrow function with
parentheses. -/
def asyncStart (mayArrow : Bool) : Reader (Option Expr) := do
  let mode ← read
  let t ← token
  let next ← ahead
  let id : Ident := ⟨"async", ⟨t.lo, t.hi⟩⟩
  if next.isWord "function" && !next.fresh then
    advance
    return some (← function g t.lo true)
  if mayArrow && mode.typescript && next.isPunct "<" then
    let found ← attempt do
      advance
      Calls.asyncGenericArrow g t.lo
    if found.isSome then return found
  if mayArrow && next.isPunct "(" && !next.fresh then
    advance
    return some (← parens g mayArrow (some id))
  return none

/-- The word may be a name in an expression. Typed dialects let some of them pass that are reserved.
-/
def mayBeName (m : Mode) (t : Token) : Bool :=
  m.isReference t || t.isWord "let" ||
    (m.typescript && t.role != "yield" &&
      (contextualWords.contains t.role || t.isWord "enum"))

def privateName (lo : Nat) : Reader Expr := do
  advance
  let _ ← anyName
  return .compound (← spanFrom lo) .keyword []

def decorated (lo : Nat) : Reader Expr := do
  let decorators ← g.decorators false
  if ← isAtWord "class" then classDef g lo decorators
  else if mayBeName (← read) (← token) then named g false
  else fail .expressionExpected

def primary : Reader Expr := do
  let mode ← read
  let t ← token
  let span : Span := ⟨t.lo, t.hi⟩
  let mayArrow := (← get).arrowStart == some t.lo
  match t.kind with
  | .string | .number | .bigint =>
    advance
    return .compound span .literal []
  | .template _ => Literals.template g
  | .punct "[" => Literals.array g
  | .punct "\x7b" => Literals.object g
  | .punct "(" => parens g mayArrow none
  | .punct "/" | .punct "/=" => Literals.regex
  | .punct "#" => privateName t.lo
  | .punct "@" => decorated g t.lo
  | .word _ _ =>
    match t.role with
    | "this" =>
      advance
      return .compound span .keyword []
    | "null" | "true" | "false" =>
      advance
      return .compound span .literal []
    | "function" => function g t.lo false
    | "class" => classDef g t.lo []
    | role =>
      if role == "async" then
        if let some e ← asyncStart g mayArrow then return e
      if mayBeName mode t then named g mayArrow else fail .expressionExpected
  | _ => fail .expressionExpected

/-- An expression behind a sign or a word that applies to it. What cannot be read is missing. -/
def operand : Reader Expr := do
  let lo ← here
  advance
  let start ← here
  let e ← try g.unary catch _ => pure (missing (start - 1))
  return .compound ⟨lo, e.span.hi⟩ .unary [e]

/-- An expression behind `await`, which is a name where nothing can follow it. -/
def awaited (word : Span) : Reader Expr := do
  if ← isAt "*" then fail .starAfterAwait
  if !(← read).async && ((← atStatementEnd) || (← isAtAny [")", "]", ","])) then
    return .name ⟨"await", word⟩
  let e ← g.unary
  return .compound (← spanFrom word.lo) .await [e]

def awaiting : Reader Expr := do
  let word ← tokenSpan
  advance
  awaited g word

/-- A type in angle brackets and the expression it is asserted of. -/
def assertion : Reader Expr := do
  let lo ← here
  let next ← ahead
  if next.isWord "const" then
    advance
    advance
    expect ">"
    let e ← g.unary
    return .wrapped (← spanFrom lo) .asConst e
  advance
  inTypes g.type
  expect ">"
  let e ← g.unary
  return .wrapped (← spanFrom lo) .assertion e

def unary : Reader Expr := do
  let mode ← read
  let t ← token
  if t.isPunct "<" then
    if mode.jsx then
      let next ← ahead
      if next.isAnyWord || next.isPunct ">" then return ← g.element false
    else if mode.typescript then return ← assertion g
  if t.isPunct "++" || t.isPunct "--" then
    advance
    let e ← g.unary
    return .update (← spanFrom t.lo) e
  if ["+", "-", "~", "!"].any t.isPunct || ["delete", "void", "typeof"].any t.isWord then
    return ← operand g
  if t.isWord "await" then return ← awaiting g
  let e ← g.leftHand
  if e.isArrow then return e
  let after ← token
  if !after.fresh && (after.isPunct "++" || after.isPunct "--") then
    advance
    return .update (← spanFrom t.lo) e
  return e

def conditional : Reader Expr := do
  let test ← binary g
  if test.isArrow then return test
  if ← accept "?" then
    let (middle, last) ← Parens.branches g
    return .compound (Parens.joinSpans test last) .conditional [test, middle, last]
  return test

def yielding : Reader Expr := do
  let lo ← here
  let mode ← read
  if mode.inParams then fail .yieldInParams
  advance
  let t ← token
  if (← atStatementEnd) || !(t.isPunct "*" || Calls.startsExpression mode t || t.isPunct "@") then
    return .compound (← spanFrom lo) .yield []
  let _ ← accept "*"
  let e ← g.assignment
  return .compound (← spanFrom lo) .yield [e]

/-- An assignment or less, not counting type parameters in front of an arrow function. -/
def untyped : Reader Expr := do
  let mode ← read
  let t ← token
  if mode.generator && t.isWord "yield" then return ← yielding g
  let mayArrow := t.isAnyWord || t.isPunct "("
  modify fun s => { s with arrowStart := if mayArrow then some t.lo else none }
  let e ← conditional g
  match e with
  | .arrow _ _ _ | .arrowTo _ _ _ | .update _ _ => return e
  | .compound _ .conditional _ | .compound _ .operation _ | .compound _ .unary _ => return e
  | e => assigned g t.lo e

def genericArrow (lo : Nat) : Reader (Option Expr) :=
  within (fun m => { m with colonAhead := false }) do
    Calls.arrowTypeParams g
    match ← untyped g with
    | .arrow span params body => return some (.arrow ⟨lo, span.hi⟩ params body)
    | .arrowTo span params result => return some (.arrowTo ⟨lo, span.hi⟩ params result)
    | _ => return none

def assignment : Reader Expr := do
  let t ← token
  if (← read).typescript && t.isPunct "<" && (← ahead).isAnyWord then
    if let some e ← attempt (genericArrow g t.lo) then return e
  untyped g

end RefSugar.Syntax.Operators
