import RefSugar.Syntax.Functions

/-!
Reading keys, arguments, arrays, objects, templates and regular expressions.
-/
namespace RefSugar.Syntax.Literals

variable (g : Grammar)

/-- The expression in brackets as a key. Types let several stand there. -/
def computedKey : Reader Key := do
  let lo ← here
  let first ← allowIn g.assignment
  let more ← collect do
    if ← whenTyped (accept ",") then return some (← allowIn g.assignment) else return none
  let span ← spanFrom lo
  expect "]"
  return .computed (if more.isEmpty then first else .compound span .sequence (first :: more))

def key : Reader Key := do
  let t ← token
  let span : Span := ⟨t.lo, t.hi⟩
  match t.kind with
  | .string =>
    advance
    return .string span
  | .number =>
    advance
    return .number span
  | .bigint =>
    advance
    return .other
  | .word name _ =>
    advance
    return .name ⟨name, span⟩
  | .punct "[" =>
    advance
    computedKey g
  | _ => unexpected "identifier, string literal, numeric literal or [ for the computed key"

def item : Reader Item := do
  if ← accept "..." then return .spread (← allowIn g.assignment)
  return .one (← allowIn g.assignment)

def args : Reader (List Item) :=
  within (fun m => { m with colonAhead := false }) do
    expect "("
    let items ← commaList ")" (item g)
    expect ")"
    return items

def array : Reader Expr :=
  within (fun m => { m with colonAhead := false }) do
    let lo ← here
    expect "["
    let items ← collect do
      if ← isAt "]" then return none
      if ← accept "," then return some .hole
      let found ← item g
      unless ← isAt "]" do expect ","
      return some found
    expect "]"
    return .array (← spanFrom lo) items

/-- The parameter of a setter that takes the value. The first of several stands for `this`. -/
def setterParam : List Param → Pattern
  | [] => .hole
  | [.mk _ pattern] => pattern
  | _ :: .mk _ pattern :: _ => pattern

/-- A member of an object that starts with `get`, `set` or `async`. -/
def wordProperty (lo : Nat) (word : String) : Reader Property := do
  let generator ← if word == "async" then accept "*" else pure false
  let key ← g.key
  let fn ← Functions.methodTail g [] (word == "async") generator
  let span ← spanFrom lo
  match word, fn with
  | "get", .mk _ _ body => return .getter span key body
  | "set", .mk _ params body => return .setter span key (setterParam params) body
  | _, fn => return .method span key fn

/-- A token that may stand behind the key of a member. Behind any other the value counts as missing,
if types are read. -/
def mayFollowKey (key : Key) (t : Token) : Bool :=
  let isName := match key with
    | .name _ => true
    | _ => false
  t.isAnyWord || t.isString || t.isNumber || ["[", ",", "?", "=", "*"].any t.isPunct ||
    (isName && t.isPunct "\x7d")

def propertyTail (lo : Nat) (key : Key) : Reader Property := do
  let typescript := (← read).typescript
  if ← accept ":" then return .pair key (← allowIn g.assignment)
  if ← Functions.atMethod then
    let fn ← Functions.methodTail g [] false false
    return .method (← spanFrom lo) key fn
  if typescript && !mayFollowKey key (← token) then
    return .pair key (.compound (← spanFrom lo) .missing [])
  match key with
  | .name id =>
    let _ ← accept "?"
    if ← isAtAny ["=", ",", "\x7d"] then
      if ← accept "=" then return .default id (← allowIn g.assignment)
      return .shorthand id
    if ["get", "set", "async"].contains id.name then wordProperty g lo id.name
    else if typescript then
      unexpected
        "... , *,  (, [, :, , ?, =, an identifier, public, protected, private, readonly, <."
    else unexpected "... , *,  (, [, :, , ?, = or an identifier"
  | _ => unexpected "identifier"

def property : Reader Property := do
  let lo ← here
  if ← accept "..." then return .spread (← allowIn g.assignment)
  if ← accept "*" then
    let key ← g.key
    let fn ← Functions.methodTail g [] false true
    return .method (← spanFrom lo) key fn
  skipParamModifier
  let key ← g.key
  propertyTail g lo key

def object : Reader Expr :=
  within (fun m => { m with colonAhead := false }) do
    let lo ← here
    expect "\x7b"
    let properties ← commaList "\x7d" (property g)
    expect "\x7d"
    return .object (← spanFrom lo) properties

/-- The interpolations of a template, whose first piece is the current token. Only behind a tag may
it hold escapes that give no character. -/
def interpolations (tagged : Bool) : Reader (List Expr) := do
  let parts ← within (fun m => { m with colonAhead := false }) <| collect do
    unless tagged do checkPiece
    match (← token).kind with
    | .template true =>
      advance
      let e ← allowIn g.expression
      Types.templateRest
      return some e
    | _ => return none
  advance
  return parts

def template : Reader Expr := do
  let lo ← here
  let parts ← interpolations g false
  return .compound (← spanFrom lo) .template parts

/-- A regular expression, whose first character was scanned as a division. -/
def regex : Reader Expr := do
  let t ← token
  match Lexer.scanRegex false (t.start + 1) (t.text.drop 1) with
  | some stop =>
    let (kind, stop) := Lexer.scanFlags stop
    retake kind stop
    checkToken
    advance
    return .compound (← spanFrom t.lo) .literal []
  | none =>
    retake (.fault .unterminatedRegex t.start) ⟨t.start, []⟩
    fail .expressionExpected

end RefSugar.Syntax.Literals
