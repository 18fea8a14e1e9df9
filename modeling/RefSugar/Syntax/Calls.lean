import RefSugar.Syntax.Literals

/-!
Reading what stands behind an expression: fields, indices, arguments, templates and types.
-/
namespace RefSugar.Syntax.Calls

variable (g : Grammar)

structure Reach where
  calls : Bool
  indices : Bool

def Reach.full : Reach := ⟨true, true⟩

/-- The links that may stand behind what `new` constructs. -/
def Reach.ofMember : Reach := ⟨false, true⟩

/-- The type parameters of an arrow function. Where elements may stand, they have to be told from
one. -/
def arrowTypeParams : Reader Unit := do
  let clear ← g.typeParams
  if (← read).jsx && !clear then unexpected "("

/-- Type parameters, parameters, result and body of an asynchronous arrow function. -/
def asyncGenericArrow (lo : Nat) : Reader (Option Expr) := do
  arrowTypeParams g
  expect "("
  let params ← g.params
  expect ")"
  if ← isAt ":" then Types.resultType g ":"
  expect "=>"
  let patterns := params.map fun | .mk _ pattern => pattern
  return some (← Functions.arrowTail g lo true patterns)

/-- The expression is the word `async` where an arrow function may start. -/
def mayBeAsync : Expr → Reader Bool
  | .name id => return id.name == "async" && (← get).arrowStart == some id.span.lo
  | _ => return false

/-- The arguments of a call, and a tag's template, behind an expression. -/
def call (lo : Nat) (link : Link) (e : Expr) : Reader Expr := do
  let args ← Literals.args g
  return .call (← spanFrom lo) link e args

def tagged (lo : Nat) (e : Expr) : Reader Expr := do
  let parts ← Literals.interpolations g true
  return .compound (← spanFrom lo) .tagged (e :: parts)

/-- What may follow type arguments behind an expression. The answer tells whether the chain may go
on. -/
def typedLink (lo : Nat) (reach : Reach) (e : Expr) : Reader (Option (Expr × Bool)) := do
  if reach.calls && (← mayBeAsync e) then
    if let some arrow ← attempt (asyncGenericArrow g lo) then return some (arrow, true)
  g.typeArgs
  let t ← token
  if reach.calls && t.isPunct "(" then return some (← call g lo e.nextLink e, true)
  else if t.isTemplate then return some (← tagged g lo e, true)
  else if t.isPunct "=" || t.isWord "as" || t.isWord "satisfies" then
    return some (.wrapped (← spanFrom lo) .instantiation e, false)
  else return none

def startsExpression (m : Mode) (t : Token) : Bool :=
  match t.kind with
  | .number | .bigint | .string | .template _ => true
  | .word _ _ =>
    ["this", "super", "null", "true", "false", "function", "class", "new", "delete", "typeof",
      "void", "await", "yield", "import"].contains t.role || m.isReference t
  | .punct p =>
    ["(", "[", "\x7b", "/", "/=", "+", "-", "~", "!", "++", "--", "<", "#"].contains p
  | _ => false

/-- Type arguments that stand for themselves, and not in front of arguments or a template. -/
def instantiation : Reader (Option Unit) := do
  g.typeArgs
  let mode ← read
  let t ← token
  if t.isTemplate || ["(", "<", ">", "+", "-"].any t.isPunct then return none
  if t.fresh || t.isSign || !startsExpression mode t then return some ()
  return none

def fieldName : Reader Unit := do
  if ← isAt "#" then privateHash
  let _ ← anyName

/-- The key in brackets, the opening one read already. -/
def indexKey : Reader Expr := do
  let key ← allowIn g.expression
  expect "]"
  return key

def optionalLink (lo : Nat) (reach : Reach) (e : Expr) : Reader Expr := do
  let typescript := (← read).typescript
  let next ← ahead
  if reach.indices && next.isPunct "[" then
    advance
    advance
    let key ← indexKey g
    return .index (← spanFrom lo) .optional e key
  else if next.isPunct "(" || (typescript && next.isPunct "<") then
    advance
    if ← isAt "<" then g.typeArgs
    call g lo .optional e
  else
    expect "."
    fieldName
    return .field (← spanFrom lo) .optional e

def atOptionalLink : Reader Bool := do
  if ← isAt "?" then return (← ahead).isPunct "." else return false

def typescriptLink (lo : Nat) (reach : Reach) (e : Expr) : Reader (Option (Expr × Bool)) := do
  let t ← token
  if !t.fresh && t.isPunct "!" then
    advance
    return some (.wrapped (← spanFrom lo) .nonNull e, true)
  if !t.isPunct "<" then return none
  let joined := within (fun m => { m with joinAngles := true }) (typedLink g lo reach e)
  if let some found ← attempt joined then return some found
  if (← attempt (instantiation g)).isSome then
    return some (.wrapped (← spanFrom lo) .instantiation e, true)
  return none

def link (lo : Nat) (reach : Reach) (e : Expr) : Reader (Option (Expr × Bool)) := do
  if (← read).typescript then
    if let some found ← typescriptLink g lo reach e then return some found
  let t ← token
  if ← atOptionalLink then
    advance
    return some (← optionalLink g lo reach e, true)
  else if reach.indices && t.isPunct "[" then
    advance
    let key ← indexKey g
    return some (.index (← spanFrom lo) e.nextLink e key, true)
  else if reach.calls && t.isPunct "(" then return some (← call g lo e.nextLink e, true)
  else if t.isPunct "." then
    advance
    fieldName
    return some (.field (← spanFrom lo) e.nextLink e, true)
  else if t.isTemplate then return some (← tagged g lo e, true)
  else return none

def links (lo : Nat) (reach : Reach) (e : Expr) : Reader Expr := do
  let (e, _) ← iterate (fun (e, more) => if more then link g lo reach e else return none) (e, true)
  return e

def refusesSuper : Reader Bool := do
  let mode ← read
  return !mode.typescript && !mode.superAllowed

def refuseNonNull (word : String) : Reader Unit := do
  let t ← token
  if (← read).typescript && !t.fresh && t.isPunct "!" then
    advance
    fail (.nonNullOf word)

def superLink (lo : Nat) (reach : Reach) : Reader Expr := do
  refuseNonNull "super"
  let isOptional ← atOptionalLink
  if isOptional then
    advance
    let next ← ahead
    if next.isPunct "(" || ((← read).typescript && next.isPunct "<") then
      advance
      if ← isAt "<" then g.typeArgs
      let _ ← Literals.args g
      fail .superOptional
    else if next.isPunct "[" then advance
  let check : Reader Unit := do
    if ← refusesSuper then failAt .superAccess lo
    if isOptional then failAt (if reach.calls then .superAccess else .superCall) lo
  if ← accept "[" then
    let key ← indexKey g
    check
    return .compound (← spanFrom lo) .superField [key]
  else if ← accept "." then
    let isPrivate ← isAt "#"
    fieldName
    check
    if isPrivate then fail .superCall
    return .compound (← spanFrom lo) .superField []
  else if reach.calls && (← isAt "(") then
    let args ← Literals.args g
    return .keywordCall (← spanFrom lo) args
  else if reach.calls then fail .superAccess
  else fail .superCall

/-- A call of `import`, from the parenthesis on. -/
def importCall (lo : Nat) : Reader Expr := do
  refuseNonNull "import"
  unless ← isAt "(" do fail .importPlace
  let args ← Literals.args g
  if args.isEmpty || 2 < args.length then failAt .importArity lo
  return .keywordCall (← spanFrom lo) args

def importLink (lo : Nat) : Reader Expr := do
  if ← accept "." then
    let name ← anyName
    if name.name == "meta" then return .compound (← spanFrom lo) .keyword []
    unless name.name == "defer" || name.name == "source" do unexpected "meta"
  importCall g lo

def keywordLinks (lo : Nat) (reach : Reach) : Reader Expr := do
  let isSuper ← isAtWord "super"
  advance
  let first ← if isSuper then superLink g lo reach else importLink g lo
  links g lo reach first

def construction (lo : Nat) : Reader Expr := do
  advance
  if ← accept "." then
    unless ← acceptWord "target" do unexpected "target"
    return ← links g lo .ofMember (.compound (← spanFrom lo) .keyword [])
  let callee ← g.member
  if callee.isArrow then return callee
  if callee.isOptional then failAt .constructedChain callee.span.lo
  if ← whenTyped (isAtAny ["<", "<<"]) then
    let _ ← attempt do
      Types.plainTypeArgs g
      return if ← isAt "(" then some () else none
  if ← isAt "(" then
    let args ← Literals.args g
    let parts := args.filterMap Item.expr?
    links g lo .ofMember (.compound (← spanFrom lo) .construction (callee :: parts))
  else return .compound (← spanFrom lo) .construction [callee]

/-- What may stand behind `new`, given how to read an expression without any links. -/
def member (primary : Reader Expr) : Reader Expr := do
  let lo ← here
  let t ← token
  if t.isWord "new" then construction g lo
  else if t.isWord "super" || t.isWord "import" then keywordLinks g lo .ofMember
  else
    let e ← primary
    if e.isArrow then return e
    let typed ←
      if ← whenTyped (isAtAny ["<", "<<"]) then attempt (instantiation g) else pure none
    let e ← if typed.isSome then pure (.wrapped (← spanFrom lo) .instantiation e) else pure e
    links g lo .ofMember e

def leftHand : Reader Expr := do
  let lo ← here
  let t ← token
  if t.isWord "super" || t.isWord "import" then return ← keywordLinks g lo .full
  let callee ← g.member
  if callee.isArrow then return callee
  if ← whenTyped (isAtAny ["<", "<<"]) then
    let _ ← attempt do
      Types.plainTypeArgs g
      return if ← isAt "(" then some () else none
  if ← isAt "(" then links g lo .full (← call g lo callee.nextLink callee)
  else return callee

def decorator : Reader Expr := do
  expect "@"
  let e ← do
    if ← accept "(" then
      let e ← g.expression
      expect ")"
      pure e
    else
      let lo ← here
      let name ← nameOr false false
      links g lo ⟨true, false⟩ (.name name)
  let typed ← whenTyped (isAt "<")
  if typed then g.typeArgs
  if typed || (← isAt "(") then call g e.span.lo .plain e else return e

/-- Decorators in front of a class or a member. If `mayExport`, they may stand in front of `export`
as well, where types are read. -/
def decorators (mayExport : Bool) : Reader (List Expr) := do
  let lo ← here
  let found ← collect do
    if ← isAt "@" then return some (← decorator g) else return none
  let mode ← read
  if !found.isEmpty && !mode.inClass && !mode.inFunction && (← isAtWord "export") then
    if !mayExport then fail .exportNotAllowed
    if !mode.typescript then failAt .decoratedExport lo
  return found

end RefSugar.Syntax.Calls
