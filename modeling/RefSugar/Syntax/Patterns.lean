import RefSugar.Syntax.Types

/-!
Reading patterns and parameters, and taking an expression for the pattern it turns out to be.
-/
namespace RefSugar.Syntax.Patterns

variable (g : Grammar)

def bindingElement : Reader Pattern := do
  let target ← g.binding
  if ← accept "=" then return .default target (← allowIn g.assignment)
  return target

def arrayItem : Reader (Option Pattern) := do
  if ← isAt "]" then return none
  if ← accept "," then return some .hole
  let item ← do
    if ← accept "..." then pure (.rest (← g.binding)) else bindingElement g
  unless ← isAt "]" do expect ","
  return some item

def ambientMark : Reader Unit := do
  if (← read).ambient then
    let _ ← accept "?"

def arrayPattern : Reader Pattern := do
  let lo ← here
  expect "["
  let items ← collect (arrayItem g)
  expect "]"
  let span ← spanFrom lo
  ambientMark
  return .array span items

def objectField : Reader PatternField := do
  if ← accept "..." then return .rest (← g.binding)
  let key ← g.key
  if ← accept ":" then return .pair key (← bindingElement g)
  match key with
  | .name id =>
    if ← accept "=" then return .shorthand id (some (← allowIn g.assignment))
    return .shorthand id none
  | _ => unexpected "an identifier"

/-- The last field has to bind a name if it takes the rest. -/
def restIsName : List (PatternField × Nat) → Except Fault Unit
  | [] => .ok ()
  | [(.rest (.name _), _)] => .ok ()
  | [(.rest _, lo)] => .error ⟨.restNeedsName, lo⟩
  | _ :: fields => restIsName fields

/-- A value of the pure part of the grammar, as a reader. -/
def lift {α : Type} : Except Fault α → Reader α
  | .ok a => return a
  | .error fault => throw fault

def objectPattern : Reader Pattern :=
  within (fun m => { m with colonAhead := false }) do
    let lo ← here
    expect "\x7b"
    let fields ← commaList "\x7d" do
      let start ← here
      return (← objectField g, start)
    expect "\x7d"
    let span ← spanFrom lo
    lift (restIsName fields)
    ambientMark
    return .object span (fields.map (·.1))

/-- A pattern, or a name read by `name`, that is being declared. -/
def bindingWith (name : Reader Ident) : Reader Pattern := do
  checkToken
  let t ← token
  if t.isPunct "[" then arrayPattern g
  else if t.isPunct "\x7b" then objectPattern g
  else if t.isAnyWord then return .name (← name)
  else unexpected "yield, an identifier, [ or \x7b"

def binding : Reader Pattern :=
  bindingWith g properName

/-- A question mark makes a parameter optional; one with a default cannot be. -/
def optionalMark (target : Pattern) : Reader Unit := do
  let lo ← here
  if ← accept "?" then
    match target with
    | .default _ _ => unless (← read).ambient do failAt .optionalPattern lo
    | _ => pure ()

def paramPattern : Reader Pattern := do
  skipParamModifier
  let target ← bindingElement g
  if (← read).typescript then
    optionalMark target
    Types.optionalAnnotation g
  if ← accept "=" then return .default target (← g.assignment)
  return target

def restParam : Reader Pattern := do
  let target ← g.binding
  let target ← do
    if ← accept "=" then pure (.default target (← g.assignment)) else pure target
  Types.optionalAnnotation g
  let _ ← whenTyped (accept "?")
  return .rest target

/-- Parameters up to the closing parenthesis, each read by `pattern`, or by `rest` behind dots. -/
def paramList (pattern rest : Reader Pattern) : Reader (List Param) :=
  collect do
    if ← isAt ")" then return none
    let decorators ← g.decorators false
    let target ← do
      if ← accept "..." then rest else pattern
    unless ← isAt ")" do expect ","
    return some (.mk decorators target)

def params : Reader (List Param) :=
  paramList g (paramPattern g) (restParam g)

/-- What a pattern is made for. -/
inductive Use where
  | binding
  | assigning
  deriving DecidableEq

/-- What may be assigned to inside a pattern, though it is no pattern itself. Some of it is no place
to assign to, but that is let pass. -/
def isElement : Expr → Bool
  | .field _ link _ | .index _ link _ _ | .call _ link _ _ => link == .plain
  | .keywordCall _ _ | .function _ _ _ | .classDef _ _ _ => true
  | .wrapped _ kind _ => kind == .parens || kind == .asType
  | .compound _ form _ => [Form.literal, .superField, .construction, .template].contains form
  | _ => false

def isHole : Item → Bool
  | .hole => true
  | _ => false

mutual

/-- The pattern an expression inside a pattern stands for. What cannot be one binds nothing. -/
def ofExpr (use : Use) : Expr → Except Fault Pattern
  | .name id => .ok (.name id)
  | .object span properties => (fieldsOf use properties).map (.object span)
  | .array span items => (itemsOf use items).map (.array span)
  | .assign _ true target value => do
    let target ← ofTarget use target
    return .default target value
  | e => .ok (if use == .assigning && isElement e then .expr e else .invalid)

def ofTarget (use : Use) : Pattern → Except Fault Pattern
  | .expr e => ofExpr use e
  | target => .ok target

def fieldOf (use : Use) : Property → Except Fault PatternField
  | .shorthand id => .ok (.shorthand id none)
  | .default id value => .ok (.shorthand id (some value))
  | .pair key value => (ofExpr use value).map (.pair key)
  | .spread e =>
    if use == .binding then
      match e with
      | .name id => .ok (.rest (.name id))
      | _ => .ok (.rest .invalid)
    else (ofExpr use e).map .rest
  | .getter span _ _ | .setter span _ _ _ | .method span _ _ => .error ⟨.notPattern, span.lo⟩

def fieldsOf (use : Use) : List Property → Except Fault (List PatternField)
  | [] => .ok []
  | p :: ps => do
    let field ← fieldOf use p
    let fields ← fieldsOf use ps
    return field :: fields

def itemOf (use : Use) : Item → Except Fault Pattern
  | .hole => .ok .hole
  | .one e => ofExpr use e
  | .spread e => (ofExpr use e).map .rest

/-- The patterns of the elements of an array. Only the last one may take the rest; any other that
does, and holes at the end, are dropped. -/
def itemsOf (use : Use) : List Item → Except Fault (List Pattern)
  | [] => .ok []
  | [.spread e] => do
    let item ← ofExpr use e
    return [.rest item]
  | .spread _ :: is => itemsOf use is
  | i :: is => do
    if isHole i && is.all isHole then return []
    let item ← itemOf use i
    let items ← itemsOf use is
    return item :: items

end

/-- An expression that may stand on the left of an assignment, though it is no pattern. -/
def isPlace : Expr → Bool
  | .name _ | .field _ _ _ | .index _ _ _ _ => true
  | .call _ link _ _ => link != .plain
  | .wrapped _ kind _ => kind != .asConst
  | .compound _ .superField _ | .compound _ .missing _ => true
  | _ => false

/-- The target of a loop: a pattern, a name, or any expression. -/
def loopTarget (e : Expr) : Except Fault Pattern :=
  match e with
  | .object _ _ | .array _ _ => ofExpr .assigning e
  | .name id => .ok (.name id)
  | e => .ok (.expr e)

/-- The target of an assignment, which only `=` lets be an object or an array. -/
def assignmentTarget (plain : Bool) (e : Expr) : Except Fault Pattern :=
  let isPattern := match e with
    | .object _ _ | .array _ _ => plain
    | e => isPlace e
  if isPattern then loopTarget e else .error ⟨.assignmentTarget, e.span.lo⟩

end RefSugar.Syntax.Patterns
