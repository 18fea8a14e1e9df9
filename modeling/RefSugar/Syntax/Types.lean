import RefSugar.Syntax.Reader

/-!
Reading types. Nothing is kept of a type, since no value is named in it.
-/
namespace RefSugar.Syntax.Types

variable (g : Grammar)

def delimited (close : String) (element : Reader Unit) : Reader Unit := do
  let _ ← commaList close element

def typeArgs : Reader Unit := do
  inTypes do
    if ← isAt "<<" then
      let t ← token
      retake (.punct "<") ⟨t.start + 1, t.text.drop 1⟩
    expect "<"
    delimited ">" g.type
  expect ">"

/-- Type arguments whose brackets stand alone, whatever they do around them. -/
def plainTypeArgs : Reader Unit :=
  within (fun m => { m with joinAngles := false }) g.typeArgs

/-- Type arguments behind a name, if one of `brackets` stands there on the same line. -/
def optionalTypeArgs (brackets : List String) : Reader Unit := do
  if !(← token).fresh && (← isAtAny brackets) then plainTypeArgs g

def paramModifiers : List String :=
  ["public", "private", "protected", "readonly", "abstract", "const", "override", "in", "out"]

/-- One declared type parameter, and whether it has a bound. -/
def typeParam : Reader Bool := do
  let _ ← collect (acceptModifier paramModifiers false)
  let _ ← anyName
  let bounded ← acceptWord "extends"
  if bounded then g.type
  if ← accept "=" then g.type
  return bounded

/-- `<A extends B = C>` in front of parameters or behind a declared name. A bound, a comma or more
than one parameter tells it from the start of an element. -/
def typeParams : Reader Bool := do
  inTypes do
    unless ← isAt "<" do unexpected "< (jsx tag start)"
    advance
    let found ← collect do
      if ← isAt ">" then return none
      let bounded ← typeParam g
      if ← isAt ">" then return some bounded
      expect ","
      return some true
    expect ">"
    return found.any id

def optionalTypeParams : Reader Unit := do
  if (← read).typescript && (← isAt "<") then
    let _ ← g.typeParams

def annotation? : Reader Bool := do
  if (← read).typescript && (← isAt ":") then
    inTypes do
      advance
      g.type
    return true
  else return false

def optionalAnnotation : Reader Unit := do
  let _ ← annotation? g

/-- A result type behind `mark`, which may be a predicate on a parameter. -/
def resultType (mark : String) : Reader Unit :=
  inTypes do
    expect mark
    let asserts := (← isAtWord "asserts") && (← read).isReference (← ahead)
    if asserts then advance
    let next ← ahead
    let isTest := (← isAtReference) && next.isWord "is" && !next.fresh
    if asserts || isTest then
      let _ ← anyName
      if isTest then
        advance
        g.type
    else g.type

/-- Names with points between them; `name` reads those behind a point. A point with no name behind
it ends them. -/
def entityName (name : Reader Ident) : Reader Unit := do
  let _ ← anyName
  let _ ← collect do
    if ← accept "." then
      let t ← token
      if t.isPunct "#" || t.isAnyWord then
        let _ ← name
        return some ()
      else return none
    else return none

def wantedParam : String :=
  "an identifier, [ for an array pattern, \x7b for an object patter or ... for a rest pattern"

/-- Parameters in parentheses, the opening one read already. None may have a default. -/
def signatureParams : Reader (List Param) := do
  let params ← g.params
  let hasDefault := params.any fun
    | .mk _ (.default _ _) => true
    | _ => false
  if hasDefault then unexpected wantedParam
  expect ")"
  return params

def memberEnd : Reader Unit := do
  unless ← accept "," do expectStatementEnd

/-- `[key: K]` starts here. A comma is let pass for the colon. -/
def atIndexSignature : Reader Bool := do
  if !(← isAt "[") then return false
  foresee do
    advance
    if ← isAtReference then
      advance
      isAtAny [":", ","]
    else return false

def indexSignature? : Reader Bool := do
  if ← atIndexSignature then
    expect "["
    let _ ← anyName
    unless ← accept "," do expect ":"
    inTypes g.type
    expect "]"
    optionalAnnotation g
    memberEnd
    return true
  else return false

def signature : Reader Unit := do
  optionalTypeParams g
  expect "("
  let _ ← signatureParams g
  if ← isAt ":" then resultType g ":"

/-- The key of a member. A literal may go on like an expression. -/
def memberKey : Reader Unit := do
  if ← accept "[" then
    let _ ← g.assignment
    expect "]"
  else
    let t ← token
    if t.isString || t.isNumber then
      let _ ← g.member
    else
      if ← isAt "#" then privateHash
      let _ ← anyName

def accessor (readonlySeen : Bool) : Reader (Option Unit) := do
  if readonlySeen then fail .readonlyAccessor
  let isGetter ← acceptWord "get"
  unless isGetter do expectWord "set"
  memberKey g
  expect "("
  if isGetter then
    expect ")"
    optionalAnnotation g
  else if (← signatureParams g).isEmpty then fail .setterParameter
  memberEnd
  return some ()

def typeMember : Reader Unit := do
  if ← isAtAny ["(", "<"] then
    signature g
    memberEnd
    return
  let next ← ahead
  if (← isAtWord "new") && (next.isPunct "(" || next.isPunct "<") then
    advance
    signature g
    memberEnd
    return
  let readonlySeen := (← acceptModifier ["readonly"] false).isSome
  if ← indexSignature? g then return
  if (← attempt (accessor g readonlySeen)).isSome then return
  memberKey g
  let _ ← accept "?"
  if ← isAtAny ["(", "<"] then
    if readonlySeen then fail .readonlyMethod
    signature g
  else optionalAnnotation g
  memberEnd

def typeMembers : Reader Unit := do
  expect "\x7b"
  let _ ← collect do
    if ← isAt "\x7d" then return none
    typeMember g
    return some ()
  expect "\x7d"

def atMappedType : Reader Bool :=
  foresee do
    advance
    if ← isAtAny ["+", "-"] then
      advance
      return ← isAtWord "readonly"
    let _ ← acceptWord "readonly"
    if !(← accept "[") then return false
    if !(← isAtReference) then return false
    advance
    isAtWord "in"

def mappedType : Reader Unit := do
  expect "\x7b"
  if ← isAtAny ["+", "-"] then
    advance
    expectWord "readonly"
  else
    let _ ← acceptWord "readonly"
  expect "["
  let _ ← anyName
  unless ← acceptWord "in" do unexpected "in"
  g.type
  if ← acceptWord "as" then g.type
  expect "]"
  if ← isAtAny ["+", "-"] then
    advance
    expect "?"
  else
    let _ ← accept "?"
  optionalAnnotation g
  expectStatementEnd
  expect "\x7d"

def tupleLabel : Reader (Option Unit) := do
  let _ ← accept "..."
  let _ ← anyName
  let _ ← accept "?"
  expect ":"
  return some ()

inductive TupleItem where
  | rest
  | optional
  | required
  deriving DecidableEq

def tupleItem : Reader TupleItem := do
  let _ ← attempt tupleLabel
  if ← accept "..." then
    g.type
    return .rest
  g.type
  return if ← accept "?" then .optional else .required

def isMisplaced (items : List TupleItem) : Bool :=
  (items.dropWhile (· != .optional)).contains .required

def tuple : Reader Unit := do
  let lo ← here
  advance
  let items ← commaList "]" (tupleItem g)
  expect "]"
  if isMisplaced items then failAt .requiredAfterOptional lo

/-- The rest of a template from behind the brace that ends an interpolation. -/
def templateRest : Reader Unit := do
  let t ← token
  unless t.isPunct "\x7d" do unexpected "`\x7d`"
  match Lexer.scanTemplate (t.start + 1) (t.text.drop 1) with
  | some (stop, more) => retake (.template more) stop
  | none => failAt .unterminatedTemplate t.lo

/-- The pieces of a template and the types between them. The current token is the first piece. -/
def templateType : Reader Unit := do
  let _ ← collect do
    match (← token).kind with
    | .template true =>
      advance
      g.type
      templateRest
      return some ()
    | _ => return none
  advance

/-- Where a type is imported from, with attributes. Anything is let pass for a text. -/
def importType : Reader Unit := do
  expectWord "import"
  expect "("
  checkToken
  advance
  if (← accept ",") && (← isAt "\x7b") then
    advance
    expectWord "with"
    expect ":"
    unless ← isAt "\x7b" do fail (.expected "\x7b" (← token).label)
    let _ ← g.assignment
    let _ ← accept ","
    expect "\x7d"
  expect ")"
  if ← accept "." then entityName (nameOr false false)
  if ← isAt "<" then plainTypeArgs g

def atFunctionParens : Reader Bool :=
  foresee do
    advance
    if ← isAtAny [")", "..."] then return true
    skipParamModifier
    let t ← token
    if t.isWord "void" then return false
    if t.isAnyWord then advance
    else if t.isPunct "\x7b" || t.isPunct "[" then
      let _ ← g.binding
    else return false
    if ← isAtAny [":", ",", "?", "="] then return true
    if ← accept ")" then isAt "=>" else return false

def functionType : Reader Unit := do
  let _ ← acceptWord "abstract"
  let _ ← acceptWord "new"
  optionalTypeParams g
  expect "("
  let _ ← signatureParams g
  resultType g "=>"

def keywordTypes : List String :=
  ["void", "null", "any", "boolean", "bigint", "never", "number", "object", "string", "symbol",
    "unknown", "undefined", "intrinsic"]

def typeReference : Reader Unit := do
  skipParamModifier
  entityName anyName
  optionalTypeArgs g ["<", "<<"]

def wantedType : String :=
  "an identifier, void, yield, null, await, break, a string literal, a numeric literal, " ++
    "true, false, `, -, import, this, typeof, \x7b, [, ("

/-- A test of `this` may stand behind it. -/
def thisTest : Reader Unit := do
  if !(← token).fresh && (← acceptWord "is") then g.type

def wordType (word : String) : Reader Unit := do
  match word with
  | "import" => importType g
  | "this" =>
    advance
    thisTest g
  | "typeof" =>
    advance
    if ← isAtWord "import" then importType g else entityName anyName
    optionalTypeArgs g ["<"]
  | "true" | "false" => advance
  | _ =>
    let named := ["void", "null", "break", "yield", "await", "enum"].contains word
    if (isReserved word || word == "let") && !named then unexpected wantedType
    let next ← ahead
    if word == "asserts" && next.isWord "this" then
      advance
      advance
      thisTest g
    else if keywordTypes.contains word && !next.isPunct "." then advance
    else typeReference g

def atomType : Reader Unit := do
  let t ← token
  match t.kind with
  | .string | .number | .bigint => advance
  | .template _ => templateType g
  | .punct "-" =>
    advance
    unless (← token).isNumeric do unexpected "numeric literal or bigint literal"
    advance
  | .punct "\x7b" => if ← atMappedType then mappedType g else typeMembers g
  | .punct "[" => tuple g
  | .punct "(" =>
    advance
    g.type
    expect ")"
  | .word _ _ => wordType g t.role
  | _ => unexpected wantedType

def arrayType : Reader Unit := do
  atomType g
  let _ ← collect do
    if !(← token).fresh && (← accept "[") then
      unless ← accept "]" do
        g.type
        expect "]"
      return some ()
    else return none

/-- The bound of an inferred type, unless it turns out to be the test of a conditional type. -/
def inferBound : Reader (Option Unit) := do
  expectWord "extends"
  g.plainType
  if (← read).plainTypes || !(← isAt "?") then return some () else return none

def operatorType : Reader Unit := do
  let _ ← collect do
    let t ← token
    if ["keyof", "unique", "readonly"].any t.isWord then
      advance
      return some ()
    else return none
  if ← acceptWord "infer" then
    let _ ← anyName
    let _ ← attempt (inferBound g)
  else
    let _ ← acceptModifier ["readonly"] false
    arrayType g

/-- Types with `operator` between them, and perhaps one in front. -/
def joined (operator : String) (part : Reader Unit) : Reader Unit := do
  let _ ← accept operator
  part
  let _ ← collect do
    if ← accept operator then
      part
      return some ()
    else return none

def plainType : Reader Unit := do
  let t ← token
  let next ← ahead
  let isFunction ←
    if t.isPunct "<" || t.isWord "new" || (t.isWord "abstract" && next.isWord "new") then pure true
    else if t.isPunct "(" then atFunctionParens g
    else pure false
  if isFunction then functionType g
  else joined "|" (joined "&" (operatorType g))

def anyType : Reader Unit :=
  inTypes <| within (fun m => { m with plainTypes := false }) do
    g.plainType
    if !(← token).fresh && (← acceptWord "extends") then
      within (fun m => { m with plainTypes := true }) g.plainType
      expect "?"
      g.type
      expect ":"
      g.type

end RefSugar.Syntax.Types
