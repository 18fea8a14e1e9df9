import RefSugar.Syntax.Calls

/-!
Reading classes from behind their names.
-/
namespace RefSugar.Syntax.Classes

variable (g : Grammar)

/-- The key of a member, and whether it is the one of the constructor. -/
structure MemberKey where
  key : Key
  span : Span
  isConstructor : Bool

def spellsConstructor (t : Token) : Bool :=
  match t.kind with
  | .word name _ => name == "constructor"
  | .string => t.value == "constructor"
  | _ => false

def memberKey : Reader MemberKey := do
  let t ← token
  if t.isPunct "#" then
    privateHash
    let _ ← anyName
    return ⟨.other, ← spanFrom t.lo, false⟩
  let key ← g.key
  return ⟨key, ← spanFrom t.lo, spellsConstructor t⟩

/-- A property ends behind the key, or goes on with its type or its value. -/
def atProperty (lineEnd : Bool) : Reader Bool := do
  if ← whenTyped (isAtAny ["!", ":"]) then return true
  if ← isAtAny ["=", "\x7d"] then return true
  if lineEnd then atStatementEnd else isAt ";"

/-- A property from behind its key. A missing end is let pass. -/
def propertyTail (key : MemberKey) (marked : Bool) (decorators : List Expr) : Reader Member := do
  if key.isConstructor then failAt .constructorField key.span.lo
  unless marked do
    let _ ← whenTyped (accept "!")
  Types.optionalAnnotation g
  let value ← do
    if ← accept "=" then pure (some (← allowIn g.assignment)) else pure none
  let _ ← acceptStatementEnd
  return .property key.key value decorators

/-- A modifier that tells who may use a member. The words that tell how a type parameter varies are
let pass, and tell nothing. -/
def acceptAccess : Reader Bool := do
  match ← acceptModifier ["public", "protected", "private", "in", "out"] false with
  | some word => return word != "in" && word != "out"
  | none => return false

/-- A parameter of a constructor, which may declare a property. -/
def constructorParam : Reader Pattern := do
  let access ← acceptAccess
  let overriding ← acceptModifier ["override"] false
  let readonly ← acceptModifier ["readonly"] false
  let lo ← here
  let pattern ← Patterns.paramPattern g
  if access || overriding.isSome || readonly.isSome then
    match pattern with
    | .object _ _ | .array _ _ => failAt .parameterProperty lo
    | _ => pure ()
  return pattern

def constructorRest : Reader Pattern := do
  let target ← g.binding
  Types.optionalAnnotation g
  return .rest target

def constructorTail : Reader Member := do
  Types.optionalTypeParams g
  expect "("
  let params ← Patterns.paramList g (constructorParam g) (constructorRest g)
  expect ")"
  Types.optionalAnnotation g
  let stmts ← Functions.body g false false
  return .constructor params (stmts.getD [])

def methodTail (key : MemberKey) (decorators : List Expr) (async generator : Bool) :
    Reader Member := do
  return .method key.key (← Functions.methodTail g decorators async generator)

/-- A member from its key on, in a class member that starts at `lo`. -/
def keyedMember (lo : Nat) (decorators : List Expr) (isReadonly : Bool) : Reader Member := do
  let key ← memberKey g
  let marked ← whenTyped (accept "?")
  if ← Functions.atMethod then
    if isReadonly then failAt .readonlyMethod lo
    if key.isConstructor then return ← constructorTail g
    return ← methodTail g key decorators false false
  let t ← token
  let word := match key.key with
    | .name id => id.name
    | _ => ""
  let isAccessor ←
    if word == "get" || word == "set" then do
      pure (!(← atProperty false) && !(t.fresh && t.isPunct "*"))
    else pure false
  if !isAccessor && (← atProperty true) then return ← propertyTail g key marked decorators
  if word == "async" && !t.fresh then
    let _ ← acceptModifier ["override"] false
    let generator ← accept "*"
    let key ← memberKey g
    if key.isConstructor then failAt .asyncConstructor key.span.lo
    unless marked do
      let _ ← whenTyped (accept "?")
    return ← methodTail g key decorators true generator
  if isAccessor then
    let key ← memberKey g
    return ← methodTail g key decorators false false
  unexpected "* for generator, private key, identifier or async"

def staticBlock : Reader Member := do
  return .staticBlock (← within (fun m => { m with inStaticBlock := true }) g.block)

/-- A member behind the modifiers that stand apart, and behind `static` if that stands there. -/
def modifiedMember (lo : Nat) (decorators : List Expr) (isStatic access : Bool) :
    Reader (Option Member) := do
  let modifiers ←
    if (← read).typescript then
      collect (acceptModifier ["abstract", "readonly", "override", "static"] true)
    else pure []
  let _ ← acceptModifier ["accessor"] false
  let next ← ahead
  if (isStatic || modifiers.contains "static") && (← isAt "\x7b") then return some (← staticBlock g)
  if (← isAtWord "static") && next.isPunct "\x7b" then
    advance
    return some (← staticBlock g)
  if (← read).typescript then
    unless access || modifiers.contains "abstract" || modifiers.contains "override" do
      if ← Types.indexSignature? g then return none
  if ← accept "*" then
    let key ← memberKey g
    return some (← methodTail g key decorators false true)
  return some (← keyedMember g lo decorators (modifiers.contains "readonly"))

/-- A member whose key is the word just read, if it is one. -/
def wordMember (word : Ident) (decorators : List Expr) (lineEnd : Bool) :
    Reader (Option Member) := do
  let key : MemberKey := ⟨.name word, word.span, false⟩
  if ← Functions.atMethod then return some (← methodTail g key decorators false false)
  if (← atProperty lineEnd) || (← whenTyped (isAt "?")) then
    let marked ← whenTyped (accept "?")
    return some (← propertyTail g key marked decorators)
  return none

/-- A member; an index signature is none. -/
def member : Reader (Option Member) := do
  let lo ← here
  let decorators ← g.decorators false
  let declaredAt ← here
  let declared ← whenTyped (acceptWord "declare")
  let access ← acceptAccess
  let declaredAt ← if declared then pure declaredAt else here
  let declared ← if declared then pure true else whenTyped (acceptWord "declare")
  if declared then
    let word : Ident := ⟨"declare", ⟨declaredAt, declaredAt + 7⟩⟩
    if let some m ← wordMember g word decorators true then return some m
  let staticAt ← here
  let isStatic ← acceptWord "static"
  if isStatic then
    unless ← isAt "\x7b" do
      let word : Ident := ⟨"static", ⟨staticAt, staticAt + 6⟩⟩
      if let some m ← wordMember g word decorators false then return some m
  modifiedMember g lo decorators isStatic access

/-- The members of a class in braces. The closing brace may be missing at the end of the text. -/
def members : Reader (List Member) := do
  expect "\x7b"
  let found ← within (fun m => { m with inClass := true, superAllowed := true }) <| collect do
    let t ← token
    if t.isEof || t.isPunct "\x7d" then return none
    if ← accept ";" then return some none
    return some (← member g)
  unless (← token).isEof do expect "\x7d"
  return found.filterMap id

/-- A type that a class implements or an interface extends, without its type arguments. -/
def heritage : Reader Expr := do
  let lo ← here
  let name ← anyName
  match ← Calls.links g lo ⟨false, false⟩ (.name name) with
  | .wrapped _ .instantiation e => return e
  | e =>
    if ← isAt "<" then g.typeArgs
    return e

def heritageList : Reader (List Expr) :=
  collect do
    let atEnd : Reader Bool := do
      return (← isAt "\x7b") || (← isAtWord "implements") || (← isAtWord "extends")
    if ← atEnd then return none
    let e ← heritage g
    unless ← accept "," do
      unless ← atEnd do expect ","
    return some e

/-- The superclass behind `extends`; type arguments do not belong to it. -/
def superclass : Reader Expr := do
  match ← g.leftHand with
  | .wrapped _ .instantiation e => return e
  | e =>
    if ← whenTyped (isAt "<") then g.typeArgs
    return e

def superclass? : Reader (Option Expr) := do
  if ← acceptWord "extends" then return some (← superclass g) else return none

def implemented? : Reader (List Expr) := do
  if ← whenTyped (acceptWord "implements") then heritageList g else return []

/-- A class from behind its name. What it inherits from may be told more than once, and then only
the first counts. -/
def tail (decorators : List Expr) : Reader Class := do
  Types.optionalTypeParams g
  let first ← superclass? g
  if first.isSome then
    if ← whenTyped (accept ",") then
      let _ ← heritageList g
  let _ ← superclass? g
  let implemented ← implemented? g
  let _ ← implemented? g
  let late ← superclass? g
  return .mk decorators (← members g) ((first.or late).toList ++ implemented)

/-- The code of a class is strict. -/
def strictly {α : Type} (r : Reader α) : Reader α :=
  within (fun m => { m with strict := true }) r

/-- A class from its keyword on, with its name read by `name`. -/
def classWith {α : Type} (decorators : List Expr) (name : Reader α) : Reader (α × Class) := do
  expectWord "class"
  strictly do
    let found ← name
    return (found, ← tail g decorators)

end RefSugar.Syntax.Classes
