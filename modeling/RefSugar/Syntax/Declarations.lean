import RefSugar.Syntax.Statements

/-!
Reading the declarations of the typed dialects.
-/
namespace RefSugar.Syntax.Declarations

variable (g : Grammar)

/-- The name and the value of a member of an enumeration. A token that cannot follow the name is
taken for a comma. -/
def enumMember : Reader (Option Expr) := do
  let t ← token
  if t.isString || t.isNumber then advance
  else if ← accept "[" then
    let _ ← g.expression
    expect "]"
  else
    let _ ← anyName
  if ← accept "=" then return some (← g.assignment)
  unless ← isAtAny [",", "\x7d"] do
    let t ← token
    retake (.punct ",") ⟨t.hi, t.rest⟩
  return none

/-- An enumeration from behind its keyword. Commas may be missing. -/
def enumTail (lo : Nat) : Reader Stmt := do
  let name ← anyName
  expect "\x7b"
  let values ← collect do
    if ← isAt "\x7d" then return none
    let value ← enumMember g
    let _ ← accept ","
    return some value
  expect "\x7d"
  return .enumeration (← spanFrom lo) name (values.filterMap id)

/-- An interface from behind its keyword. If it says twice what it extends, all is skipped up to its
members. -/
def interfaceTail (lo : Nat) : Reader Stmt := do
  let _ ← anyName
  Types.optionalTypeParams g
  if ← acceptWord "extends" then
    let _ ← Classes.heritageList g
  if ← isAtWord "extends" then
    let _ ← collect do
      let t ← token
      if t.isEof || t.isPunct "\x7b" then return none
      advance
      return some ()
  inTypes (Types.typeMembers g)
  return .group (← spanFrom lo) [] []

def aliasTail (lo : Nat) : Reader Stmt := do
  let _ ← anyName
  Types.optionalTypeParams g
  inTypes do
    unless ← accept "=" do unexpected "="
    g.type
  expectStatementEnd
  return .group (← spanFrom lo) [] []

def namespaceBlock : Reader (List Stmt) := do
  expect "\x7b"
  within (fun m => { m with topLevel := true }) (Statements.statements g.moduleItem)

def namespaceTail (lo : Nat) : Reader Stmt := do
  let _ ← anyName
  let _ ← collect do
    if ← accept "." then return some (← anyName) else return none
  let body ← namespaceBlock g
  return .space (← spanFrom lo) body

/-- An ambient module from its name on. It may have no body. -/
def ambientModule (lo : Nat) : Reader Stmt := do
  let t ← token
  unless t.isString || t.isWord "global" do unexpected "global or a string literal"
  advance
  let body ← do
    if ← isAt "\x7b" then namespaceBlock g
    else
      expectStatementEnd
      pure []
  return .space (← spanFrom lo) body

/-- A declaration that starts with `word`. If `pending`, the word is the current token and has to
start a declaration; otherwise it has been read, and what follows decides. -/
def ofWord (lo : Nat) (decorators : List Expr) (word : String) (pending : Bool) :
    Reader (Option Stmt) := do
  let step : Reader Unit := if pending then advance else pure ()
  match word with
  | "abstract" =>
    let t ← token
    if pending || (t.isWord "class" && !t.fresh) then
      step
      return some (← Statements.classDecl g lo decorators)
    else return none
  | "enum" =>
    if pending || (← isAtReference) then
      step
      return some (← enumTail g lo)
    else return none
  | "interface" =>
    if pending || (← isAtReference) then
      step
      return some (← interfaceTail g lo)
    else return none
  | "module" =>
    if (← token).fresh then return none
    else
      step
      checkToken
      let t ← token
      if t.isEof then failAtEnd
      if t.isString then return some (← ambientModule g lo)
      else if pending || (← isAtReference) then return some (← namespaceTail g lo)
      else return none
  | "namespace" =>
    if pending || (← isAtReference) then
      step
      return some (← namespaceTail g lo)
    else return none
  | "type" =>
    if pending || (!(← token).fresh && (← isAtReference)) then
      step
      return some (← aliasTail g lo)
    else return none
  | _ => return none

/-- What `declare` may stand in front of. -/
def declared (lo : Nat) (decorators : List Expr) : Reader (Option Stmt) :=
  within (fun m => { m with ambient := true }) do
    let t ← token
    let next ← ahead
    if t.isWord "function" then return some (← Statements.functionDecl g lo decorators false)
    if t.isWord "async" && next.isWord "function" then
      advance
      return some (← Statements.functionDecl g lo decorators true)
    if t.isWord "class" then return some (← Statements.classDecl g lo decorators)
    if t.isWord "const" && next.isWord "enum" then
      advance
      advance
      return some (← enumTail g lo)
    if t.isWord "const" || t.isWord "var" || t.isWord "let" then
      match ← Statements.vars g false with
      | .vars span kind decls => return some (.vars ⟨lo, span.hi⟩ kind decls)
      | s => return some s
    if t.isWord "global" then return some (← ambientModule g lo)
    match t.kind with
    | .word name _ => ofWord g lo decorators name true
    | _ => return none

/-- A declaration that starts with a name that has been read as an expression. -/
def ofName (lo : Nat) (decorators : List Expr) (word : String) : Reader (Option Stmt) := do
  match word with
  | "declare" => declared g lo decorators
  | "global" =>
    if ← isAt "\x7b" then
      let body ← namespaceBlock g
      return some (.space (← spanFrom lo) body)
    else return none
  | _ => ofWord g lo decorators word false

end RefSugar.Syntax.Declarations
