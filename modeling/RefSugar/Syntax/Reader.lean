import RefSugar.Syntax.Lexer
import RefSugar.Syntax.Tree

/-!
Readers of the grammar. A reader looks at one current token. When it fails, the state stays where
the failure arose, so that whoever recovers sees the token at which reading stopped.
-/
namespace RefSugar.Syntax

/-- Where and why reading failed. -/
structure Fault where
  problem : Problem
  offset : Nat

/-- What the surroundings of a construct decide about it. -/
structure Mode where
  typescript : Bool
  jsx : Bool
  isModule : Bool
  strict : Bool
  /-- More than the number of tokens of the text. -/
  limit : Nat
  /-- `in` is an operator. -/
  inAllowed : Bool := false
  /-- Outside of all braces but those of a namespace. -/
  topLevel : Bool := true
  /-- Inside the parentheses of a loop. -/
  inLoopHead : Bool := false
  generator : Bool := false
  async : Bool := false
  /-- Inside the body of a function. -/
  inFunction : Bool := false
  /-- Inside the parameters of a function. -/
  inParams : Bool := false
  inClass : Bool := false
  /-- Inside a block that sets up a class. -/
  inStaticBlock : Bool := false
  /-- `super` may refer to something. -/
  superAllowed : Bool := false
  inType : Bool := false
  /-- Angle brackets combine as they do outside types. -/
  joinAngles : Bool := false
  /-- Inside the middle of a conditional expression. -/
  inCond : Bool := false
  /-- A colon has to follow for a conditional expression. -/
  colonAhead : Bool := false
  ambient : Bool := false
  /-- `extends` starts no conditional type. -/
  plainTypes : Bool := false

structure State where
  token : Token
  /-- The end of the token before. -/
  last : Nat
  /-- Where an arrow function may start. -/
  arrowStart : Option Nat

abbrev Reader := ReaderT Mode (EStateM Fault State)

def token : Reader Token := do
  return (← get).token

def here : Reader Nat := do
  return (← token).lo

def failAt {α : Type} (problem : Problem) (offset : Nat) : Reader α :=
  throw ⟨problem, offset⟩

def fail {α : Type} (problem : Problem) : Reader α := do
  failAt problem (← here)

/-- The text ends where a token is needed, right behind the last one. -/
def failAtEnd {α : Type} : Reader α := do
  failAt .endOfInput (← get).last

def unexpected {α : Type} (wanted : String) : Reader α := do
  fail (.unexpected (← token).label wanted)

def Mode.reserves (m : Mode) (word : String) : Bool :=
  match word with
  | "await" => m.async || m.inStaticBlock || m.strict
  | "yield" => m.generator || m.strict
  | _ => isReserved word || (m.strict && strictWords.contains word)

/-- A word with escapes in it is itself where it is not reserved. -/
def Mode.settle (m : Mode) (t : Token) : Token :=
  match t.kind with
  | .escapedWord name word =>
    if m.reserves word then t else { t with kind := .word name (some word) }
  | _ => t

def Mode.behind (m : Mode) (t : Token) : Token :=
  m.settle (Lexer.next (m.inType && !m.joinAngles) false t.hi t.rest)

def ahead : Reader Token := do
  return (← read).behind (← token)

def advance : Reader Unit := do
  let next ← ahead
  modify fun s => { s with token := next, last := s.token.hi }

/-- Takes the current token to be another one that starts at the same place. -/
def retake (kind : Token.Kind) (stop : Cursor) : Reader Unit :=
  modify fun s => { s with token := { s.token with kind, hi := stop.pos, rest := stop.text } }

/-- Refuses a piece of a template with an escape that gives no character. -/
def checkPiece : Reader Unit := do
  let t ← token
  match t.kind, Escape.templateFault? none 0 (t.start + 1) (t.text.drop 1) with
  | .template _, some f => failAt f.problem f.offset
  | _, _ => pure ()

def isAt (text : String) : Reader Bool := do
  return (← token).isPunct text

def isAtAny (texts : List String) : Reader Bool := do
  let t ← token
  return texts.any t.isPunct

def isAtWord (name : String) : Reader Bool := do
  return (← token).isWord name

def accept (text : String) : Reader Bool := do
  if ← isAt text then
    advance
    return true
  else return false

def acceptWord (name : String) : Reader Bool := do
  if ← isAtWord name then
    advance
    return true
  else return false

def expect (text : String) : Reader Unit := do
  unless ← accept text do fail (.expected text (← token).label)

def expectWord (name : String) : Reader Unit := do
  unless ← acceptWord name do fail (.expected name (← token).label)

def spanFrom (lo : Nat) : Reader Span := do
  return ⟨lo, (← get).last⟩

def tokenSpan : Reader Span := do
  let t ← token
  return ⟨t.lo, t.hi⟩

def within {α : Type} (change : Mode → Mode) (r : Reader α) : Reader α :=
  withReader change r

def inTypes {α : Type} (r : Reader α) : Reader α :=
  within (fun m => { m with inType := true }) r

def allowIn {α : Type} (r : Reader α) : Reader α :=
  within (fun m => { m with inAllowed := true }) r

def whenTyped (r : Reader Bool) : Reader Bool := do
  if (← read).typescript then r else return false

/-- Reads, and starts over if that fails or gives nothing. -/
def attempt {α : Type} (r : Reader (Option α)) : Reader (Option α) := do
  let start ← get
  let found ← try r catch _ => pure none
  if found.isNone then set start
  return found

/-- Reads ahead, and starts over in any case. Failure counts as `false`. -/
def foresee (r : Reader Bool) : Reader Bool := do
  let start ← get
  let found ← try r catch _ => pure false
  set start
  return found

/-- Collects what `step` gives until it gives nothing, `fuel` times at most. -/
def collectUpTo {α : Type} (step : Reader (Option α)) : Nat → Reader (List α)
  | 0 => return []
  | fuel + 1 => do
    match ← step with
    | none => return []
    | some a => return a :: (← collectUpTo step fuel)

def collect {α : Type} (step : Reader (Option α)) : Reader (List α) := do
  collectUpTo step (← read).limit

/-- Applies `step` to a value until it gives nothing, `fuel` times at most. -/
def iterateUpTo {α : Type} (step : α → Reader (Option α)) : Nat → α → Reader α
  | 0, a => return a
  | fuel + 1, a => do
    match ← step a with
    | none => return a
    | some b => iterateUpTo step fuel b

def iterate {α : Type} (step : α → Reader (Option α)) (a : α) : Reader α := do
  iterateUpTo step (← read).limit a

/-- A list with commas between its elements, and perhaps one behind the last, up to but not
including `close`. -/
def commaList {α : Type} (close : String) (element : Reader α) : Reader (List α) :=
  collect do
    if ← isAt close then return none
    let a ← element
    unless ← isAt close do expect ","
    return some a

def atStatementEnd : Reader Bool := do
  let t ← token
  return t.fresh || t.isEof || t.isPunct ";" || t.isPunct "\x7d"

def acceptStatementEnd : Reader Bool := do
  if ← accept ";" then return true else atStatementEnd

def expectStatementEnd : Reader Unit := do
  unless ← acceptStatementEnd do fail (.expected ";" (← token).label)

def Mode.isReference (m : Mode) (t : Token) : Bool :=
  match t.kind with
  | .word _ role => !role.any m.reserves
  | _ => false

def isAtReference : Reader Bool := do
  return (← read).isReference (← token)

def anyName : Reader Ident := do
  let t ← token
  match t.kind with
  | .word name _ | .escapedWord name _ =>
    advance
    return ⟨name, ⟨t.lo, t.hi⟩⟩
  | _ => fail .identExpected

/-- The `#` of a private name, which no blank separates from the name. -/
def privateHash : Reader Unit := do
  let lo ← here
  expect "#"
  if (← here) != (← get).last then failAt .spaceAfterHash lo

/-- The word cannot be a name; `this` can be one in a typed dialect. -/
def Mode.isKeyword (m : Mode) (word : String) : Bool :=
  isReserved word && word != "enum" && !(m.typescript && word == "this")

/-- A name, for which many a word that is reserved is let pass; `yield` and `await` only if that is
told. -/
def nameOr (yieldToo awaitToo : Bool) : Reader Ident := do
  let mode ← read
  let t ← token
  match t.kind with
  | .word name role =>
    if role == some "await" && !mode.ambient then
      if mode.inStaticBlock then fail .identExpected
      if mode.isModule || mode.async then fail .awaitAsName
      if !awaitToo then fail .identExpected
    if role.any mode.isKeyword || (role == some "yield" && !yieldToo) then fail .identExpected
    advance
    return ⟨name, ⟨t.lo, t.hi⟩⟩
  | _ => fail .identExpected

def properName : Reader Ident :=
  nameOr true true

/-- A name that is being declared by `let`, `const` or `class`. -/
def lexicalName : Reader Ident := do
  if ← isAtWord "let" then unexpected "let is reserved in const, let, class declaration"
  properName

/-- A name that may be missing. The word `this` is taken for one, and left where it is. -/
def optionalName (name : Reader Ident) : Reader (Option Ident) := do
  let mode ← read
  let t ← token
  if mode.typescript && t.isWord "this" then return some ⟨"this", ⟨t.lo, t.hi⟩⟩
  if mode.isReference t then return some (← name)
  return none

/-- The parts of the grammar that refer to each other. -/
inductive Goal where
  /-- An expression without commas. -/
  | assignment
  | unary
  /-- An expression that an operator may stand behind, or a call. -/
  | leftHand
  /-- What may stand behind `new`. -/
  | member
  | type
  /-- A type that is no conditional type. -/
  | plainType
  /-- A name or a pattern that is being declared. -/
  | binding
  | params
  /-- Decorators, behind which `export` may stand or not. -/
  | decorators (mayExport : Bool)
  /-- The key of a member of an object or a class. -/
  | key
  /-- Statements in braces. -/
  | block
  | statement (declares : Bool)
  | moduleItem
  /-- An element; `nested` tells that it is part of the content of another one. -/
  | element (nested : Bool)
  | typeArgs
  /-- Type parameters. The answer tells whether they cannot be the start of an element. -/
  | typeParams

abbrev Goal.Result : Goal → Type
  | assignment | unary | leftHand | member | element _ => Expr
  | type | plainType | typeArgs => Unit
  | typeParams => Bool
  | binding => Pattern
  | params => List Param
  | decorators _ => List Expr
  | key => Key
  | block => List Stmt
  | statement _ | moduleItem => Stmt

/-- Readers for all parts of the grammar. -/
structure Grammar where
  run : (goal : Goal) → Reader goal.Result

namespace Grammar

variable (g : Grammar)

def assignment : Reader Expr := g.run .assignment

def unary : Reader Expr := g.run .unary

def leftHand : Reader Expr := g.run .leftHand

def member : Reader Expr := g.run .member

def type : Reader Unit := g.run .type

def plainType : Reader Unit := g.run .plainType

def typeArgs : Reader Unit := g.run .typeArgs

def typeParams : Reader Bool := g.run .typeParams

def binding : Reader Pattern := g.run .binding

def params : Reader (List Param) := g.run .params

def decorators (mayExport : Bool) : Reader (List Expr) := g.run (.decorators mayExport)

def key : Reader Key := g.run .key

def block : Reader (List Stmt) := g.run .block

def statement (declares : Bool) : Reader Stmt := g.run (.statement declares)

def moduleItem : Reader Stmt := g.run .moduleItem

def element (nested : Bool) : Reader Expr := g.run (.element nested)

def expression : Reader Expr := do
  let lo ← here
  let first ← g.assignment
  let more ← collect do
    if ← accept "," then return some (← g.assignment) else return none
  if more.isEmpty then return first
  return .compound (← spanFrom lo) .sequence (first :: more)

end Grammar

/-- Fails for the reason why a place holds no token, if it holds none. -/
def checkToken : Reader Unit := do
  let t ← token
  match t.kind with
  | .fault problem offset => failAt problem offset
  | .escapedWord _ word => fail (.escapedWord word)
  | _ => pure ()

def acceptModifier (allowed : List String) (notStaticBlock : Bool) : Reader (Option String) := do
  if !(← read).typescript then return none
  checkToken
  let t ← token
  match t.kind with
  | .eof => failAtEnd
  | .word name role =>
    let word := role.getD name
    if !allowed.contains word then return none
    if notStaticBlock && t.isWord "static" && (← ahead).isPunct "\x7b" then return none
    attempt do
      advance
      let next ← token
      let sign := ["[", "\x7b", "*", "...", "#"].any next.isPunct
      let follows := (sign && !next.fresh) || next.isAnyWord || next.isString || next.isNumeric
      return if follows then some word else none
  | _ => return none

def skipParamModifier : Reader Unit := do
  if (← read).typescript then
    let t ← token
    let next ← ahead
    let words := ["public", "protected", "private", "readonly"]
    if words.any t.isWord && (next.isAnyWord || next.isPunct "\x7b" || next.isPunct "[") then
      let _ ← acceptModifier words false

end RefSugar.Syntax
