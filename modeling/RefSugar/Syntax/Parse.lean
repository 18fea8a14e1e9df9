import RefSugar.Dialect
import RefSugar.Syntax.Markup
import RefSugar.Syntax.Modules
import RefSugar.Text.Lines

/-!
Reading a whole script, or one expression.
-/
namespace RefSugar.Syntax

/-- One part of the grammar, given readers for all parts. -/
def step (g : Grammar) : (goal : Goal) → Reader goal.Result
  | .assignment => Operators.assignment g
  | .unary => Operators.unary g
  | .leftHand => Calls.leftHand g
  | .member => Calls.member g (Operators.primary g)
  | .element nested => Markup.element g nested
  | .type => Types.anyType g
  | .plainType => Types.plainType g
  | .typeArgs => Types.typeArgs g
  | .typeParams => Types.typeParams g
  | .binding => Patterns.binding g
  | .params => Patterns.params g
  | .decorators mayExport => Calls.decorators g mayExport
  | .key => Literals.key g
  | .block => Statements.block g
  | .statement declares => Modules.statement g declares
  | .moduleItem => Modules.moduleItem g

/-- The grammar, nested `depth` times at most. -/
def readGoal : Nat → (goal : Goal) → Reader goal.Result
  | 0, _ => fail .tooDeep
  | depth + 1, goal => step ⟨readGoal depth⟩ goal

/-- The grammar for a text of a given length. Each character opens only few parts of the grammar. -/
def grammarFor (length : Nat) : Grammar :=
  ⟨readGoal (16 * (length + 1))⟩

def wholeModule (g : Grammar) : Reader (List Stmt) := do
  if let .shebang := (← token).kind then advance
  collect do
    if (← token).isEof then return none
    return some (← g.moduleItem)

/-- Runs a reader on a text. A leading byte order mark is not read, and offsets are counted from
behind it. A module is strict. -/
def runReader {α : Type} (dialect : Dialect) (isModule : Bool) (text : List Char)
    (r : Grammar → Reader α) : Except Fault α :=
  let cs := Text.withoutMark text
  let mode : Mode :=
    { typescript := dialect.isTyped, jsx := dialect.hasElements, isModule, strict := isModule
      limit := cs.length + 2 }
  let start : State := { token := mode.settle (Lexer.first cs), last := 0, arrowStart := none }
  match (r (grammarFor cs.length)).run mode |>.run start with
  | .ok a _ => .ok a
  | .error fault _ => .error fault

def parseModule (dialect : Dialect) (text : List Char) : Except Fault (List Stmt) :=
  runReader dialect true text wholeModule

/-- The first expression of a text; what follows it is not looked at. -/
def parseExpr (dialect : Dialect) (text : List Char) : Except Fault Expr :=
  runReader dialect false text Grammar.expression

def Fault.describe (f : Fault) (filename : String) (text : List Char) : String :=
  let place := Text.placeAt (Text.withoutMark text) f.offset
  "failed to parse " ++ filename ++ ":" ++ toString place.line ++ ":" ++
    toString (place.column + 1) ++ ": " ++ f.problem.message

end RefSugar.Syntax
