/-!
Command line arguments: an action, its flags and its inputs. Flags and inputs may stand in any
order; behind `--` all are inputs.
-/
namespace RefSugar.Command

inductive Action where
  | transform
  | check
  | edits
  | declarations
  deriving DecidableEq, Repr

namespace Action

def all : List Action :=
  [transform, check, edits, declarations]

def name : Action → String
  | transform => "transform"
  | check => "check"
  | edits => "edits"
  | declarations => "declarations"

def ofName? (name : String) : Option Action :=
  all.find? (·.name == name)

def needsInput : Action → Bool
  | declarations => false
  | transform | check | edits => true

def takesMore (inputs : Nat) : Action → Bool
  | declarations => false
  | edits => inputs == 0
  | transform | check => true

end Action

inductive Flag where
  | output
  | outDir
  | sourceMap
  | declarations
  | config
  | ignore
  | counting
  | help
  deriving DecidableEq, Repr

namespace Flag

def all : List Flag :=
  [output, outDir, sourceMap, declarations, config, ignore, counting, help]

def name : Flag → String
  | output => "output"
  | outDir => "out-dir"
  | sourceMap => "source-map"
  | declarations => "declarations"
  | config => "config"
  | ignore => "ignore"
  | counting => "counting"
  | help => "help"

def letter? : Flag → Option Char
  | output => some 'o'
  | help => some 'h'
  | _ => none

def appliesTo (action : Action) : Flag → Bool
  | output | outDir | sourceMap | declarations => action == .transform
  | config | ignore | counting | help => true

def takesValue : Flag → Bool
  | output | outDir | config | ignore => true
  | sourceMap | declarations | counting | help => false

def ofName? (action : Action) (name : String) : Option Flag :=
  all.find? fun f => f.name == name && f.appliesTo action

def ofLetter? (action : Action) (letter : Char) : Option Flag :=
  all.find? fun f => f.letter? == some letter && f.appliesTo action

end Flag

structure Request where
  action : Action
  inputs : List String := []
  output : Option String := none
  outDir : Option String := none
  sourceMap : Bool := false
  declarations : Bool := false
  config : Option String := none
  ignore : List String := []
  counting : Bool := false
  deriving DecidableEq, Repr

inductive Topic where
  | general
  | action (a : Action)
  /-- How to ask for help. -/
  | help
  deriving DecidableEq, Repr

/-- The topic of a word behind `help`. -/
def Topic.ofName? (name : String) : Option Topic :=
  if name == "help" then some .help else (Action.ofName? name).map .action

inductive Reading where
  | request (r : Request)
  | help (topic : Topic)
  /-- The arguments make no sense. -/
  | misuse
  deriving DecidableEq, Repr

namespace Request

/-- Sets a flag that takes a value. A path may not be empty. -/
def setValue? (r : Request) (value : String) : Flag → Option Request
  | .output => if value.isEmpty then none else some { r with output := some value }
  | .outDir => if value.isEmpty then none else some { r with outDir := some value }
  | .config => if value.isEmpty then none else some { r with config := some value }
  | .ignore => some { r with ignore := r.ignore ++ [value] }
  | .sourceMap | .declarations | .counting | .help => none

def switch (r : Request) : Flag → Request
  | .sourceMap => { r with sourceMap := true }
  | .declarations => { r with declarations := true }
  | .counting => { r with counting := true }
  | .output | .outDir | .config | .ignore | .help => r

def addInput? (r : Request) (input : String) : Option Request :=
  if input.isEmpty || !r.action.takesMore r.inputs.length then none
  else some { r with inputs := r.inputs ++ [input] }

def isComplete (r : Request) : Bool :=
  (!r.action.needsInput || !r.inputs.isEmpty) && !(r.output.isSome && r.outDir.isSome)

def finish (r : Request) : Reading :=
  if r.isComplete then .request r else .misuse

end Request

/-- An argument that may be an input or the value of a flag. -/
def isPlain (arg : String) : Bool :=
  !arg.startsWith "-" || arg == "-"

/-- The argument is a cluster of letters that asks for help at once. -/
def asksHelp (arg : String) : Bool :=
  arg.startsWith "-h"

/-- The flag an argument names, with its value if that is part of the argument. -/
def flagOf? (action : Action) (arg : String) : Option (Flag × Option String) :=
  match arg.toList with
  | '-' :: '-' :: cs =>
    let name := cs.takeWhile (· != '=')
    (Flag.ofName? action (String.ofList name)).map fun f =>
      (f, if name.length < cs.length then
        some (String.ofList (cs.drop (name.length + 1))) else none)
  | '-' :: c :: cs =>
    (Flag.ofLetter? action c).map fun f =>
      match cs with
      | [] => (f, none)
      | '=' :: value => (f, some (String.ofList value))
      | value => (f, some (String.ofList value))
  | _ => none

def readInputs (r : Request) (args : List String) : Reading :=
  match args.foldlM Request.addInput? r with
  | some r => r.finish
  | none => .misuse

/-- Reads the arguments of an action; `seen` are the flags in front of them. All flags but `ignore`
may stand once. -/
def readFlags (seen : List Flag) (r : Request) : List String → Reading
  | [] => r.finish
  | arg :: args =>
    if arg == "--" then readInputs r args
    else if isPlain arg then
      match r.addInput? arg with
      | some r => readFlags seen r args
      | none => .misuse
    else if asksHelp arg then .help (.action r.action)
    else
      match flagOf? r.action arg with
      | none => .misuse
      | some (f, value) =>
        if f == .help then if value.isSome then .misuse else .help (.action r.action)
        else if seen.contains f && f != .ignore then .misuse
        else if !f.takesValue then
          if value.isSome then .misuse else readFlags (f :: seen) (r.switch f) args
        else
          match value with
          | some value =>
            match r.setValue? value f with
            | some r => readFlags (f :: seen) r args
            | none => .misuse
          | none =>
            match args with
            | [] => .misuse
            | value :: args =>
              match if isPlain value then r.setValue? value f else none with
              | some r => readFlags (f :: seen) r args
              | none => .misuse

def readArgs : List String → Reading
  | [] => .misuse
  | first :: args =>
    match Action.ofName? first with
    | some action => readFlags [] { action } args
    | none =>
      if asksHelp first || first == "--help" then .help .general
      else if first == "help" then
        match args with
        | [] => .help .general
        | [name] =>
          match Topic.ofName? name with
          | some topic => .help topic
          | none => .misuse
        | _ => .misuse
      else .misuse

end RefSugar.Command
