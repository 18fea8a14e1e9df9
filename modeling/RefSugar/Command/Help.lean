import RefSugar.Command.Args

/-!
The help on the command line.
-/
namespace RefSugar.Command

namespace Action

def summary : Action → String
  | transform => "Rewrite files and print or write the result"
  | check => "Parse every script region and report syntax errors"
  | edits => "Print the edits and unwrap bindings for one file as JSON"
  | declarations => "Print the helper signature declarations"

def usage : Action → String
  | transform => "rfx transform [OPTIONS] <INPUTS>..."
  | check => "rfx check [OPTIONS] <INPUTS>..."
  | edits => "rfx edits [OPTIONS] <INPUT>"
  | declarations => "rfx declarations [OPTIONS]"

def inputHelp? : Action → Option String
  | transform => some "  <INPUTS>...  Files or directories\n"
  | check => some "  <INPUTS>...  \n"
  | edits => some "  <INPUT>  \n"
  | declarations => none

end Action

namespace Flag

def summary : Flag → String
  | output => "Output file (single input only; stdout if omitted)"
  | outDir => "Write outputs under this directory, mirroring input paths"
  | sourceMap => "Write a `.map` file next to each output"
  | declarations => "Append helper type declarations"
  | config => "JSON options file (defaults to ./rfx.config.json when present)"
  | ignore => "Extra names excluded from the `$name(...)` trigger"
  | counting => "Use order-sensitive counter resolution instead of lexical scopes"
  | help => "Print help"

def valueName? : Flag → Option String
  | output => some "OUTPUT"
  | outDir => some "OUT_DIR"
  | config => some "CONFIG"
  | ignore => some "NAME"
  | sourceMap | declarations | counting | help => none

def spelling (f : Flag) : String :=
  (match f.letter? with
    | some c => "-" ++ c.toString ++ ", --"
    | none => "    --") ++
  f.name ++
  match f.valueName? with
  | some v => " <" ++ v ++ ">"
  | none => ""

end Flag

def columns (rows : List (String × String)) : String :=
  let width := (rows.map (·.1.length)).foldl max 0
  String.join (rows.map fun (left, right) =>
    "  " ++ left ++ String.ofList (List.replicate (width - left.length) ' ') ++ "  " ++ right ++
      "\n")

def actionHelp (a : Action) : String :=
  a.summary ++ "\n\nUsage: " ++ a.usage ++ "\n\n" ++
    (match a.inputHelp? with
      | some text => "Arguments:\n" ++ text ++ "\n"
      | none => "") ++
    "Options:\n" ++
    columns ((Flag.all.filter (·.appliesTo a)).map fun f => (f.spelling, f.summary))

def helpSummary : String :=
  "Print this message or the help of the given subcommand(s)"

def generalHelp : String :=
  "rfx: desugar $-sigil reactivity shorthand\n\nUsage: rfx <COMMAND>\n\nCommands:\n" ++
    columns (Action.all.map (fun a => (a.name, a.summary)) ++ [("help", helpSummary)]) ++
    "\nOptions:\n" ++ columns [(Flag.help.spelling, Flag.help.summary)]

def helpOnHelp : String :=
  helpSummary ++ "\n\nUsage: rfx help [COMMAND]...\n\nArguments:\n" ++
    columns [("[COMMAND]...", "Print help for the subcommand(s)")]

def helpText : Topic → String
  | .general => generalHelp
  | .action a => actionHelp a
  | .help => helpOnHelp

end RefSugar.Command
