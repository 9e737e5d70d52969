import LuaTree.Command.Invocation

/-!
# Command/Help — the help texts

A help text says what a command is for and how it is called, and lists its arguments and parameters
in two columns, followed by examples.
-/

namespace LuaTree

/-- The name of the program. -/
def programName : String := "luacst"

/-- The answer to a question for the version. -/
def versionText : String := programName ++ " 0.1.0\n"

/-- Lines of two columns, the second one starting two blanks after the widest entry of the first. -/
def twoColumns (rows : List (String × String)) : List String :=
  let width := (rows.map (·.1.length)).foldl max 0
  rows.map fun (left, right) =>
    "  " ++ left ++ String.ofList (List.replicate (width - left.length + 2) ' ') ++ right

/-- The possible values of a parameter, as they are shown behind its purpose. -/
def possibleValues (default : String) (values : List String) : String :=
  " [default: " ++ default ++ "] [possible values: " ++ ", ".intercalate values ++ "]"

namespace Setting

/-- What stands for the value in the help text. -/
def placeholder : Setting → String
  | color => "WHEN"
  | format => "FORMAT"
  | source => "TEXT"

def purpose : Setting → String
  | color => "Colorize output" ++ possibleValues "auto" (Coloring.all.map Coloring.label)
  | format => "Output format" ++ possibleValues "text" (Format.all.map Format.label)
  | source => "Inline source text"

end Setting

namespace Parameter

def purpose : Parameter → String
  | flag .spans => "Show source positions"
  | flag .trivia => "Include trivia tokens (whitespace, newlines, comments)"
  | setting s => s.purpose
  | help => "Print help"

/-- How the parameter is written. -/
def usage (p : Parameter) : String :=
  (match p.short? with
    | some c => "-" ++ c.toString ++ ", "
    | none => "    ") ++
  "--" ++ p.long ++
  (match p with
    | setting s => " <" ++ s.placeholder ++ ">"
    | _ => "")

end Parameter

namespace Command

def purpose : Command → String
  | tokens => "List the tokens of a source file"
  | tree => "Show the concrete syntax tree"
  | check => "Report syntax errors"
  | highlight => "Show the highlight category of every token"

/-- How the command is called. -/
def call (c : Command) : String := programName ++ " " ++ c.label

def examples : Command → List String
  | tokens =>
    [tokens.call ++ " init.lua              # one token per line",
      tokens.call ++ " init.lua --spans      # with byte ranges",
      tokens.call ++ " -s 'x = 1' --format json"]
  | tree =>
    [tree.call ++ " init.lua                # significant tokens only",
      tree.call ++ " init.lua --trivia       # lossless, with whitespace and comments",
      "cat init.lua | " ++ tree.call ++ " - --spans"]
  | check =>
    [check.call ++ " init.lua",
      check.call ++ " init.lua --format json",
      check.call ++ " -s 'if x then' --color never"]
  | highlight => []

/-- The lines of the help text of a command. -/
def helpLines (c : Command) : List String :=
  [c.purpose, "", "Usage: " ++ c.call ++ " <FILE>", "  " ++ c.call ++ " -s <TEXT>", "",
    "Arguments:"] ++
  twoColumns [("[FILE]", "Lua source file (use \"-\" for stdin)")] ++
  ["", "Options:"] ++
  twoColumns (c.parameters.map fun p => (p.usage, p.purpose)) ++
  (match c.examples with
    | [] => []
    | examples => ["", "EXAMPLES:"] ++ examples.map fun e => "  " ++ e)

end Command

namespace Topic

/-- What the command that shows help texts is for. -/
def helpPurpose : String := "Print this message or the help of the given subcommand(s)"

/-- The lines of a help text. -/
def lines : Topic → List String
  | program =>
    ["Inspect Lua tokens, syntax trees and diagnostics", "",
      "Usage: " ++ programName ++ " <COMMAND>", "", "Commands:"] ++
    twoColumns (Command.all.map (fun c => (c.label, c.purpose)) ++ [("help", helpPurpose)]) ++
    ["", "Options:"] ++
    twoColumns [("-h, --help", "Print help"), ("-V, --version", "Print version")]
  | command c => c.helpLines
  | help =>
    [helpPurpose, "", "Usage: " ++ programName ++ " help [COMMAND]...", "", "Arguments:"] ++
    twoColumns [("[COMMAND]...", "Print help for the subcommand(s)")]

/-- **The help text about a topic.** -/
def text (t : Topic) : String := String.join (t.lines.map (· ++ "\n"))

end Topic

end LuaTree
