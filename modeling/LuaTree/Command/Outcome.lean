import LuaTree.Command.Arguments
import LuaTree.Command.Help
import LuaTree.Command.Output

/-!
# Command/Outcome — what a command line leads to

A run of the program ends with an exit code and two texts. Zero is success; one says that the source
could not be read or has errors, and two that the command line asks for nothing.
-/

namespace LuaTree

/-- The exit code, and what is written on the standard output and on the error output. -/
structure Outcome where
  code : Nat
  output : String
  errors : String
  deriving DecidableEq

/-! ## Reading the source -/

/-- Why bytes cannot be read. -/
inductive ReadError where
  | noSuchFile
  | noDirectory
  | isDirectory
  /-- Another answer of the system, with its number. -/
  | system (what : String) (number : Nat)
  /-- The bytes are no text. -/
  | notText
  | other (what : String)
  deriving DecidableEq

namespace ReadError

/-- The error that the system gives a number. -/
def ofSystem (what : String) : Nat → ReadError
  | 2 => noSuchFile
  | 20 => noDirectory
  | 21 => isDirectory
  | number => system what number

/-- The words for an answer of the system. -/
def systemMessage (what : String) (number : Nat) : String :=
  what ++ " (os error " ++ number.repr ++ ")"

def message : ReadError → String
  | noSuchFile => systemMessage "No such file or directory" 2
  | noDirectory => systemMessage "Not a directory" 20
  | isDirectory => systemMessage "Is a directory" 21
  | system what number => systemMessage what number
  | notText => "stream did not contain valid UTF-8"
  | other what => what

end ReadError

namespace Origin

/-- What a source is called in messages. -/
def name : Origin → String
  | given _ => "<source>"
  | file path => path
  | standard => "<stdin>"

/-- What could not be read, in messages. -/
def described : Origin → String
  | given _ => "source"
  | file path => path
  | standard => "stdin"

/-- The text of a source, given a way to read the bytes of a file or of the standard input. -/
def text (read : Origin → Except ReadError ByteArray) (i : Origin) : Except ReadError String :=
  match i with
  | given text => return text
  | _ => do
    match String.fromUTF8? (← read i) with
    | some text => return text
    | none => throw .notText

end Origin

/-! ## Running -/

namespace Outcome

def success (output : String) : Outcome := ⟨0, output, ""⟩

def failure (message : String) : Outcome := ⟨1, "", "error: " ++ message ++ "\n"⟩

/-- A text for machines is followed by a line break. -/
def machine (code : Nat) (v : Json) : Outcome := ⟨code, v.pretty ++ "\n", ""⟩

/-- The outcome of `check`: the report goes to the error output, the text for machines does not. -/
def check (name source : String) (colored : Bool) (format : Format) : Except Fault Outcome := do
  let p ← parse source .standard
  let code := if p.isValid then 0 else 1
  match format with
  | .json => return machine code p.reportJson
  | .text => return ⟨code, "", ← p.report ⟨source, some name, colored⟩⟩

end Outcome

/-- Whether a report is colored, given whether it is written on a terminal. -/
def Coloring.isColored (terminal : Bool) : Coloring → Bool
  | auto => terminal
  | always => true
  | never => false

/-- The outcome of a task for a source of a name. -/
def Task.outcome (terminal : Bool) (name source : String) : Task → Except Fault Outcome
  | tokens spans .text => return .success (tokensText spans source)
  | tokens _ .json => return .machine 0 (tokensJson source)
  | tree trivia spans => return .success (← treeText trivia spans source)
  | check color format => Outcome.check name source (color.isColored terminal) format
  | highlight .text => return .success (highlightText source)
  | highlight .json => return .machine 0 (highlightJson source)

/-- The outcome of an invocation. -/
def Invocation.outcome (terminal : Bool) (read : Origin → Except ReadError ByteArray)
    (i : Invocation) : Except Fault Outcome :=
  match i.origin with
  | none => return .failure "source required (positional FILE or --source)"
  | some origin =>
    match origin.text read with
    | .ok source => i.task.outcome terminal origin.name source
    | .error e => return .failure ("failed to read " ++ origin.described ++ ": " ++ e.message)

def UsageError.message : UsageError → String
  | noArguments => "a command is required"
  | unknownCommand => "there is no such command"
  | unknownArgument => "unexpected argument"
  | invalidValue => "a value is missing or is not possible"
  | conflict => "arguments cannot be used together"
  | needlessValue => "unexpected value"

/-- The outcome of a command line that asks for nothing. -/
def UsageError.outcome (e : UsageError) : Outcome :=
  ⟨2, "", "error: " ++ e.message ++ "\n\nFor more information, try '--help'.\n"⟩

/-- The outcome of a request. -/
def Request.outcome (terminal : Bool) (read : Origin → Except ReadError ByteArray) :
    Request → Except Fault Outcome
  | run i => i.outcome terminal read
  | help topic => return .success topic.text
  | version => return .success versionText

/-- **The outcome of a command line.** -/
def Outcome.ofArguments (terminal : Bool) (read : Origin → Except ReadError ByteArray)
    (arguments : List String) : Except Fault Outcome :=
  match Request.ofArguments arguments with
  | .ok request => request.outcome terminal read
  | .error e => return e.outcome

/-- The source that a command line asks to be read, if it has to be read at all. -/
def Origin.ofArguments? (arguments : List String) : Option Origin :=
  match Request.ofArguments arguments with
  | .ok (.run ⟨_, some (.given _)⟩) => none
  | .ok (.run ⟨_, origin⟩) => origin
  | _ => none

end LuaTree
