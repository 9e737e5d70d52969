/-!
# Command/Invocation — what the command line can ask for

There are four commands. Each reads one source, which is given on the command line itself, in a file
or on the standard input, and has parameters of its own.
-/

namespace LuaTree

inductive Command where
  | tokens | tree | check | highlight
  deriving DecidableEq

/-- The form in which results are written. -/
inductive Format where
  | text | json
  deriving DecidableEq

/-- Whether a report is colored; `auto` leaves it to where the report is written. -/
inductive Coloring where
  | auto | always | never
  deriving DecidableEq

/-- Parameters that are given or not. -/
inductive Flag where
  | spans | trivia
  deriving DecidableEq

/-- Parameters that have a value. -/
inductive Setting where
  | color | format | source
  deriving DecidableEq

/-- What can be written with a name behind a command. -/
inductive Parameter where
  | flag (f : Flag)
  | setting (s : Setting)
  | help
  deriving DecidableEq

/-- Where a source comes from. -/
inductive Origin where
  | given (text : String)
  | file (path : String)
  | standard
  deriving DecidableEq

/-- A command with its parameters. -/
inductive Task where
  | tokens (spans : Bool) (format : Format)
  | tree (trivia spans : Bool)
  | check (color : Coloring) (format : Format)
  | highlight (format : Format)
  deriving DecidableEq

/-- A task and the source it is about, if one was named. -/
structure Invocation where
  task : Task
  origin : Option Origin
  deriving DecidableEq

/-- What there is a help text about. -/
inductive Topic where
  | program
  | command (c : Command)
  | help
  deriving DecidableEq

/-- What a command line asks for. -/
inductive Request where
  | run (i : Invocation)
  | help (t : Topic)
  | version
  deriving DecidableEq

/-- Why a command line asks for nothing. -/
inductive UsageError where
  /-- There are no arguments. -/
  | noArguments
  | unknownCommand
  /-- There is no such parameter, or no place for another argument. -/
  | unknownArgument
  /-- A value is missing or is none of the possible ones. -/
  | invalidValue
  /-- A parameter is given twice, or the source in two ways. -/
  | conflict
  /-- A parameter without a value was given one. -/
  | needlessValue
  deriving DecidableEq

def Command.all : List Command := [.tokens, .tree, .check, .highlight]

def Command.label : Command → String
  | tokens => "tokens"
  | tree => "tree"
  | check => "check"
  | highlight => "highlight"

/-- The command that a label names. -/
def Command.ofLabel? (s : String) : Option Command := all.find? (·.label == s)

/-- What can be written with a name behind a command. -/
def Command.parameters : Command → List Parameter
  | tokens => [.flag .spans, .setting .format, .setting .source, .help]
  | tree => [.flag .trivia, .flag .spans, .setting .source, .help]
  | check => [.setting .color, .setting .format, .setting .source, .help]
  | highlight => [.setting .format, .setting .source, .help]

def Format.all : List Format := [.text, .json]

def Format.label : Format → String
  | text => "text"
  | json => "json"

/-- The format that a label names. -/
def Format.ofLabel? (s : String) : Option Format := all.find? (·.label == s)

def Coloring.all : List Coloring := [.auto, .always, .never]

def Coloring.label : Coloring → String
  | auto => "auto"
  | always => "always"
  | never => "never"

/-- The coloring that a label names. -/
def Coloring.ofLabel? (s : String) : Option Coloring := all.find? (·.label == s)

/-- The long name, which is written behind two hyphens. -/
def Parameter.long : Parameter → String
  | flag .spans => "spans"
  | flag .trivia => "trivia"
  | setting .color => "color"
  | setting .format => "format"
  | setting .source => "source"
  | help => "help"

/-- The short name, which is written behind one hyphen. -/
def Parameter.short? : Parameter → Option Char
  | setting .source => some 's'
  | help => some 'h'
  | _ => none

end LuaTree
