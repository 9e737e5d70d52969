import LuaTree.Command.Invocation

/-!
# Command/Arguments — reading a command line

Arguments are read from left to right. A parameter with a value takes it from its own argument,
behind an equals sign or behind the short name, or else from the next argument, which must not look
like a parameter itself. The last value read is looked at only when the next argument finds its
place; so of two faults the one further right may be told.
-/

namespace LuaTree

/-! ## Words -/

/-- An argument by its form. -/
inductive Word where
  /-- Two hyphens: all further arguments are plain. -/
  | separator
  | long (name : String) (value : Option String)
  /-- A hyphen, a character, and what follows. -/
  | short (name : Char) (rest : List Char)
  | plain (text : String)

/-- The form of an argument. A single hyphen is plain. -/
def Word.ofString (s : String) : Word :=
  match s.toList with
  | ['-', '-'] => separator
  | '-' :: '-' :: cs =>
    match cs.dropWhile (· != '=') with
    | [] => long (String.ofList cs) none
    | _ :: value => long (String.ofList (cs.takeWhile (· != '='))) (some (String.ofList value))
  | '-' :: c :: cs => short c cs
  | _ => plain s

/-- The value behind a short name, perhaps after an equals sign. -/
def Word.attached? : List Char → Option String
  | [] => none
  | '=' :: cs => some (String.ofList cs)
  | cs => some (String.ofList cs)

def Command.long? (c : Command) (name : String) : Option Parameter :=
  c.parameters.find? (·.long == name)

def Command.short? (c : Command) (name : Char) : Option Parameter :=
  c.parameters.find? (·.short? == some name)

/-! ## Behind a command -/

/-- The parameters that have been given. -/
structure Given where
  spans : Bool
  trivia : Bool
  color : Option Coloring
  format : Option Format
  source : Option String
  path : Option String

namespace Given

def nothing : Given := ⟨false, false, none, none, none, none⟩

/-- Sets a flag, which must not have been set before. -/
def raise (g : Given) : Flag → Except UsageError Given
  | .spans => if g.spans then throw .conflict else return { g with spans := true }
  | .trivia => if g.trivia then throw .conflict else return { g with trivia := true }

/-- A value that must not have been given before. -/
def once {α : Type} (old new : Option α) : Except UsageError (Option α) :=
  if old.isSome then throw .conflict
  else if new.isNone then throw .invalidValue
  else return new

/-- Gives a parameter its value. -/
def fill (g : Given) (s : Setting) (value : String) : Except UsageError Given := do
  match s with
  | .color => return { g with color := ← once g.color (Coloring.ofLabel? value) }
  | .format => return { g with format := ← once g.format (Format.ofLabel? value) }
  | .source => return { g with source := ← once g.source (some value) }

/-- Where the source comes from. -/
def origin? (g : Given) : Option Origin :=
  match g.source, g.path with
  | some text, _ => some (.given text)
  | none, some "-" => some .standard
  | none, some path => some (.file path)
  | none, none => none

def task (g : Given) : Command → Task
  | .tokens => .tokens g.spans (g.format.getD .text)
  | .tree => .tree g.trivia g.spans
  | .check => .check (g.color.getD .auto) (g.format.getD .text)
  | .highlight => .highlight (g.format.getD .text)

end Given

/-- A value that has not been looked at. -/
inductive Pending where
  | path (value : String)
  /-- Without a value while the next argument is expected to be it. -/
  | setting (s : Setting) (value : Option String)

/-- How far the arguments have been read. -/
structure Reading where
  given : Given
  pending : Option Pending
  /-- Whether a path has been read. -/
  hasPath : Bool
  /-- Whether the arguments that follow are all plain. -/
  plainOnly : Bool

namespace Reading

def start : Reading := ⟨.nothing, none, false, false⟩

/-- What has been given once the pending value has been looked at. -/
def settle (r : Reading) : Except UsageError Given :=
  match r.pending with
  | none => return r.given
  | some (.path value) =>
    if value.isEmpty then throw .invalidValue else return { r.given with path := some value }
  | some (.setting _ none) => throw .invalidValue
  | some (.setting s (some value)) => r.given.fill s value

/-- A plain argument that is the path. -/
def path (r : Reading) (value : String) : Except UsageError Reading := do
  if r.hasPath then throw .unknownArgument
  return { r with given := ← r.settle, pending := some (.path value), hasPath := true }

/-- A plain argument: the value of the parameter before it, or else the path. -/
def plain (r : Reading) (text : String) : Except UsageError Reading :=
  match r.pending with
  | some (.setting s none) => return { r with pending := some (.setting s (some text)) }
  | _ => r.path text

/-- How reading goes on: with the next argument, or not at all because help is asked for. -/
inductive Step where
  | next (r : Reading)
  | help

/-- A parameter with the value that was attached to it. -/
def parameter (r : Reading) (value : Option String) : Parameter → Except UsageError Step
  | .setting s => do
    let given ← r.settle
    match value with
    | some v => return .next { r with given := ← given.fill s v, pending := none }
    | none => return .next { r with given, pending := some (.setting s none) }
  | .flag f => do
    if value.isSome then throw .needlessValue
    return .next { r with given := ← (← r.settle).raise f, pending := none }
  | .help => do
    if value.isSome then throw .needlessValue
    let _ ← r.settle
    return .help

/-- One argument behind a command. -/
def step (c : Command) (r : Reading) (argument : String) : Except UsageError Step := do
  if r.plainOnly then return .next (← r.path argument)
  match Word.ofString argument with
  | .separator => return .next { r with plainOnly := true }
  | .long name value =>
    match c.long? name with
    | some p => r.parameter value p
    | none => throw .unknownArgument
  | .short name rest =>
    match c.short? name with
    | some .help => r.parameter none .help
    | some p => r.parameter (Word.attached? rest) p
    | none => throw .unknownArgument
  | .plain text => return .next (← r.plain text)

/-- What is asked for once all arguments have been read. -/
def finish (c : Command) (r : Reading) : Except UsageError Request := do
  let given ← r.settle
  if given.source.isSome && given.path.isSome then throw .conflict
  return .run ⟨given.task c, given.origin?⟩

/-- What the arguments behind a command ask for. -/
def request (c : Command) (r : Reading) : List String → Except UsageError Request
  | [] => r.finish c
  | argument :: rest => do
    match ← r.step c argument with
    | .next r => request c r rest
    | .help => return .help (.command c)

end Reading

/-! ## The whole command line -/

/-- The topic that a word names after `help`. -/
def Topic.ofLabel? (s : String) : Option Topic :=
  if s = "help" then some .help else (Command.ofLabel? s).map command

/-- What is asked for behind `help`. -/
def Topic.request : List String → Except UsageError Request
  | [] => return .help .program
  | [word] =>
    match ofLabel? word with
    | some topic => return .help topic
    | none => throw .unknownCommand
  | _ => throw .unknownCommand

namespace Request

/-- What an argument before any command asks for, given the arguments behind it. -/
def before (argument : String) (rest : List String) : Except UsageError Request :=
  match Word.ofString argument with
  | .separator =>
    match rest with
    | [] => throw .noArguments
    | word :: _ =>
      throw (if (Topic.ofLabel? word).isSome then .unknownArgument else .unknownCommand)
  | .long "help" none | .short 'h' _ => return .help .program
  | .long "version" none | .short 'V' _ => return .version
  | .long "help" (some _) | .long "version" (some _) => throw .needlessValue
  | .long .. | .short .. => throw .unknownArgument
  | .plain _ => throw .unknownCommand

/-- **What a command line asks for,** the name of the program left out. -/
def ofArguments : List String → Except UsageError Request
  | [] => throw .noArguments
  | "help" :: rest => Topic.request rest
  | argument :: rest =>
    match Command.ofLabel? argument with
    | some c => Reading.start.request c rest
    | none => before argument rest

end Request

end LuaTree
