import LuaTree.Parser.State

/-!
# Parser/Basic — looking, consuming, reporting, opening and closing

The grammar is written in these words alone. Looking skips trivia and unknown characters, and is
counted, so that a production that no longer consumes anything is noticed. Consuming a token also
wraps the unknown characters around it in nodes of their own. At one offset only the first
diagnostic is kept.
-/

namespace LuaTree.Parser

/-! ## Looking -/

/-- The kind of the `n`-th significant token ahead; `error` stands for the end of the input. -/
def peekAt (n : Nat) : Parser Kind := do
  let s ← get
  match s.looks with
  | 0 => throw .stuck
  | looks + 1 =>
    set { s with looks }
    return (Token.nthSignificant? n s.rest).elim .error Token.kind

/-- The kind of the next significant token. -/
def peek : Parser Kind := peekAt 0

def isAt (k : Kind) : Parser Bool := return (← peek) == k

def isAtOneOf (set : KindSet) : Parser Bool := return set.contains (← peek)

def isAtEnd : Parser Bool := isAt .error

/-- The span of the next significant token; at the end, the place just after the source. -/
def currentSpan : Parser Span :=
  return ((← get).rest.find? Token.isSignificant).elim (Span.place (← read).size) Token.span

/-- Allows all looks again. -/
def resetLooks : Parser Unit := modify fun s => { s with looks := State.maxLooks }

/-! ## Reporting -/

/-- Whether a diagnostic at an offset is kept: not a second one at one offset, and none after the
nesting limit has been reached. -/
def claim (offset : Nat) : Parser Bool := do
  let s ← get
  if s.limitReached || s.lastReported == some offset then return false
  set { s with lastReported := some offset }
  return true

def emit (d : Diagnostic) : Parser Unit :=
  modify fun s => { s with diagnostics := s.diagnostics.push d }

/-- Records a diagnostic unless its offset has one. -/
def report (d : Diagnostic) : Parser Unit := do
  if ← claim d.span.start then emit d

/-- Reports a problem at the next significant token. -/
def problem (p : Problem) (detail : Option String) : Parser Unit := do
  report ⟨p, ← currentSpan, detail, []⟩

/-! ## Opening and closing -/

def record (e : Event) : Parser Unit :=
  modify fun s => { s with events := s.events.push e }

/-- Opens a node whose kind is not known yet. -/
def start : Parser Opening := do
  let snapshot := (← get).snapshot
  record .blank
  return ⟨snapshot.events, snapshot⟩

/-- Changes an opening that has been recorded. -/
def amend (event : Nat) (change : Kind → Option Nat → Event) : Parser Unit := do
  let s ← get
  match s.events[event]? with
  | some (.opening kind wrapper) =>
    set { s with events := s.events.setIfInBounds event (change kind wrapper) }
  | _ => throw (.notAnOpening event)

/-- Closes a node and gives it its kind. -/
def complete (o : Opening) (kind : Kind) : Parser Closed := do
  amend o.event fun _ wrapper => .opening kind wrapper
  record .closing
  return ⟨o.event, kind, o.snapshot⟩

/-- Gives up a node and keeps all that was read in it. -/
def abandon (o : Opening) : Parser Unit :=
  modify fun s => if s.events.size = o.event + 1 then { s with events := s.events.pop } else s

/-- Gives up a node and all that was read since it was opened. -/
def rollback (o : Opening) : Parser Unit := modify (·.restore o.snapshot)

/-- Opens a node around one that is closed already. -/
def precede (c : Closed) : Parser Opening := do
  let o ← start
  amend c.event fun kind _ => .opening kind (some (o.event - c.event))
  return ⟨o.event, c.snapshot⟩

/-- The span between two offsets, which have to be in order. -/
def spanBetween (start stop : Nat) : Parser Span :=
  match Span.between? start stop with
  | some s => return s
  | none => throw (.inverted start stop)

/-- The span of the tokens consumed since a moment, without trivia at its ends; the place of the
next token when there are none. -/
def spanSince (old : Snapshot) : Parser Span := do
  let s ← get
  let consumed := (old.rest.take (s.position - old.position)).filter fun t => !t.kind.isTrivia
  match consumed.head?, consumed.getLast? with
  | some first, some last => spanBetween first.start last.stop
  | _, _ => return Span.place (← currentSpan).start

/-! ## Consuming -/

/-- Wraps the unknown characters among the next tokens, given from number `index` on, up to the next
significant one. -/
def wrapUnknownFrom (index : Nat) : List Token → Parser Unit
  | [] => return
  | t :: ts => do
    if t.kind.isTrivia then wrapUnknownFrom (index + 1) ts
    else if t.kind = .invalidChar then
      let o ← start
      record (.token index)
      modify fun s => { s with position := index + 1, rest := ts }
      report ⟨.unexpectedCharacter, ← spanSince o.snapshot, none, []⟩
      let _ ← complete o .error
      wrapUnknownFrom (index + 1) ts

/-- Wraps each unknown character in front of the next significant token in a node of its own. -/
def wrapUnknown : Parser Unit := do
  let s ← get
  wrapUnknownFrom s.position s.rest

/-- Reports a string without its closing mark. -/
def reportUnfinished (t : Token) : Parser Unit := do
  if t.kind ∈ KindSet.strings then
    match Token.closesString? t.kind t.text.toList with
    | some true => return
    | some false => report ⟨.unfinishedString, t.span, none, []⟩
    | none => throw (.unreadable t.kind)

/-- Consumes the next significant token and the unknown characters around it. -/
def bump : Parser Unit := do
  wrapUnknown
  let s ← get
  match s.rest.dropWhile (fun t => !t.isSignificant) with
  | [] => throw .pastEnd
  | t :: ts =>
    let index := s.position + (s.rest.takeWhile fun t => !t.isSignificant).length
    set { s with
      position := index + 1, rest := ts, events := s.events.push (.token index),
      looks := State.maxLooks }
    reportUnfinished t
  wrapUnknown

/-- Consumes the next token if it is of a kind. -/
def eat (k : Kind) : Parser Bool := do
  if ← isAt k then
    bump
    return true
  else return false

/-- How a kind of token is named when it is missing. -/
def nameOf (k : Kind) (otherwise : String) : String :=
  match k.spelling? with
  | some s => "'" ++ s ++ "'"
  | none => otherwise

/-- Consumes a token of a kind, or reports that it is missing. -/
def expect (k : Kind) : Parser Bool := do
  if ← eat k then return true
  problem .expectedToken (some (nameOf k "name"))
  return false

/-- Consumes a closing token, or reports that it is missing and what it was to close. -/
def expectClosing (k : Kind) (note : String) (opened : Span) : Parser Bool := do
  if ← eat k then return true
  report ⟨.expectedToken, ← currentSpan, some (nameOf k "'token'"), [⟨opened, note⟩]⟩
  return false

/-- Fails unless the next token is of a kind. -/
def require (k : Kind) : Parser Unit := do
  let found ← peek
  if found ≠ k then throw (.unexpected k found)

/-! ## Nesting -/

/-- Puts all that is left into one node and reports that the nesting limit is reached, the first
time that it is. -/
def bailOut (limit : Nat) : Parser Unit := do
  if (← get).limitReached then return
  let span ← spanBetween (← currentSpan).start (← read).size
  modify fun s =>
    let leaves := (s.rest.zipIdx s.position).filterMap fun (t, i) =>
      if t.kind.isTrivia then none else some (Event.token i)
    { s with
      position := s.position + s.rest.length
      rest := []
      events := (s.events.push (.opening .error none) ++ leaves).push .closing
      diagnostics := s.diagnostics.push ⟨.recursionLimitExceeded, span, some limit.repr, []⟩
      lastReported := some span.start
      limitReached := true }

/-- Runs a counted production, unless the nesting limit is reached. -/
def nested (p : Parser (Option Closed)) : Parser (Option Closed) := do
  let depth := (← get).depth
  match (← read).settings.limit with
  | some limit =>
    if limit ≤ depth then
      bailOut limit
      return none
  | none => pure ()
  modify fun s => { s with depth := depth + 1, looks := State.maxLooks }
  let result ← p
  modify fun s => { s with depth := s.depth - 1, looks := State.maxLooks }
  return result

/-! ## Repeating -/

/-- What a round of a loop decides. -/
inductive Round (σ α : Type) where
  | again (s : σ)
  | done (a : α)

/-- Runs rounds until one is done, at most `n` of them. -/
def rounds {σ α : Type} (round : σ → Parser (Round σ α)) : Nat → σ → Parser α
  | 0, _ => throw .exhausted
  | n + 1, s => do
    match ← round s with
    | .again s => rounds round n s
    | .done a => return a

/-- Runs rounds until one is done. -/
def loop {σ α : Type} (s : σ) (round : σ → Parser (Round σ α)) : Parser α := do
  rounds round (← read).bound s

end LuaTree.Parser
