import LuaTree.KindSet
import LuaTree.Text.Escape
import LuaTree.Token.Lex

/-!
# Highlight — categories of the pieces of a source

Each kind of token has at most one category, and blanks and unknown characters have none. A quoted
string is cut at its escapes, so that each escape is a piece of its own.
-/

namespace LuaTree

/-- What a piece of a source is shown as. -/
inductive Category where
  | keyword | string | constant | number | comment | operator | parentheses | brackets | braces
  | doubleColon | semicolon | colon | comma | dot | ellipsis | identifier | validEscape
  | invalidEscape
  deriving DecidableEq

namespace Category

def label : Category → String
  | keyword => "keyword"
  | string => "string"
  | constant => "constant"
  | number => "number"
  | comment => "comment"
  | operator => "operator"
  | parentheses => "parentheses"
  | brackets => "brackets"
  | braces => "braces"
  | doubleColon => "double_colon"
  | semicolon => "semicolon"
  | colon => "colon"
  | comma => "comma"
  | dot => "dot"
  | ellipsis => "ellipsis"
  | identifier => "identifier"
  | validEscape => "valid_escape"
  | invalidEscape => "invalid_escape"

/-- The category of a kind of token; `nil`, `true` and `false` are constants and not keywords. -/
def ofKind? (k : Kind) : Option Category :=
  if k ∈ KindSet.constants then some constant
  else if k ∈ KindSet.keywords then some keyword
  else if k ∈ KindSet.operators then some operator
  else if k ∈ KindSet.numbers then some number
  else if k ∈ KindSet.comments then some comment
  else if k ∈ KindSet.strings then some string
  else
    match k with
    | .parenOpen | .parenClose => some parentheses
    | .bracketOpen | .bracketClose => some brackets
    | .braceOpen | .braceClose => some braces
    | .doubleColon => some doubleColon
    | .semicolon => some semicolon
    | .colon => some colon
    | .comma => some comma
    | .dot => some dot
    | .ellipsis => some ellipsis
    | .ident => some identifier
    | _ => none

end Category

/-- A piece of a source with its category. -/
structure Highlight where
  /-- The byte offset of its first character. -/
  start : Nat
  text : List Char
  category : Category

namespace Highlight

def stop (h : Highlight) : Nat := h.start + byteLength h.text

/-- A piece of a string outside of its escapes, unless it is empty. -/
def plain (start : Nat) : List Char → List Highlight
  | [] => []
  | text => [⟨start, text, .string⟩]

/-- Cuts a text that begins at byte `offset` at escapes that lie in it in order. -/
def split (offset : Nat) (text : List Char) : List Escape → List Highlight
  | [] => plain offset text
  | e :: es =>
    let (gap, rest) := cutBytes text (e.start - offset)
    let (escape, rest) := cutBytes rest (e.stop - e.start)
    plain offset gap ++
      ⟨e.start, escape, if e.valid then .validEscape else .invalidEscape⟩ :: split e.stop rest es

/-- The pieces of one token. -/
def ofToken (t : Token) : List Highlight :=
  match Category.ofKind? t.kind with
  | none => []
  | some category =>
    let text := t.text.toList
    if t.kind.isQuoted then split t.start text (Escape.allFrom t.start 0 text)
    else [⟨t.start, text, category⟩]

end Highlight

/-- **The pieces of a source that have a category, in order.** -/
def highlight (source : String) : List Highlight := (lex source).flatMap Highlight.ofToken

end LuaTree
