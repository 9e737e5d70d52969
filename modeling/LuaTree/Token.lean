import LuaTree.Kind
import LuaTree.Text.Bytes
import LuaTree.Text.LongBracket
import LuaTree.Text.Span

/-!
# Token — pieces of a source and whether their literals are finished

A token is a piece of the source with its kind and the offset where it starts. A string or a block
comment may run to the end of the input without its closing mark; `closesString?` and
`closesComment?` look for the mark at the end of the text.
-/

namespace LuaTree

/-- A piece of the source. -/
structure Token where
  kind : Kind
  /-- The byte offset of its first character. -/
  start : Nat
  text : String
  deriving DecidableEq

namespace Token

/-- The offset just after the token. -/
def stop (t : Token) : Nat := t.start + t.text.utf8ByteSize

def span (t : Token) : Span := Span.ofLength t.start t.text.utf8ByteSize

def isSignificant (t : Token) : Bool := t.kind.isSignificant

/-- The piece of a source between two byte offsets; there is none where an offset lies outside of
the source or inside a character. -/
def slice? (source : List Char) (kind : Kind) (s : Span) : Option Token := do
  return ⟨kind, s.start, String.ofList (← sliceBytes? source s.start s.stop)⟩

/-- The `n`-th token, from zero, of those that the grammar sees. -/
def nthSignificant? : Nat → List Token → Option Token
  | _, [] => none
  | n, t :: ts =>
    if t.isSignificant then
      match n with
      | 0 => some t
      | n + 1 => nthSignificant? n ts
    else nthSignificant? n ts

/-! ## Finished strings and comments -/

/-- Whether a quote and what follows it end with the same quote, which no backslash escapes. -/
def quoteCloses (quote : Char) (rest : List Char) : Bool :=
  quote.utf8Size == 1 && rest.getLast? == some quote &&
    (rest.dropLast.reverse.takeWhile (· == '\x5c')).length % 2 == 0

/-- Whether a string ends with its closing mark, and true of every other kind of token. A quoted
string has at least its opening quote. -/
def closesString? (kind : Kind) (text : List Char) : Option Bool :=
  if kind.isQuoted then
    match text with
    | [] => none
    | quote :: rest => some (quoteCloses quote rest)
  else if kind = .longString then some (LongBracket.isClosed text)
  else some true

/-- Whether a block comment ends with its closing mark, and true of every other kind of token. A
block comment has at least the two bytes of its dashes. -/
def closesComment? (kind : Kind) (text : List Char) : Option Bool :=
  if kind = .blockComment then (dropBytes? text 2).map LongBracket.isClosed else some true

end Token

end LuaTree
