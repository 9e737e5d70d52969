import LuaTree.Token
import LuaTree.Token.Rule

/-!
# Token/Lex — cutting a source into tokens

The tokens of a source cover it without gaps. At each place the longest match of the lexical rules
decides the kind; a string or comment then goes on from its opening mark to its closing one, to the
end of the line or to the end of the input. A character where no rule matches is a token of its own.
-/

namespace LuaTree

namespace Token

/-- How many characters of a quoted string follow its opening quote: up to and including the first
quote that no backslash escapes, or up to a line break that none escapes. -/
def quotedLength (quote : Char) : List Char → Nat
  | [] => 0
  | ['\x5c'] => 1
  | '\x5c' :: '\r' :: '\n' :: cs => quotedLength quote cs + 3
  | '\x5c' :: _ :: cs => quotedLength quote cs + 2
  | c :: cs =>
    if c = '\n' ∨ c = '\r' then 0
    else if c = quote then 1
    else quotedLength quote cs + 1

theorem quotedLength_cons {quote c : Char} (hc : c ≠ '\x5c') (cs : List Char) :
    quotedLength quote (c :: cs) =
      if c = '\n' ∨ c = '\r' then 0 else if c = quote then 1 else quotedLength quote cs + 1 := by
  rw [quotedLength]
  · exact fun h _ => hc h
  · exact fun _ h _ => hc h
  · exact fun _ _ h _ => hc h

theorem quotedLength_escape {quote c : Char} {cs : List Char} (hc : c = '\r' → cs.head? ≠ some '\n') :
    quotedLength quote ('\x5c' :: c :: cs) = quotedLength quote cs + 2 := by
  rw [quotedLength]
  rintro ds rfl rfl
  exact hc rfl rfl

/-- The kind of a comment and the number of its characters after the dashes. -/
def comment (cs : List Char) : Kind × Nat :=
  match LongBracket.level? cs with
  | some level =>
    (.blockComment,
      level + 2 + LongBracket.lengthThrough (LongBracket.closer level) (cs.drop (level + 2)))
  | none => (.lineComment, (cs.takeWhile fun c => c != '\n' && c != '\r').length)

/-- The kind and length of a token whose rule matched `n` characters with `rest` behind them. -/
def complete (kind : Kind) (n : Nat) (rest : List Char) : Kind × Nat :=
  match kind with
  | .singleQuotedString => (kind, n + quotedLength '\x27' rest)
  | .doubleQuotedString => (kind, n + quotedLength '\x22' rest)
  | .longString => (kind, n + LongBracket.lengthThrough (LongBracket.closer (n - 2)) rest)
  | .comment => ((comment rest).1, n + (comment rest).2)
  | _ => (kind, n)

/-- The kind and length of the token at the head of a text. -/
def head (cs : List Char) : Kind × Nat :=
  match Rule.munch Rule.all cs with
  | some (kind, n) => complete kind n (cs.drop n)
  | none => (.invalidChar, 1)

/-- The tokens of a text that begins at byte `offset`, where the first `skip` characters still
belong to a token that has been placed. -/
def lexFrom (offset skip : Nat) : List Char → List Token
  | [] => []
  | c :: cs =>
    let next := offset + c.utf8Size
    match skip with
    | skip + 1 => lexFrom next skip cs
    | 0 =>
      let (kind, length) := head (c :: cs)
      ⟨kind, offset, String.ofList (c :: cs.take (length - 1))⟩ :: lexFrom next (length - 1) cs

end Token

/-- **The tokens of a source, in order.** -/
def lex (source : String) : List Token := Token.lexFrom 0 0 source.toList

end LuaTree
