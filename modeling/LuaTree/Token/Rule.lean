import LuaTree.Kind
import LuaTree.Text.Digit
import LuaTree.Text.Pattern

/-!
# Token/Rule — the lexical rules, and the longest match among them

A rule gives a pattern to a kind of token. Of all rules the one with the longest match wins, and the
earlier one among equals: keywords stand before names and octal numbers before decimal ones. For
strings and comments the pattern is that of the opening mark.
-/

namespace LuaTree

/-- A kind of token and the pattern of its text or of its opening mark. -/
structure Rule where
  kind : Kind
  pattern : Pattern

namespace Rule

open Pattern

/-- A keyword, bracket, punctuation mark or operator. -/
def ofSpelling (k : Kind) : Rule := ⟨k, literal ((k.spelling?.getD "").toList)⟩

def decimal : Pattern := char isDecimal

def hex : Pattern := char isHex

/-- A letter, an optional sign and a decimal number. -/
def exponent (letters : List Char) : Pattern :=
  seqs [oneOf letters, optional (oneOf ['+', '-']), many decimal]

/-- What stands before the digits of a hexadecimal number. -/
def hexMark : Pattern := seq (literal ['0']) (oneOf ['x', 'X'])

/-- Decimal numbers with a point or an exponent, and hexadecimal ones with a point or a binary
exponent. -/
def real : Pattern :=
  anyOf [
    seqs [many decimal, literal ['.'], star decimal, optional (exponent ['e', 'E'])],
    seqs [literal ['.'], many decimal, optional (exponent ['e', 'E'])],
    seqs [many decimal, exponent ['e', 'E']],
    seqs [hexMark, star hex, literal ['.'], star hex, optional (exponent ['p', 'P'])],
    seqs [hexMark, many hex, exponent ['p', 'P']]]

/-- The rules whose tokens have no fixed text. -/
def unspelled : List Rule :=
  [⟨.octInt, seq (literal ['0']) (many (char isOctal))⟩,
   ⟨.decInt, many decimal⟩,
   ⟨.hexInt, seq hexMark (many hex)⟩,
   ⟨.realNumber, real⟩,
   ⟨.singleQuotedString, literal ['\x27']⟩,
   ⟨.doubleQuotedString, literal ['\x22']⟩,
   ⟨.longString, seqs [literal ['['], star (literal ['=']), literal ['[']]⟩,
   ⟨.ident, seq (char isNameStart) (star (char isNamePart))⟩,
   ⟨.whitespace, many (oneOf [' ', '\t', '\x0b', '\x0c'])⟩,
   ⟨.newline, anyOf [literal ['\n'], literal ['\r', '\n'], literal ['\r']]⟩,
   ⟨.comment, literal ['-', '-']⟩]

/-- Every rule; of two matches of one length the earlier rule wins. -/
def all : List Rule := Kind.spelled.map ofSpelling ++ unspelled

/-- A kind with the length of its match. -/
abbrev Match := Kind × Nat

def match? (r : Rule) (cs : List Char) : Option Match :=
  (r.pattern.longest? cs).map (r.kind, ·)

/-- The second match if it is longer, else the first. -/
def longer : Option Match → Option Match → Option Match
  | none, b => b
  | a, none => a
  | some a, some b => if a.2 < b.2 then some b else some a

/-- The longest match at the head of a text. -/
def munch (rules : List Rule) (cs : List Char) : Option Match :=
  rules.foldl (fun best r => longer best (r.match? cs)) none

end Rule

end LuaTree
