import LuaTree.Text.Extending
import LuaTree.Text.Unprintable

/-!
# Text/Quoted — texts between quotes, readable in one line

Listings show the text of a token between double quotes. A quote, a backslash and the usual control
characters have a short escape; whatever else would not show as a shape of its own is written by its
code.
-/

namespace LuaTree.Quoted

/-- A code in lower case hexadecimal digits, without leading zeros. -/
def hexCode (n : Nat) : String := String.ofList (Nat.toDigits 16 n)

/-- Whether a character is written by its code. -/
def isHidden (c : Char) : Bool :=
  if c.toNat < 0x7f then c.toNat < 0x20 else isUnprintable c || isExtending c

/-- How a character is written between quotes. -/
def writeChar (c : Char) : String :=
  if c = '\x00' then "\\0"
  else if c = '\t' then "\\t"
  else if c = '\n' then "\\n"
  else if c = '\r' then "\\r"
  else if c = '\x22' then "\\\""
  else if c = '\x5c' then "\\\\"
  else if isHidden c then "\\u\x7b" ++ hexCode c.toNat ++ "\x7d"
  else c.toString

/-- **A text between quotes.** -/
def write (s : String) : String := "\"" ++ String.join (s.toList.map writeChar) ++ "\""

end LuaTree.Quoted
