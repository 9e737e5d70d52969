import LuaTree.Text.Bytes
import LuaTree.Text.Digit

/-!
# Text/Escape — the escape sequences of quoted strings

A backslash begins an escape. `measure` says how many characters after it belong to the escape and
whether it is one that the language knows: digits are taken as far as they go, up to three decimal,
two after `x`, any number between the braces after `u`; any other character stands alone and is not
known. `Escape.all` reads a text from left to right and places its escapes by byte offsets.
-/

namespace LuaTree

/-- An escape sequence: the bytes it covers in the text, and whether the language knows it. -/
structure Escape where
  start : Nat
  stop : Nat
  valid : Bool
  deriving DecidableEq

namespace Escape

/-- The largest code that a decimal escape may name. -/
def maxByte : Nat := 255

/-- The largest code that an escape in braces may name. -/
def maxCode : Nat := 0x7FFFFFFF

/-- The characters that a backslash makes stand for one fixed character, and `z`. -/
def isSimple (c : Char) : Bool :=
  ['a', 'b', 'f', 'n', 'r', 't', 'v', '\x5c', '\x22', '\x27', 'z'].contains c

/-- The length after the opening brace, and the validity, of a code in braces. -/
def measureCode (cs : List Char) : Nat × Bool :=
  let digits := cs.takeWhile isHex
  match cs.dropWhile isHex with
  | '\x7d' :: _ => (digits.length + 1, !digits.isEmpty && digitsValue 16 digits ≤ maxCode)
  | _ => (digits.length, false)

/-- How many characters after the backslash belong to the escape, and whether it is known. -/
def measure : List Char → Nat × Bool
  | [] => (0, false)
  | '\n' :: cs => (if cs.head? = some '\r' then 2 else 1, true)
  | '\r' :: cs => (if cs.head? = some '\n' then 2 else 1, true)
  | 'x' :: cs =>
    let digits := (cs.take 2).takeWhile isHex
    (digits.length + 1, digits.length == 2)
  | 'u' :: '\x7b' :: cs => ((measureCode cs).1 + 2, (measureCode cs).2)
  | c :: cs =>
    if isSimple c then (1, true)
    else if isDecimal c then
      let digits := ((c :: cs).take 3).takeWhile isDecimal
      (digits.length, digitsValue 10 digits ≤ maxByte)
    else (1, false)

/-- The escapes of a text that begins at byte `offset`, where the first `skip` characters still
belong to an escape that has been placed. -/
def allFrom (offset skip : Nat) : List Char → List Escape
  | [] => []
  | c :: cs =>
    let next := offset + c.utf8Size
    match skip with
    | skip + 1 => allFrom next skip cs
    | 0 =>
      if c = '\x5c' then
        ⟨offset, next + byteLength (cs.take (measure cs).1), (measure cs).2⟩ ::
          allFrom next (measure cs).1 cs
      else allFrom next 0 cs

/-- Every escape of a text, in order. -/
def all (text : List Char) : List Escape := allFrom 0 0 text

end Escape

end LuaTree
