/-!
# Text/Visible — characters as they are shown in a report

A report points at characters by their columns, so whatever would take no column or more than one is
shown by something else: a control character by its picture, a tab by four blanks, a mark that turns
the direction of writing by the replacement character, and a joiner by nothing.
-/

namespace LuaTree

/-- What a character is shown as. -/
def visibleChar (c : Char) : List Char :=
  if c = '\t' then List.replicate 4 ' '
  else if c = '\n' then [c]
  else if c.toNat < 0x20 then [Char.ofNat (0x2400 + c.toNat)]
  else if c.toNat = 0x7f then [Char.ofNat 0x2421]
  else if c.toNat = 0x200d then []
  else if 0x202a ≤ c.toNat ∧ c.toNat ≤ 0x202e ∨ 0x2066 ≤ c.toNat ∧ c.toNat ≤ 0x2069 then
    [Char.ofNat 0xfffd]
  else [c]

/-- What a text is shown as. -/
def visible (cs : List Char) : List Char := cs.flatMap visibleChar

@[simp] theorem visible_nil : visible [] = [] := rfl

@[simp] theorem visible_append (cs ds : List Char) :
    visible (cs ++ ds) = visible cs ++ visible ds :=
  List.flatMap_append

end LuaTree
