/-!
# Text/LongBracket — the brackets `[[ … ]]`, `[=[ … ]=]`, … of long strings and comments

An opening long bracket of level `n` is `[`, `n` times `=`, `[`; the closing bracket of the same
level ends the text that it opens, and nothing in between has a meaning of its own.
-/

namespace LuaTree.LongBracket

/-- The opening bracket of a level. -/
def opener (level : Nat) : List Char := '[' :: (List.replicate level '=' ++ ['['])

/-- The closing bracket of a level. -/
def closer (level : Nat) : List Char := ']' :: (List.replicate level '=' ++ [']'])

@[simp] theorem length_opener (level : Nat) : (opener level).length = level + 2 := by
  simp [opener]

@[simp] theorem length_closer (level : Nat) : (closer level).length = level + 2 := by
  simp [closer]

/-- The level of an opening bracket whose `[` and first `seen` signs have been read. -/
def levelFrom? (seen : Nat) : List Char → Option Nat
  | '=' :: cs => levelFrom? (seen + 1) cs
  | '[' :: _ => some seen
  | _ => none

/-- The level of the opening bracket at the head of a text. -/
def level? : List Char → Option Nat
  | '[' :: cs => levelFrom? 0 cs
  | _ => none

theorem levelFrom?_replicate (seen level : Nat) (cs : List Char) :
    levelFrom? seen (List.replicate level '=' ++ '[' :: cs) = some (seen + level) := by
  induction level generalizing seen with
  | zero => simp [levelFrom?]
  | succ level ih =>
    rw [List.replicate_succ, List.cons_append, levelFrom?, ih]
    congr 1
    omega

theorem level?_opener_append (level : Nat) (cs : List Char) :
    level? (opener level ++ cs) = some level := by
  simp [opener, level?, levelFrom?_replicate]

theorem eq_of_levelFrom? {seen level : Nat} {cs : List Char} (h : levelFrom? seen cs = some level) :
    ∃ n ds, level = seen + n ∧ cs = List.replicate n '=' ++ '[' :: ds := by
  fun_induction levelFrom? seen cs with
  | case1 seen cs ih =>
    obtain ⟨n, ds, rfl, rfl⟩ := ih h
    exact ⟨n + 1, ds, by omega, by simp [List.replicate_succ]⟩
  | case2 seen cs => exact ⟨0, cs, by simpa using h.symm, by simp⟩
  | case3 => simp at h

/-- **A level is read exactly off an opening bracket.** -/
theorem level?_eq_some_iff {cs : List Char} {level : Nat} :
    level? cs = some level ↔ ∃ ds, cs = opener level ++ ds := by
  constructor
  · intro h
    unfold level? at h
    split at h
    · obtain ⟨n, ds, rfl, rfl⟩ := eq_of_levelFrom? h
      exact ⟨ds, by simp [opener]⟩
    · simp at h
  · rintro ⟨ds, rfl⟩
    exact level?_opener_append level ds

/-- How many characters run up to the end of the first `mark`; all of them where there is none. -/
def lengthThrough (mark : List Char) : List Char → Nat
  | [] => 0
  | c :: cs => if mark.isPrefixOf (c :: cs) then mark.length else lengthThrough mark cs + 1

/-- Whether a text that begins with an opening bracket ends with the closing bracket of its level.
-/
def isClosed (cs : List Char) : Bool :=
  match level? cs with
  | some level => (closer level).isSuffixOf cs
  | none => false

end LuaTree.LongBracket
