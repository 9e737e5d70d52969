import LuaTree.Proofs.Growth
import LuaTree.Proofs.Tiling

/-!
# Proofs/Placing — where the parts of a grown tree start

Nothing in a tree stores an offset; a part starts where the parts before it end.  When `Draft.grow` has
placed the first `c` tokens, this is where the token with number `c` starts.
-/

namespace LuaTree

variable {tokens : List Token} {c c' n : Nat}

/-- Where the token with a number starts. -/
def offset (tokens : List Token) (c : Nat) : Nat := Token.sizeOfList (tokens.take c)

theorem Token.textOfList_append (ts us : List Token) :
    textOfList (ts ++ us) = textOfList ts ++ textOfList us := by
  induction ts with
  | nil => simp [textOfList]
  | cons t ts ih => simp [textOfList, ih, String.append_assoc]

theorem Token.sizeOfList_append (ts us : List Token) :
    sizeOfList (ts ++ us) = sizeOfList ts + sizeOfList us := by
  rw [sizeOfList, textOfList_append, String.utf8ByteSize_append]
  rfl

theorem Token.Adjacent.append {ts us : List Token} (h : Adjacent n (ts ++ us)) :
    Adjacent (n + sizeOfList ts) us := by
  induction ts generalizing n with
  | nil => exact h
  | cons t ts ih =>
    obtain ⟨rfl, h⟩ := h
    rw [sizeOfList_cons, ← Nat.add_assoc]
    exact ih h

theorem Token.Adjacent.left {ts us : List Token} (h : Adjacent n (ts ++ us)) : Adjacent n ts := by
  induction ts generalizing n with
  | nil => trivial
  | cons t ts ih => exact ⟨h.1, ih h.2⟩

/-- The tokens that start at the offset of a number or behind are those from this number on. -/
theorem Token.Adjacent.filter_offset (h : Adjacent 0 tokens) (hfilled : ∀ t ∈ tokens, t.text ≠ "") (c : Nat) :
    tokens.filter (fun t => offset tokens c ≤ t.start) = tokens.drop c := by
  have hsplit := h
  rw [← List.take_append_drop c tokens] at hsplit
  have hbefore : (tokens.take c).filter (fun t => offset tokens c ≤ t.start) = [] := by
    refine List.filter_eq_nil_iff.2 fun t ht => ?_
    have hpos : t.text.utf8ByteSize ≠ 0 := by simpa using hfilled t (List.mem_of_mem_take ht)
    have hstop := (hsplit.left.bounds ht).2
    rw [Nat.zero_add] at hstop
    rw [offset, decide_eq_true_eq]
    rw [Token.stop] at hstop
    omega
  have hbehind : (tokens.drop c).filter (fun t => offset tokens c ≤ t.start) = tokens.drop c := by
    refine List.filter_eq_self.2 fun t ht => ?_
    have hstart := (hsplit.append.bounds ht).1
    rw [Nat.zero_add] at hstart
    exact decide_eq_true hstart
  conv => lhs; rw [← List.take_append_drop c tokens]
  rw [List.filter_append, List.take_append_drop, hbefore, hbehind, List.nil_append]

/-- A token starts at the offset of its number. -/
theorem Token.Adjacent.start_eq {t : Token} {us : List Token} (h : Adjacent 0 tokens)
    (ht : tokens.drop c = t :: us) : t.start = offset tokens c := by
  rw [← List.take_append_drop c tokens, ht] at h
  have := h.append.1
  rwa [Nat.zero_add] at this

theorem Tree.sizeOfList_eq (ts : List Tree) :
    Tree.sizeOfList ts = (Tree.textOfLeaves (Tree.leavesOfList ts)).utf8ByteSize := by
  rw [textOfLeaves_leavesOfList, utf8ByteSize_textOfList]

/-- Trees that hold the tokens between two numbers reach from the one offset to the other. -/
theorem offset_add_sizeOfList {ts : List Tree}
    (h : Tree.leavesOfList ts ++ (tokens.drop c').map Token.leaf = (tokens.drop c).map Token.leaf) :
    offset tokens c + Tree.sizeOfList ts = offset tokens c' := by
  have hsize := congrArg (fun ls => (Tree.textOfLeaves ls).utf8ByteSize) h
  simp only [Tree.textOfLeaves_append, Tree.textOfLeaves_map_leaf, String.utf8ByteSize_append] at hsize
  have hc : offset tokens c + Token.sizeOfList (tokens.drop c) = Token.sizeOfList tokens := by
    rw [offset, ← Token.sizeOfList_append, List.take_append_drop]
  have hc' : offset tokens c' + Token.sizeOfList (tokens.drop c') = Token.sizeOfList tokens := by
    rw [offset, ← Token.sizeOfList_append, List.take_append_drop]
  rw [Tree.sizeOfList_eq]
  simp only [Token.sizeOfList] at hc hc' hsize
  omega

/-- Behind tokens that are placed as leaves. -/
theorem offset_add_sizeOfTokens :
    offset tokens c + Tree.sizeOfList (((tokens.drop c).take n).map Token.tree) = offset tokens (c + n) := by
  refine offset_add_sizeOfList ?_
  rw [Tree.leavesOfList_map_tree, map_leaf_drop_add]

theorem offset_add_sizeOfTrivia :
    offset tokens c + Tree.sizeOfList ((triviaFrom tokens c).map Token.tree) =
      offset tokens (c + (triviaFrom tokens c).length) := by
  rw [← offset_add_sizeOfTokens, Builder.take_triviaFrom]

/-- The first token ahead that is no trivia, behind the trivia in front of it. -/
theorem take_of_solidAfter {t : Token} {k : Nat} {R : List (Token × Nat)}
    (h : solidAfter tokens c = (t, k) :: R) : k = c + (triviaFrom tokens c).length ∧
      (tokens.drop c).take (k + 1 - c) = triviaFrom tokens c ++ [t] ∧ t.kind.isTrivia = false ∧
      (∃ us, tokens.drop k = t :: us) ∧ solidAfter tokens (k + 1) = R := by
  obtain ⟨trivia, us, hdrop, htrivia, ht, rfl, hR⟩ := eq_append_of_solidFrom h
  have htake : triviaFrom tokens c = trivia := by
    rw [triviaFrom, hdrop, List.takeWhile_append_of_pos htrivia, List.takeWhile_cons_of_neg (by simp [ht]),
      List.append_nil]
  have hafter : tokens.drop (c + trivia.length) = t :: us := by
    rw [← List.drop_drop, hdrop, List.drop_left]
  refine ⟨by rw [htake], ?_, ht, ⟨us, hafter⟩, ?_⟩
  · have hn : c + trivia.length + 1 - c = (trivia ++ [t]).length := by
      rw [List.length_append, List.length_singleton]
      omega
    have hsplit : tokens.drop c = (trivia ++ [t]) ++ us := by rw [hdrop, List.append_assoc]; rfl
    rw [hn, hsplit, List.take_left, htake]
  · rw [solidAfter, ← List.drop_drop, hafter, List.drop_one, List.tail_cons, hR]

/-- Behind trees that were grown. -/
theorem Draft.offset_grow (d : Draft) (c : Nat) :
    offset tokens c + Tree.sizeOfList (d.grow tokens c).1 = offset tokens (d.grow tokens c).2 :=
  offset_add_sizeOfList (d.leaves_grow c)

theorem Draft.offset_growList (ds : List Draft) (c : Nat) :
    offset tokens c + Tree.sizeOfList (Draft.growList tokens c ds).1 =
      offset tokens (Draft.growList tokens c ds).2 :=
  offset_add_sizeOfList (Draft.leaves_growList ds c)

theorem Branch.offset_grow (b : Branch) (c : Nat) :
    offset tokens c + (b.grow tokens c).1.size = offset tokens (b.grow tokens c).2 := by
  have hleaves : Tree.leavesOfList [(b.grow tokens c).1] ++
      (tokens.drop (b.grow tokens c).2).map Token.leaf = (tokens.drop c).map Token.leaf := by
    rw [Tree.leavesOfList, Tree.leavesOfList, List.append_nil]
    exact b.leaves_grow c
  simpa [Tree.sizeOfList] using offset_add_sizeOfList hleaves

end LuaTree
