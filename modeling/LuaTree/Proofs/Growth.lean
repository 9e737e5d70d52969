import LuaTree.Proofs.Replay

/-!
# Proofs/Growth — what the tree of a record holds

`Draft.grow` puts every token into the tree once and in order, whatever the drafts are
(`Draft.leaves_growList`).  If the leaves of the drafts are the tokens that are no trivia, then without
trivia the tree is that of the drafts (`Draft.withoutTrivia_growList`).
-/

namespace LuaTree

variable {tokens : List Token}

theorem Tree.leavesOfList_map_tree (ts : List Token) :
    Tree.leavesOfList (ts.map Token.tree) = ts.map Token.leaf := by
  induction ts with
  | nil => rfl
  | cons t ts ih => simp [Tree.leavesOfList, ih, Token.tree, Tree.leaves, Token.leaf]

/-! ## Every token once -/

theorem map_leaf_drop_add (c n : Nat) :
    ((tokens.drop c).take n).map Token.leaf ++ (tokens.drop (c + n)).map Token.leaf =
      (tokens.drop c).map Token.leaf := by
  rw [← List.map_append, ← List.drop_drop, List.take_append_drop]

mutual

theorem Branch.leaves_grow : ∀ (b : Branch) (c : Nat),
    (b.grow tokens c).1.leaves ++ (tokens.drop (b.grow tokens c).2).map Token.leaf =
      (tokens.drop c).map Token.leaf
  | .node _ ds, c => Draft.leaves_growList ds c
  | .wrap b _ ds, c => by
    rw [Branch.grow, Tree.leaves, Tree.leavesOfList, List.append_assoc, Draft.leaves_growList ds,
      b.leaves_grow c]

theorem Draft.leaves_grow : ∀ (d : Draft) (c : Nat),
    Tree.leavesOfList (d.grow tokens c).1 ++ (tokens.drop (d.grow tokens c).2).map Token.leaf =
      (tokens.drop c).map Token.leaf
  | .blank, _ => rfl
  | .leaf i _, c => by rw [Draft.grow, Tree.leavesOfList_map_tree, map_leaf_drop_add]
  | .grown b, c | .wrapping b, c => by
    rw [Draft.grow, Tree.leavesOfList_append, Tree.leavesOfList_map_tree, Tree.leavesOfList,
      Tree.leavesOfList, List.append_nil, List.append_assoc, b.leaves_grow, ← Builder.take_triviaFrom,
      List.length_take_of_le, map_leaf_drop_add]
    exact (List.takeWhile_prefix _).length_le

/-- **Every token stands in the tree once, in order.** -/
theorem Draft.leaves_growList : ∀ (ds : List Draft) (c : Nat),
    Tree.leavesOfList (Draft.growList tokens c ds).1 ++
        (tokens.drop (Draft.growList tokens c ds).2).map Token.leaf =
      (tokens.drop c).map Token.leaf
  | [], _ => rfl
  | d :: ds, c => by
    rw [Draft.growList, Tree.leavesOfList_append, List.append_assoc, Draft.leaves_growList ds,
      d.leaves_grow c]

end

/-! ## The tree without trivia -/

/-- The tokens from a number on that are no trivia, with their numbers. -/
abbrev solidAfter (tokens : List Token) (c : Nat) : List (Token × Nat) :=
  solidFrom c (tokens.drop c)

theorem Tree.withoutTriviaInList_trivia {ts : List Token} (h : ∀ t ∈ ts, t.kind.isTrivia) :
    Tree.withoutTriviaInList (ts.map Token.tree) = [] := by
  induction ts with
  | nil => rfl
  | cons t ts ih =>
    have ht : t.tree.isTrivia = true := h t List.mem_cons_self
    rw [List.map_cons, Tree.withoutTriviaInList, ih fun u hu => h u (List.mem_cons_of_mem _ hu),
      if_pos ht]

theorem isTrivia_of_mem_triviaFrom {t : Token} {c : Nat} (h : t ∈ triviaFrom tokens c) :
    t.kind.isTrivia :=
  List.all_eq_true.1 List.all_takeWhile t h

theorem solidAfter_triviaFrom (c : Nat) :
    solidAfter tokens (c + (triviaFrom tokens c).length) = solidAfter tokens c := by
  conv =>
    rhs
    rw [solidAfter, ← List.take_append_drop (triviaFrom tokens c).length (tokens.drop c)]
  rw [Builder.take_triviaFrom, solidFrom_of_trivia fun t ht => isTrivia_of_mem_triviaFrom ht,
    List.drop_drop]

mutual

theorem Branch.withoutTrivia_grow : ∀ (b : Branch) (c : Nat) {R : List (Token × Nat)},
    solidAfter tokens c = b.leaves ++ R →
    (b.grow tokens c).1.withoutTrivia = b.tree ∧ solidAfter tokens (b.grow tokens c).2 = R
  | .node k ds, c, R, h => by
    obtain ⟨h₁, h₂⟩ := Draft.withoutTrivia_growList ds c h
    exact ⟨by rw [Branch.grow, Tree.withoutTrivia, h₁, Branch.tree], h₂⟩
  | .wrap b k ds, c, R, h => by
    rw [Branch.leaves, List.append_assoc] at h
    obtain ⟨h₁, h₂⟩ := b.withoutTrivia_grow c h
    obtain ⟨h₃, h₄⟩ := Draft.withoutTrivia_growList ds _ h₂
    refine ⟨?_, h₄⟩
    have hnode : (b.grow tokens c).1.isTrivia = false := by cases b <;> rfl
    rw [Branch.grow, Tree.withoutTrivia, Tree.withoutTriviaInList, hnode, h₁, h₃, Branch.tree]
    rfl

theorem Draft.withoutTrivia_grow : ∀ (d : Draft) (c : Nat) {R : List (Token × Nat)},
    solidAfter tokens c = d.leaves ++ R →
    Tree.withoutTriviaInList (d.grow tokens c).1 = d.trees ∧
      solidAfter tokens (d.grow tokens c).2 = R
  | .blank, c, R, h => ⟨rfl, h⟩
  | .leaf i t, c, R, h => by
    obtain ⟨trivia, us, hdrop, htrivia, ht, rfl, hR⟩ := eq_append_of_solidFrom h
    have hn : c + trivia.length + 1 - c = (trivia ++ [t]).length := by
      rw [List.length_append, List.length_singleton]
      omega
    have hsplit : tokens.drop c = (trivia ++ [t]) ++ us := by rw [hdrop, List.append_assoc]; rfl
    have htake : (tokens.drop c).take (c + trivia.length + 1 - c) = trivia ++ [t] := by
      rw [hn, hsplit, List.take_left]
    have hafter : tokens.drop (c + (c + trivia.length + 1 - c)) = us := by
      rw [hn, ← List.drop_drop, hsplit, List.drop_left]
    constructor
    · rw [Draft.grow, htake, List.map_append, Tree.withoutTriviaInList_append,
        Tree.withoutTriviaInList_trivia htrivia]
      simp [Tree.withoutTriviaInList, Token.tree, Tree.isTrivia, ht, Tree.withoutTrivia, Draft.trees]
    · have hnext : c + (c + trivia.length + 1 - c) = c + trivia.length + 1 := by omega
      rw [Draft.grow, solidAfter, hafter, hnext, hR]
      rfl
  | .grown b, c, R, h | .wrapping b, c, R, h => by
    rw [← solidAfter_triviaFrom] at h
    obtain ⟨h₁, h₂⟩ := b.withoutTrivia_grow _ h
    refine ⟨?_, h₂⟩
    have hnode : (b.grow tokens (c + (triviaFrom tokens c).length)).1.isTrivia = false := by
      cases b <;> rfl
    rw [Draft.grow, Tree.withoutTriviaInList_append,
      Tree.withoutTriviaInList_trivia fun t ht => isTrivia_of_mem_triviaFrom ht,
      Tree.withoutTriviaInList, hnode, h₁]
    rfl

/-- **Without trivia the tree of a record is that of its drafts**, if their leaves are the tokens that
are no trivia. -/
theorem Draft.withoutTrivia_growList : ∀ (ds : List Draft) (c : Nat) {R : List (Token × Nat)},
    solidAfter tokens c = Draft.leavesOfList ds ++ R →
    Tree.withoutTriviaInList (Draft.growList tokens c ds).1 = Draft.treesOfList ds ∧
      solidAfter tokens (Draft.growList tokens c ds).2 = R
  | [], c, R, h => ⟨rfl, h⟩
  | d :: ds, c, R, h => by
    rw [Draft.leavesOfList, List.append_assoc] at h
    obtain ⟨h₁, h₂⟩ := d.withoutTrivia_grow c h
    obtain ⟨h₃, h₄⟩ := Draft.withoutTrivia_growList ds _ h₂
    refine ⟨?_, h₄⟩
    rw [Draft.growList, Tree.withoutTriviaInList_append, h₁, h₃, Draft.treesOfList]

end

end LuaTree
