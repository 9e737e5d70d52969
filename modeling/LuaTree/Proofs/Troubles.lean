import Mathlib.Data.List.DropRight
import Mathlib.Data.List.Forall2
import Mathlib.Data.List.TakeWhile
import LuaTree.Proofs.Placing

/-!
# Proofs/Troubles — what could not be read, in drafts and in trees

Garbage and Error nodes hold what could not be read.  `Draft.troublesOfList` lists those of a record in the
order in which they were opened; `Draft.troubles_growList` finds them, in this order, among the nodes of the
tree, where the tokens say they are.
-/

namespace LuaTree

/-! ## Nodes of a row of trees -/

namespace Located

theorem nodesOfRow_append (n : Nat) (ts us : List Tree) :
    nodesOfRow n (ts ++ us) = nodesOfRow n ts ++ nodesOfRow (n + Tree.sizeOfList ts) us := by
  induction ts generalizing n with
  | nil => rfl
  | cons t ts ih =>
    rw [List.cons_append, nodesOfRow, nodesOfRow, ih, Tree.sizeOfList, List.append_assoc, Nat.add_assoc]

@[simp] theorem nodesOfRow_map_tree (n : Nat) (ts : List Token) : nodesOfRow n (ts.map Token.tree) = [] := by
  induction ts generalizing n with
  | nil => rfl
  | cons t ts ih => exact ih _

/-- Whether a node holds what could not be read. -/
def isTrouble (l : Located) : Bool := l.kind = .garbage || l.kind = .error

end Located

/-! ## Troubles of drafts -/

/-- A node of a record that holds what could not be read. -/
inductive Trouble where
  | garbage
  /-- An Error node, with the tokens that are no trivia behind it. -/
  | error (inside : List Draft) (behind : List (Token × Nat))

/-- A node as a trouble, if it is one. -/
def Trouble.ofNode (behind : List (Token × Nat)) (k : Kind) (inside : List Draft) : List Trouble :=
  if k = .garbage then [.garbage] else if k = .error then [.error inside behind] else []

mutual

/-- The troubles of a branch with some tokens behind it, in the order in which they were opened. -/
def Branch.troubles (behind : List (Token × Nat)) : Branch → List Trouble
  | .node k ds => Trouble.ofNode behind k ds ++ Draft.troublesOfList behind ds
  | .wrap b k ds => Trouble.ofNode behind k (.wrapping b :: ds) ++
      (b.troubles (Draft.leavesOfList ds ++ behind) ++ Draft.troublesOfList behind ds)

/-- The troubles of a draft. -/
def Draft.troubles (behind : List (Token × Nat)) : Draft → List Trouble
  | .blank | .leaf .. => []
  | .grown b | .wrapping b => b.troubles behind

/-- The troubles of drafts that stand one after the other. -/
def Draft.troublesOfList (behind : List (Token × Nat)) : List Draft → List Trouble
  | [] => []
  | d :: ds => d.troubles (Draft.leavesOfList ds ++ behind) ++ Draft.troublesOfList behind ds

end

namespace Draft

theorem troublesOfList_append (R : List (Token × Nat)) (ds es : List Draft) :
    troublesOfList R (ds ++ es) = troublesOfList (leavesOfList es ++ R) ds ++ troublesOfList R es := by
  induction ds with
  | nil => rfl
  | cons d ds ih =>
    rw [List.cons_append, troublesOfList, troublesOfList, ih, leavesOfList_append, List.append_assoc,
      List.append_assoc]

/-- A node that is closed is a trouble if it is garbage, in front of those inside. -/
theorem troubles_close {d : Draft} {k : Kind} (hd : d.Waits) (hk : k ≠ .error) (R : List (Token × Nat))
    (ds : List Draft) : troublesOfList R [.grown (d.close k ds)] =
      (if k = .garbage then [.garbage] else []) ++ troublesOfList R (d :: ds) := by
  cases d with
  | blank | wrapping => simp [troublesOfList, troubles, close, Branch.troubles, Trouble.ofNode, hk, leavesOfList]
  | leaf | grown => exact absurd hd id

@[simp] theorem troublesOfList_row (R ls : List (Token × Nat)) : troublesOfList R (row ls) = [] := by
  induction ls with
  | nil => rfl
  | cons l ls ih => exact ih

end Draft

/-! ## Troubles of trees -/

section Growth

variable {tokens : List Token}

/-- **The node of the tree that a trouble became.** -/
def Trouble.Shown (tokens : List Token) (l : Located) : Trouble → Prop
  | .garbage => l.kind = .garbage
  | .error ds R => ∃ c, l = ⟨offset tokens c, .node .error (Draft.growList tokens c ds).1⟩ ∧
      solidAfter tokens c = Draft.leavesOfList ds ++ R ∧ triviaFrom tokens c = []

/-- Behind the trivia there is no trivia. -/
theorem triviaFrom_triviaFrom (c : Nat) : triviaFrom tokens (c + (triviaFrom tokens c).length) = [] := by
  have hdrop : (tokens.drop c).drop (triviaFrom tokens c).length =
      (tokens.drop c).dropWhile (·.kind.isTrivia) := by
    conv => lhs; rw [← List.takeWhile_append_dropWhile (p := (·.kind.isTrivia)) (l := tokens.drop c)]
    exact List.drop_left
  rw [triviaFrom, ← List.drop_drop, hdrop, List.takeWhile_eq_nil_iff]
  exact List.dropWhile_get_zero_not (fun t : Token => t.kind.isTrivia) _

theorem Trouble.shown_ofNode {k : Kind} {ds : List Draft} {c : Nat} {R : List (Token × Nat)}
    (hsolid : solidAfter tokens c = Draft.leavesOfList ds ++ R) (htrivia : triviaFrom tokens c = []) :
    List.Forall₂ (Trouble.Shown tokens)
      ([⟨offset tokens c, .node k (Draft.growList tokens c ds).1⟩].filter Located.isTrouble)
      (Trouble.ofNode R k ds) := by
  rw [Trouble.ofNode]
  split
  · rename_i hk
    subst hk
    exact .cons rfl .nil
  split
  · rename_i hk
    subst hk
    exact .cons ⟨c, rfl, hsolid, htrivia⟩ .nil
  · rename_i h₁ h₂
    have htrouble : Located.isTrouble ⟨offset tokens c, .node k (Draft.growList tokens c ds).1⟩ = false := by
      simp [Located.isTrouble, Located.kind, Tree.kind, h₁, h₂]
    rw [List.filter_cons_of_neg (by simp [htrouble])]
    exact .nil

mutual

theorem Branch.troubles_grow : ∀ (b : Branch) (c : Nat) {R : List (Token × Nat)},
    solidAfter tokens c = b.leaves ++ R → triviaFrom tokens c = [] →
    List.Forall₂ (Trouble.Shown tokens)
      ((Located.nodesFrom (offset tokens c) (b.grow tokens c).1).filter Located.isTrouble) (b.troubles R)
  | .node k ds, c, R, h, htrivia => by
    rw [Branch.grow, Located.nodesFrom, ← List.singleton_append, List.filter_append, Branch.troubles]
    exact List.rel_append (Trouble.shown_ofNode h htrivia) (Draft.troubles_growList ds c h)
  | .wrap b k ds, c, R, h, htrivia => by
    have hb : solidAfter tokens c = b.leaves ++ (Draft.leavesOfList ds ++ R) := by
      rw [h, Branch.leaves, List.append_assoc]
    have hchildren : (b.grow tokens c).1 :: (Draft.growList tokens (b.grow tokens c).2 ds).1 =
        (Draft.growList tokens c (.wrapping b :: ds)).1 := by
      simp [Draft.growList, Draft.grow, htrivia]
    rw [Branch.grow, Located.nodesFrom, ← List.singleton_append, List.filter_append, Branch.troubles,
      Located.nodesOfRow, List.filter_append, b.offset_grow]
    refine List.rel_append ?_ (List.rel_append (b.troubles_grow c hb htrivia)
      (Draft.troubles_growList ds _ (b.withoutTrivia_grow c hb).2))
    rw [hchildren]
    exact Trouble.shown_ofNode h htrivia

theorem Draft.troubles_grow : ∀ (d : Draft) (c : Nat) {R : List (Token × Nat)},
    solidAfter tokens c = d.leaves ++ R →
    List.Forall₂ (Trouble.Shown tokens)
      ((Located.nodesOfRow (offset tokens c) (d.grow tokens c).1).filter Located.isTrouble) (d.troubles R)
  | .blank, _, _, _ => .nil
  | .leaf .., _, _, _ => by
    rw [Draft.grow, Located.nodesOfRow_map_tree]
    exact .nil
  | .grown b, c, R, h | .wrapping b, c, R, h => by
    rw [← solidAfter_triviaFrom] at h
    have htroubles := b.troubles_grow _ h (triviaFrom_triviaFrom c)
    rw [Draft.grow, Located.nodesOfRow_append, Located.nodesOfRow_map_tree, offset_add_sizeOfTrivia]
    simpa [Located.nodesOfRow, Draft.troubles] using htroubles

/-- **The troubles of a record are those of its tree**, in the same order. -/
theorem Draft.troubles_growList : ∀ (ds : List Draft) (c : Nat) {R : List (Token × Nat)},
    solidAfter tokens c = Draft.leavesOfList ds ++ R →
    List.Forall₂ (Trouble.Shown tokens)
      ((Located.nodesOfRow (offset tokens c) (Draft.growList tokens c ds).1).filter Located.isTrouble)
      (Draft.troublesOfList R ds)
  | [], _, _, _ => .nil
  | d :: ds, c, R, h => by
    rw [Draft.leavesOfList, List.append_assoc] at h
    rw [Draft.growList, Located.nodesOfRow_append, d.offset_grow, List.filter_append, Draft.troublesOfList]
    exact List.rel_append (d.troubles_grow c h) (Draft.troubles_growList ds _ (d.withoutTrivia_grow c h).2)

end

/-! ## The node around the rest of the tokens -/

theorem rdropWhile_append_cons {α : Type} {p : α → Bool} {a : α} (ha : ¬ p a) (xs ys : List α) :
    (xs ++ a :: ys).rdropWhile p = xs ++ a :: ys.rdropWhile p := by
  induction ys using List.reverseRecOn with
  | nil => rw [List.rdropWhile_concat_neg _ _ _ ha, List.rdropWhile_nil]
  | append_singleton ys y ih =>
    rw [← List.cons_append, ← List.append_assoc, List.rdropWhile_concat, List.rdropWhile_concat]
    split
    · exact ih
    · simp

/-- Leaves of all the tokens that are no trivia take along the trivia between them. -/
theorem Draft.growList_row {ls : List (Token × Nat)} : ∀ {c : Nat}, solidAfter tokens c = ls →
    (Draft.growList tokens c (Draft.row ls)).1 =
      ((tokens.drop c).rdropWhile (·.kind.isTrivia)).map Token.tree := by
  induction ls with
  | nil =>
    intro c h
    rw [List.rdropWhile_eq_nil_iff.2 fun t ht => isTrivia_of_solidFrom_eq_nil h t ht]
    rfl
  | cons l ls ih =>
    intro c h
    obtain ⟨t, k⟩ := l
    obtain ⟨hk, htake, ht, -, hR⟩ := take_of_solidAfter h
    have hnext : c + (k + 1 - c) = k + 1 := by omega
    have hdrop : tokens.drop c = triviaFrom tokens c ++ t :: tokens.drop (k + 1) := by
      conv => lhs; rw [← List.take_append_drop (k + 1 - c) (tokens.drop c), htake, List.drop_drop, hnext]
      rw [List.append_assoc]
      rfl
    change ((tokens.drop c).take (k + 1 - c)).map Token.tree ++
      (Draft.growList tokens (c + (k + 1 - c)) (Draft.row ls)).1 = _
    rw [htake, hnext, ih hR, hdrop, rdropWhile_append_cons (by simp [ht])]
    simp

end Growth

end LuaTree
