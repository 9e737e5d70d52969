import LuaTree.Event
import LuaTree.Proofs.Tree

/-!
# Proofs/Draft — trees as the parser drafts them

While it reads, the parser has recorded some events and nothing else.  A **draft** is what these
events stand for: a leaf, a finished node, or the opening of a node that has not been given its kind
yet.  A finished node may be wrapped afterwards; its events then stay where they are, so a
**branch** remembers which of its children was there first.  `Branch.events` and `Draft.events` write
drafts down, link by link, as `Parser.complete` and `Parser.precede` do; `Draft.trees` reads them as
trees, and `Draft.leaves` gives the tokens with their numbers.
-/

namespace LuaTree

/-- A token as a tree. -/
def Token.tree (t : Token) : Tree := .leaf t.kind t.text

/-! ## Tokens with their numbers -/

/-- The tokens that are no trivia with their numbers, where the first token has the number `n`. -/
def solidFrom (n : Nat) : List Token → List (Token × Nat)
  | [] => []
  | t :: ts => if t.kind.isTrivia then solidFrom (n + 1) ts else (t, n) :: solidFrom (n + 1) ts

theorem solidFrom_of_trivia {trivia : List Token} (h : ∀ t ∈ trivia, t.kind.isTrivia) (n : Nat)
    (ts : List Token) : solidFrom n (trivia ++ ts) = solidFrom (n + trivia.length) ts := by
  induction trivia generalizing n with
  | nil => rfl
  | cons t trivia ih =>
    rw [List.cons_append, solidFrom, if_pos (h t List.mem_cons_self),
      ih (fun u hu => h u (List.mem_cons_of_mem _ hu)), List.length_cons, Nat.add_assoc,
      Nat.add_comm 1]

/-- The first token that is no trivia stands behind trivia only. -/
theorem eq_append_of_solidFrom {t : Token} {i : Nat} {R : List (Token × Nat)} :
    ∀ {n : Nat} {ts : List Token}, solidFrom n ts = (t, i) :: R →
      ∃ trivia us, ts = trivia ++ t :: us ∧ (∀ u ∈ trivia, u.kind.isTrivia) ∧
        t.kind.isTrivia = false ∧ i = n + trivia.length ∧ solidFrom (i + 1) us = R
  | n, [], h => by simp [solidFrom] at h
  | n, u :: us, h => by
    rw [solidFrom] at h
    split at h
    · rename_i hu
      obtain ⟨trivia, vs, rfl, htrivia, ht, rfl, hR⟩ := eq_append_of_solidFrom h
      exact ⟨u :: trivia, vs, rfl, List.forall_mem_cons.2 ⟨hu, htrivia⟩, ht,
        by simp only [List.length_cons]; omega, hR⟩
    · rename_i hu
      obtain ⟨⟨rfl, rfl⟩, rfl⟩ : (u = t ∧ n = i) ∧ _ = R := by simpa using h
      exact ⟨[], us, rfl, by simp, by simpa using hu, rfl, rfl⟩

theorem isTrivia_of_solidFrom_eq_nil : ∀ {n : Nat} {ts : List Token}, solidFrom n ts = [] →
    ∀ t ∈ ts, t.kind.isTrivia
  | _, [], _ => by simp
  | _, t :: ts, h => by
    rw [solidFrom] at h
    split at h
    · rename_i ht
      exact List.forall_mem_cons.2 ⟨ht, isTrivia_of_solidFrom_eq_nil h⟩
    · simp at h

theorem lt_of_mem_solidFrom {l : Token × Nat} : ∀ {n : Nat} {ts : List Token},
    l ∈ solidFrom n ts → n ≤ l.2 ∧ l.2 < n + ts.length
  | n, [], h => by simp [solidFrom] at h
  | n, t :: ts, h => by
    have hrest : l ∈ solidFrom (n + 1) ts → n ≤ l.2 ∧ l.2 < n + (t :: ts).length := fun h => by
      have := lt_of_mem_solidFrom h
      simp only [List.length_cons]
      omega
    rw [solidFrom] at h
    split at h
    · exact hrest h
    · rcases List.mem_cons.1 h with rfl | h
      · simp
      · exact hrest h

/-! ## Drafts -/

mutual

/-- One item of a record. -/
inductive Draft where
  /-- An opening without a node: one that waits for its kind, or that was given up. -/
  | blank
  /-- A token with its number. -/
  | leaf (index : Nat) (token : Token)
  /-- A finished node. -/
  | grown (b : Branch)
  /-- A finished node with the opening of a node around it. -/
  | wrapping (b : Branch)

/-- A finished node. -/
inductive Branch where
  /-- Opened before anything inside of it was read. -/
  | node (kind : Kind) (inside : List Draft)
  /-- Opened around `first`, when that was finished. -/
  | wrap (first : Branch) (kind : Kind) (inside : List Draft)

end

mutual

/-- The events of a branch whose outermost opening holds `link`. -/
def Branch.events (link : Option Nat) : Branch → List Event
  | .node k ds => .opening k link :: (Draft.eventsOfList ds ++ [.closing])
  | .wrap b k ds =>
    b.events (some b.width) ++ .opening k link :: (Draft.eventsOfList ds ++ [.closing])

/-- The number of events from the outermost opening on. -/
def Branch.width : Branch → Nat
  | .node _ ds => (Draft.eventsOfList ds).length + 2
  | .wrap _ _ ds => (Draft.eventsOfList ds).length + 2

/-- The events of a draft. -/
def Draft.events : Draft → List Event
  | .blank => [.blank]
  | .leaf i _ => [.token i]
  | .grown b => b.events none
  | .wrapping b => b.events (some b.width) ++ [.blank]

/-- The events of drafts that stand one after the other. -/
def Draft.eventsOfList : List Draft → List Event
  | [] => []
  | d :: ds => d.events ++ Draft.eventsOfList ds

end

mutual

/-- The tree of a branch, without trivia. -/
def Branch.tree : Branch → Tree
  | .node k ds => .node k (Draft.treesOfList ds)
  | .wrap b k ds => .node k (b.tree :: Draft.treesOfList ds)

/-- The tree of a draft, where it has one. -/
def Draft.trees : Draft → List Tree
  | .blank => []
  | .leaf _ t => [.leaf t.kind t.text]
  | .grown b => [b.tree]
  | .wrapping b => [b.tree]

/-- The trees of drafts that stand one after the other. -/
def Draft.treesOfList : List Draft → List Tree
  | [] => []
  | d :: ds => d.trees ++ Draft.treesOfList ds

end

mutual

/-- The tokens of a branch with their numbers. -/
def Branch.leaves : Branch → List (Token × Nat)
  | .node _ ds => Draft.leavesOfList ds
  | .wrap b _ ds => b.leaves ++ Draft.leavesOfList ds

/-- The tokens of a draft with their numbers. -/
def Draft.leaves : Draft → List (Token × Nat)
  | .blank => []
  | .leaf i t => [(t, i)]
  | .grown b => b.leaves
  | .wrapping b => b.leaves

/-- The tokens of drafts that stand one after the other. -/
def Draft.leavesOfList : List Draft → List (Token × Nat)
  | [] => []
  | d :: ds => d.leaves ++ Draft.leavesOfList ds

end

mutual

/-- **Nothing is loose**: every node has a kind of its own, and an opening that is linked to became that of a node. -/
def Branch.Tied : Branch → Prop
  | .node k ds => k ≠ .tombstone ∧ Draft.TiedInList ds
  | .wrap b k ds => k ≠ .tombstone ∧ b.Tied ∧ Draft.TiedInList ds

/-- Nothing in a finished draft is loose. -/
def Draft.Tied : Draft → Prop
  | .blank => True
  | .leaf _ _ => True
  | .grown b => b.Tied
  | .wrapping _ => False

/-- Nothing is loose in drafts that stand one after the other. -/
def Draft.TiedInList : List Draft → Prop
  | [] => True
  | d :: ds => d.Tied ∧ Draft.TiedInList ds

end

/-- The kind of a branch is that of its outermost node. -/
def Branch.kind : Branch → Kind
  | .node k _ => k
  | .wrap _ k _ => k

/-- The outermost opening stands as far from the end as the branch is wide. -/
theorem Branch.exists_events_eq (b : Branch) : ∃ A B, B.length + 1 = b.width ∧
    ∀ link, b.events link = A ++ .opening b.kind link :: B := by
  cases b with
  | node k ds => exact ⟨[], _, by simp [Branch.width], fun _ => rfl⟩
  | wrap b k ds => exact ⟨b.events (some b.width), _, by simp [Branch.width], fun _ => rfl⟩

@[simp] theorem Branch.kind_tree (b : Branch) : b.tree.kind = b.kind := by
  cases b <;> rfl

theorem Branch.isLeaf_tree (b : Branch) : b.tree.isLeaf = false := by cases b <;> rfl

namespace Draft

@[simp] theorem eventsOfList_append (ds es : List Draft) :
    eventsOfList (ds ++ es) = eventsOfList ds ++ eventsOfList es := by
  induction ds with
  | nil => rfl
  | cons d ds ih => simp [eventsOfList, ih]

@[simp] theorem treesOfList_append (ds es : List Draft) :
    treesOfList (ds ++ es) = treesOfList ds ++ treesOfList es := by
  induction ds with
  | nil => rfl
  | cons d ds ih => simp [treesOfList, ih]

@[simp] theorem leavesOfList_append (ds es : List Draft) :
    leavesOfList (ds ++ es) = leavesOfList ds ++ leavesOfList es := by
  induction ds with
  | nil => rfl
  | cons d ds ih => simp [leavesOfList, ih]

@[simp] theorem tiedInList_append {ds es : List Draft} :
    TiedInList (ds ++ es) ↔ TiedInList ds ∧ TiedInList es := by
  induction ds with
  | nil => simp [TiedInList]
  | cons d ds ih => simp [TiedInList, ih, and_assoc]

/-- Tokens with their numbers as leaves. -/
def row (ls : List (Token × Nat)) : List Draft := ls.map fun l => .leaf l.2 l.1

@[simp] theorem eventsOfList_row (ls : List (Token × Nat)) :
    eventsOfList (row ls) = ls.map fun l => .token l.2 := by
  induction ls with
  | nil => rfl
  | cons l ls ih => exact congrArg _ ih

@[simp] theorem treesOfList_row (ls : List (Token × Nat)) :
    treesOfList (row ls) = ls.map fun l => l.1.tree := by
  induction ls with
  | nil => rfl
  | cons l ls ih => exact congrArg _ ih

theorem tiedInList_row (ls : List (Token × Nat)) : TiedInList (row ls) := by
  induction ls with
  | nil => trivial
  | cons l ls ih => exact ⟨trivial, ih⟩

@[simp] theorem leavesOfList_row (ls : List (Token × Nat)) : leavesOfList (row ls) = ls := by
  induction ls with
  | nil => rfl
  | cons l ls ih => exact congrArg _ ih

end Draft

/-! ## Reading the leaves off the trees -/

/-- A token as a leaf of a tree. -/
def Token.leaf (t : Token) : Kind × String := (t.kind, t.text)

@[simp] theorem Tree.leavesOfList_append (ts us : List Tree) :
    leavesOfList (ts ++ us) = leavesOfList ts ++ leavesOfList us := by
  induction ts with
  | nil => rfl
  | cons t ts ih => simp [leavesOfList, ih]

mutual

theorem Branch.leaves_tree : ∀ b : Branch, b.tree.leaves = b.leaves.map (·.1.leaf)
  | .node _ ds => Draft.leaves_treesOfList ds
  | .wrap b _ ds => by
    simp [Branch.tree, Tree.leaves, Tree.leavesOfList, Branch.leaves, b.leaves_tree,
      Draft.leaves_treesOfList ds]

theorem Draft.leaves_trees : ∀ d : Draft, Tree.leavesOfList d.trees = d.leaves.map (·.1.leaf)
  | .blank => rfl
  | .leaf _ _ => rfl
  | .grown b => by simp [Draft.trees, Tree.leavesOfList, Draft.leaves, b.leaves_tree]
  | .wrapping b => by simp [Draft.trees, Tree.leavesOfList, Draft.leaves, b.leaves_tree]

/-- **The leaves of the trees are the tokens of the drafts.** -/
theorem Draft.leaves_treesOfList : ∀ ds : List Draft,
    Tree.leavesOfList (Draft.treesOfList ds) = (Draft.leavesOfList ds).map (·.1.leaf)
  | [] => rfl
  | d :: ds => by
    simp [Draft.treesOfList, Draft.leavesOfList, d.leaves_trees, Draft.leaves_treesOfList ds]

end

/-! ## Openings that wait for their kind

`Parser.start` leaves a blank behind and `Parser.precede` a wrapping; `Parser.complete` turns either
into a finished node, around all that was read since. -/

namespace Draft

/-- What stands in front of the blank of an opening that waits. -/
def before : Draft → List Event
  | .wrapping b => b.events (some b.width)
  | _ => []

/-- Whether a draft ends with an opening that waits for its kind. -/
def Waits : Draft → Prop
  | .blank | .wrapping _ => True
  | _ => False

/-- The node that a waiting opening becomes, when `ds` was read since. -/
def close : Draft → Kind → List Draft → Branch
  | .wrapping b, k, ds => .wrap b k ds
  | _, k, ds => .node k ds

theorem events_of_waits {d : Draft} (h : d.Waits) : d.events = d.before ++ [.blank] := by
  cases d <;> simp [Waits] at h <;> rfl

theorem events_close {d : Draft} (k : Kind) (ds : List Draft) (link : Option Nat) :
    (d.close k ds).events link = d.before ++ .opening k link :: (eventsOfList ds ++ [.closing]) := by
  cases d <;> rfl

@[simp] theorem kind_close (d : Draft) (k : Kind) (ds : List Draft) : (d.close k ds).kind = k := by
  cases d <;> rfl

@[simp] theorem width_close (d : Draft) (k : Kind) (ds : List Draft) :
    (d.close k ds).width = (eventsOfList ds).length + 2 := by
  cases d <;> rfl

theorem tree_close {d : Draft} (h : d.Waits) (k : Kind) (ds : List Draft) :
    (d.close k ds).tree = .node k (treesOfList (d :: ds)) := by
  cases d <;> simp [Waits] at h <;> rfl

theorem leaves_close {d : Draft} (h : d.Waits) (k : Kind) (ds : List Draft) :
    (d.close k ds).leaves = leavesOfList (d :: ds) := by
  cases d <;> simp [Waits] at h <;> rfl

/-- Drafts behind an opening that waits, if there is one: nothing is loose but a link to that opening. -/
def TiedBehind (ds F : List Draft) : Prop :=
  (∀ b, .wrapping b ∈ ds → b.Tied) ∧ TiedInList F

theorem TiedBehind.append {ds F F' : List Draft} (h : TiedBehind ds F) (h' : TiedInList F') :
    TiedBehind ds (F ++ F') :=
  ⟨h.1, tiedInList_append.2 ⟨h.2, h'⟩⟩

theorem tiedBehind_nil {F : List Draft} (h : TiedInList F) : TiedBehind [] F := ⟨nofun, h⟩

theorem tiedBehind_blank {F : List Draft} (h : TiedInList F) : TiedBehind [.blank] F := ⟨by simp, h⟩

theorem tiedBehind_wrapping {b : Branch} (h : b.Tied) : TiedBehind [.wrapping b] [] :=
  ⟨fun c hc => by simp at hc; exact hc ▸ h, trivial⟩

theorem tied_close {d : Draft} {k : Kind} {F : List Draft} (hk : k ≠ .tombstone) (h : TiedBehind [d] F) :
    (d.close k F).Tied := by
  cases d with
  | wrapping b => exact ⟨hk, h.1 b (List.mem_singleton_self _), h.2⟩
  | blank | leaf | grown => exact ⟨hk, h.2⟩

theorem eq_nil_of_eventsOfList {ds : List Draft} (h : eventsOfList ds = []) : ds = [] := by
  cases ds with
  | nil => rfl
  | cons d ds =>
    rw [eventsOfList, List.append_eq_nil_iff] at h
    obtain ⟨h, -⟩ := h
    rcases d with _ | _ | ⟨_ | _⟩ | ⟨_ | _⟩ <;> simp [events, Branch.events] at h

end Draft

end LuaTree
