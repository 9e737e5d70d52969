import LuaTree.Tree

/-!
# Proofs/Tree — properties of every node, trees without trivia, and the tokens of a tree

`Tree.Everywhere P` says that `P` holds of the kind and the children of each node.
`Tree.withoutTrivia` drops the leaves that the grammar does not see, and `Tree.tokens` reads the leaves
as tokens with the offsets where they start.
-/

namespace LuaTree.Tree

/-! ## A property of every node -/

mutual

/-- `P` holds of the kind and the children of each node. -/
def Everywhere (P : Kind → List Tree → Prop) : Tree → Prop
  | leaf .. => True
  | node k cs => P k cs ∧ EverywhereInList P cs

/-- `P` holds of each node of trees that stand one after the other. -/
def EverywhereInList (P : Kind → List Tree → Prop) : List Tree → Prop
  | [] => True
  | t :: ts => t.Everywhere P ∧ EverywhereInList P ts

end

variable {P Q : Kind → List Tree → Prop}

theorem everywhereInList_iff {ts : List Tree} :
    EverywhereInList P ts ↔ ∀ t ∈ ts, t.Everywhere P := by
  induction ts with
  | nil => simp [EverywhereInList]
  | cons t ts ih => simp [EverywhereInList, ih]

theorem everywhere_node {k : Kind} {cs : List Tree} :
    (node k cs).Everywhere P ↔ P k cs ∧ ∀ t ∈ cs, t.Everywhere P := by
  rw [Everywhere, everywhereInList_iff]

@[simp] theorem everywhereInList_append {ts us : List Tree} :
    EverywhereInList P (ts ++ us) ↔ EverywhereInList P ts ∧ EverywhereInList P us := by
  simp only [everywhereInList_iff, List.mem_append, or_imp, forall_and]

mutual

theorem Everywhere.mono (h : ∀ k cs, P k cs → Q k cs) : ∀ t : Tree, t.Everywhere P → t.Everywhere Q
  | leaf .., _ => trivial
  | node k cs, ht => ⟨h k cs ht.1, EverywhereInList.mono h cs ht.2⟩

theorem EverywhereInList.mono (h : ∀ k cs, P k cs → Q k cs) :
    ∀ ts : List Tree, EverywhereInList P ts → EverywhereInList Q ts
  | [], _ => trivial
  | t :: ts, ht => ⟨Everywhere.mono h t ht.1, EverywhereInList.mono h ts ht.2⟩

end

mutual

instance decidableEverywhere [∀ k cs, Decidable (P k cs)] : ∀ t : Tree, Decidable (t.Everywhere P)
  | leaf .. => isTrue trivial
  | node k cs =>
    have : Decidable (EverywhereInList P cs) := decidableEverywhereInList cs
    inferInstanceAs (Decidable (P k cs ∧ EverywhereInList P cs))

instance decidableEverywhereInList [∀ k cs, Decidable (P k cs)] :
    ∀ ts : List Tree, Decidable (EverywhereInList P ts)
  | [] => isTrue trivial
  | t :: ts =>
    have : Decidable (t.Everywhere P) := decidableEverywhere t
    have : Decidable (EverywhereInList P ts) := decidableEverywhereInList ts
    inferInstanceAs (Decidable (t.Everywhere P ∧ EverywhereInList P ts))

end

mutual

/-- What holds of every node holds of every node below each of them. -/
theorem Everywhere.children : ∀ {t : Tree}, t.Everywhere P →
    t.Everywhere fun k cs => P k cs ∧ ∀ c ∈ cs, c.Everywhere P
  | leaf .., _ => trivial
  | node _ _, h => ⟨⟨h.1, everywhereInList_iff.1 h.2⟩, EverywhereInList.children h.2⟩

theorem EverywhereInList.children : ∀ {ts : List Tree}, EverywhereInList P ts →
    EverywhereInList (fun k cs => P k cs ∧ ∀ c ∈ cs, c.Everywhere P) ts
  | [], _ => trivial
  | _ :: _, h => ⟨Everywhere.children h.1, EverywhereInList.children h.2⟩

end

/-! ## Trees without trivia -/

/-- Whether a tree is a leaf that the grammar does not see. -/
def isTrivia : Tree → Bool
  | leaf k _ => k.isTrivia
  | node .. => false

mutual

/-- The tree without blanks, line breaks and comments. -/
def withoutTrivia : Tree → Tree
  | leaf k s => leaf k s
  | node k cs => node k (withoutTriviaInList cs)

/-- Trees that stand one after the other, without trivia. -/
def withoutTriviaInList : List Tree → List Tree
  | [] => []
  | t :: ts =>
    if t.isTrivia then withoutTriviaInList ts else t.withoutTrivia :: withoutTriviaInList ts

end

theorem kind_withoutTrivia (t : Tree) : t.withoutTrivia.kind = t.kind := by cases t <;> rfl

theorem isLeaf_withoutTrivia (t : Tree) : t.withoutTrivia.isLeaf = t.isLeaf := by cases t <;> rfl

@[simp] theorem withoutTriviaInList_append (ts us : List Tree) :
    withoutTriviaInList (ts ++ us) = withoutTriviaInList ts ++ withoutTriviaInList us := by
  induction ts with
  | nil => rfl
  | cons t ts ih =>
    simp only [List.cons_append, withoutTriviaInList, ih]
    split <;> rfl

/-! ## The tokens of a tree -/

mutual

/-- The leaves of a tree that starts at an offset, as tokens. -/
def tokensFrom (start : Nat) : Tree → List Token
  | leaf k s => [⟨k, start, s⟩]
  | node _ cs => tokensOfRow start cs

/-- The leaves of trees that stand one after the other, the first at an offset. -/
def tokensOfRow (start : Nat) : List Tree → List Token
  | [] => []
  | t :: ts => t.tokensFrom start ++ tokensOfRow (start + t.size) ts

end

/-- **The leaves of a tree as tokens**, each at the offset where the leaves before it end. -/
def tokens (t : Tree) : List Token := t.tokensFrom 0

end LuaTree.Tree
