import LuaTree.Proofs.Draft
import LuaTree.Proofs.Grammar

/-!
# Proofs/Need — how deep a source nests, read off its tree

Blocks and some of the expressions are entered one inside the other.  `Tree.need` counts how many of
them lie at most on one path from the root.  Left operands, right operands of operators that group to the
left, callees and the bases of indices are not entered, so a chain of them, however long, needs only what
its neediest part does.
-/

namespace LuaTree

open Grammar

namespace Tree

/-- The nodes in which each expression is entered: lists of expressions, conditions and bounds,
parentheses, fields, and what a unary operator stands in front of. -/
def enteringKinds : List Kind :=
  [.expressionList, .whileStatement, .repeatStatement, .ifStatement, .elseifBranch, .simpleForStatement,
    .parenExpression, .tableField, .unaryExpression]

/-- Whether a tree is an operator that groups to the right, `..` or `^`. -/
def groupsRight : Tree → Bool
  | node .binaryOperator os => os.any (·.kind ∈ [.dotDot, .caret])
  | _ => false

/-- Whether an expression is entered that comes first in a node. -/
def entersFirst (k : Kind) : Bool := k ∈ enteringKinds

/-- Whether an expression is entered that comes later: also the key of an index and the right operand of
an operator that groups to the right. -/
def entersLater (k : Kind) (cs : List Tree) : Bool :=
  entersFirst k || k = .indexExpression || k = .binaryExpression && cs.any groupsRight

/-- Whether a tree is entered: a block always is, an expression where its place asks for it. -/
def isEntered (place : Bool) (t : Tree) : Bool := t.kind = .block || place && t.kind ∈ expressionKinds

/-- A `return` without values still enters the list that it looks for. -/
def lacksValues (k : Kind) (cs : List Tree) : Bool :=
  k = .returnStatement && cs.all (·.kind ≠ .expressionList)

mutual

/-- **How many entered parts lie one inside the other**, at most. -/
def need : Tree → Nat
  | leaf .. => 0
  | node k cs => max (needOfRow (entersFirst k) (entersLater k cs) cs) (lacksValues k cs).toNat

/-- What trees need that stand one after the other, where `first` tells whether the place of the first
node among them is entered, and `later` the same of the others. -/
def needOfRow (first later : Bool) : List Tree → Nat
  | [] => 0
  | t :: ts =>
    if t.isLeaf then needOfRow first later ts
    else max (t.need + (t.isEntered first).toNat) (needOfRow later later ts)

end

/-- What trees need whose places are all entered, or none. -/
def needOfList (place : Bool) (ts : List Tree) : Nat := needOfRow place place ts

variable {k : Kind} {cs ts us : List Tree} {t : Tree} {place first later : Bool}

@[simp] theorem needOfList_nil (place : Bool) : needOfList place [] = 0 := by
  rw [needOfList, needOfRow]

theorem needOfRow_leaf (h : t.isLeaf) : needOfRow first later (t :: ts) = needOfRow first later ts := by
  rw [needOfRow, if_pos h]

theorem needOfRow_node (h : t.isLeaf = false) : needOfRow first later (t :: ts) =
    max (t.need + (t.isEntered first).toNat) (needOfList later ts) := by
  rw [needOfRow, if_neg (by simp [h]), needOfList]

@[simp] theorem needOfList_leaf (k : Kind) (x : String) (ts : List Tree) :
    needOfList place (leaf k x :: ts) = needOfList place ts :=
  needOfRow_leaf rfl

@[simp] theorem needOfList_node (k : Kind) (cs ts : List Tree) : needOfList place (node k cs :: ts) =
    max ((node k cs).need + ((node k cs).isEntered place).toNat) (needOfList place ts) :=
  needOfRow_node rfl

@[simp] theorem needOfList_append (ts us : List Tree) :
    needOfList place (ts ++ us) = max (needOfList place ts) (needOfList place us) := by
  induction ts with
  | nil => simp
  | cons t ts ih => cases t <;> simp [ih, Nat.max_assoc]

/-- In most nodes all places are alike. -/
theorem need_node (h : k ∉ [.indexExpression, .binaryExpression, .returnStatement]) (cs : List Tree) :
    (node k cs).need = needOfList (entersFirst k) cs := by
  simp only [List.mem_cons, List.not_mem_nil, or_false, not_or] at h
  simp [need, needOfList, entersLater, lacksValues, h]

/-- Only the key of an index is entered. -/
theorem need_index (ht : t.isLeaf = false) (hblock : t.kind ≠ .block) (ts : List Tree) :
    (node .indexExpression (t :: ts)).need = max t.need (needOfList true ts) := by
  rw [need, needOfRow_node ht]
  simp [entersFirst, enteringKinds, entersLater, lacksValues, isEntered, hblock]

/-- Only the right operand of a binary expression may be entered. -/
theorem need_binary (ht : t.isLeaf = false) (hblock : t.kind ≠ .block) (ts : List Tree) :
    (node .binaryExpression (t :: ts)).need = max t.need (needOfList ((t :: ts).any groupsRight) ts) := by
  rw [need, needOfRow_node ht]
  simp [entersFirst, enteringKinds, entersLater, lacksValues, isEntered, hblock]

theorem need_return (cs : List Tree) : (node .returnStatement cs).need =
    max (needOfList false cs) (cs.all (·.kind ≠ .expressionList)).toNat := by
  simp [need, needOfList, entersFirst, enteringKinds, entersLater, lacksValues]

/-- A tree that is not entered anywhere, and in which nothing is. -/
def IsLight (t : Tree) : Prop := t.need = 0 ∧ t.kind ∉ [.block, .expressionList] ++ expressionKinds

theorem isLight_of_isToken (h : k.isToken) (x : String) : (leaf k x).IsLight := by
  have hkinds : ∀ k ∈ Kind.all, k.isToken → k ∉ [.block, .expressionList] ++ expressionKinds := by
    decide +kernel
  exact ⟨rfl, hkinds k (Kind.mem_all k) h⟩

theorem needOfList_of_light (h : ∀ t ∈ ts, t.IsLight) : needOfList place ts = 0 := by
  induction ts with
  | nil => exact needOfList_nil place
  | cons t ts ih =>
    obtain ⟨⟨hneed, hkind⟩, hts⟩ := List.forall_mem_cons.1 h
    cases t with
    | leaf k x => rw [needOfList_leaf, ih hts]
    | node k cs =>
      simp only [List.mem_append, List.mem_cons, List.not_mem_nil, or_false, not_or, kind] at hkind
      simp [hneed, isEntered, kind, hkind, ih hts]

theorem groupsRight_of_ne (h : t.kind ≠ .binaryOperator) : t.groupsRight = false := by
  unfold groupsRight
  split
  · exact absurd rfl h
  · rfl

/-- A binary operator, which groups to the right or does not. -/
def IsOperator (right : Bool) (t : Tree) : Prop := t.IsLight ∧ t.groupsRight = right

/-- What the right operand of a binary expression needs. -/
theorem need_binary_of_isOperator {right : Bool} {t op u : Tree} (ht : t.isLeaf = false)
    (hkind : t.kind ∈ expressionKinds) (hop : op.IsOperator right) (hu : u.isLeaf = false)
    (hukind : u.kind ∈ expressionKinds) :
    (node .binaryExpression [t, op, u]).need = max t.need (u.need + right.toNat) := by
  have hne {t : Tree} (h : t.kind ∈ expressionKinds) : t.kind ≠ .block ∧ t.kind ≠ .binaryOperator := by
    constructor <;> intro heq <;> exact absurd (heq ▸ h) (by decide)
  have hany : [t, op, u].any groupsRight = right := by
    simp [groupsRight_of_ne (hne hkind).2, groupsRight_of_ne (hne hukind).2, hop.2]
  have hlight : needOfList right [op] = 0 := needOfList_of_light (List.forall_mem_singleton.2 hop.1)
  have hentered : u.isEntered right = right := by simp [isEntered, (hne hukind).1, hukind]
  rw [need_binary ht (hne hkind).1, hany, ← List.singleton_append, needOfList_append, hlight, Nat.zero_max]
  rw [needOfList, needOfRow_node hu, hentered, needOfList_nil, Nat.max_zero]

/-! ## Trees without trivia -/

/-- What trivia is none of is not lost. -/
theorem any_withoutTrivia {p : Tree → Bool} (hp : ∀ t : Tree, p t.withoutTrivia = p t)
    (htrivia : ∀ k x, k.isTrivia → p (leaf k x) = false) (ts : List Tree) :
    (withoutTriviaInList ts).any p = ts.any p := by
  induction ts with
  | nil => rfl
  | cons t ts ih =>
    rw [withoutTriviaInList, List.any_cons, ← ih]
    split
    · rename_i ht
      cases t with
      | leaf k x => rw [htrivia k x ht, Bool.false_or]
      | node k cs => simp [isTrivia] at ht
    · rw [List.any_cons, hp]

theorem groupsRight_withoutTrivia (t : Tree) : t.withoutTrivia.groupsRight = t.groupsRight := by
  cases t with
  | leaf k x => rfl
  | node k os =>
    rw [withoutTrivia]
    by_cases hk : k = .binaryOperator
    · subst hk
      refine any_withoutTrivia (fun t => by rw [kind_withoutTrivia]) (fun k x hk => ?_) os
      have h : ∀ k ∈ Kind.all, k.isTrivia → k ∉ [Kind.dotDot, .caret] := by decide +kernel
      exact decide_eq_false (h k (Kind.mem_all k) hk)
    · rw [groupsRight_of_ne (t := .node k _) hk, groupsRight_of_ne (t := .node k os) hk]

theorem lacksValues_withoutTrivia (k : Kind) (cs : List Tree) :
    lacksValues k (withoutTriviaInList cs) = lacksValues k cs := by
  have hlist : (withoutTriviaInList cs).any (·.kind = .expressionList) =
      cs.any (·.kind = .expressionList) := by
    refine any_withoutTrivia (fun t => by rw [kind_withoutTrivia]) (fun k x hk => decide_eq_false ?_) cs
    rintro rfl
    simp [Kind.isTrivia] at hk
  simpa [lacksValues, List.all_eq_not_any_not] using congrArg (k = Kind.returnStatement && !·) hlist

mutual

/-- **Trivia does not matter to the nesting.** -/
theorem need_withoutTrivia : ∀ t : Tree, t.withoutTrivia.need = t.need
  | leaf .. => rfl
  | node k cs => by
    have hlater : entersLater k (withoutTriviaInList cs) = entersLater k cs := by
      rw [entersLater, entersLater, any_withoutTrivia groupsRight_withoutTrivia (fun _ _ _ => rfl)]
    rw [withoutTrivia, need, need, hlater, lacksValues_withoutTrivia, needOfRow_withoutTrivia]

theorem needOfRow_withoutTrivia (first later : Bool) : ∀ ts : List Tree,
    needOfRow first later (withoutTriviaInList ts) = needOfRow first later ts
  | [] => rfl
  | leaf k x :: ts => by
    rw [withoutTriviaInList, needOfRow_leaf rfl, ← needOfRow_withoutTrivia first later ts]
    split
    · rfl
    · rw [needOfRow_leaf rfl]
  | node k cs :: ts => by
    rw [withoutTriviaInList, if_neg (by simp [isTrivia]), needOfRow_node (isLeaf_withoutTrivia _),
      needOfRow_node rfl, need_withoutTrivia (node k cs), isEntered, isEntered, kind_withoutTrivia,
      needOfList, needOfRow_withoutTrivia later later ts, needOfList]

end

end Tree

end LuaTree
