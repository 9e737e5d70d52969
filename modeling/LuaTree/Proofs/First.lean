import LuaTree.Proofs.Formula
import LuaTree.Proofs.Inclusion
import LuaTree.Proofs.Writing

/-!
# Proofs/First — how the leaves of a tree begin

The parser decides with one token of lookahead, so what matters about a tree is its first leaf; only
where a name may be the key of a field, the second one does as well.
-/

namespace LuaTree

open Grammar

/-- Every statement is followed by a semicolon. -/
def Grammar.Separated : List Tree → Prop
  | [] => True
  | t :: ts =>
    (t.kind ∈ statementKinds false → ∃ x us, ts = .leaf .semicolon x :: us) ∧ Separated ts

/-- **A tree of the grammar in which a semicolon follows every statement but a final `return`.** -/
def Tree.Delimited (t : Tree) : Prop :=
  t.Everywhere fun k cs => cs ∈ production false k ∧ (k = .statementList → Separated cs)

variable {k : Kind} {cs : List Tree}

theorem Tree.Delimited.row (h : (Tree.node k cs).Delimited) : cs ∈ production false k := h.1.1

theorem Tree.Delimited.child (h : (Tree.node k cs).Delimited) {t : Tree} (ht : t ∈ cs) : t.Delimited :=
  (everywhere_node.1 h).2 t ht

namespace Grammar

/-- What a chain begins with. -/
def chainFirst : KindSet := .ofList [.ident, .parenOpen]

/-- What an operand without an operator in front of it begins with. -/
def atomFirst : KindSet :=
  KindSet.numbers.union <| KindSet.strings.union <|
    .ofList [.kwNil, .kwTrue, .kwFalse, .ellipsis, .braceOpen, .kwFunction, .ident, .parenOpen]

/-- What the arguments of a call begin with. -/
def argumentsFirst : KindSet := KindSet.strings.union (.ofList [.parenOpen, .braceOpen])

/-- Every member of one set is one of the other. -/
abbrev Within (set set' : KindSet) : Prop := ∀ k ∈ Kind.all, k ∈ set → k ∈ set'

theorem Within.mem {set set' : KindSet} (h : Within set set') (hk : k ∈ set) : k ∈ set' :=
  h k (Kind.mem_all k) hk

theorem first_append_ne {us vs : Leaves} (hus : first us ≠ k) (hvs : first vs ≠ k) :
    first (us ++ vs) ≠ k := by
  cases us with
  | nil => exact hvs
  | cons u us => exact hus

/-- **The leaves of trees begin with one of some kinds**, and if that is a name, no `=` follows it. -/
def Begins (set : KindSet) (ts : List Tree) : Prop :=
  ∃ k ∈ set, ∃ x us, Tree.leavesOfList ts = (k, x) :: us ∧ (k = .ident → first us ≠ .equals)

variable {set : KindSet} {ts : List Tree}

theorem Begins.mono {set' : KindSet} (h : Begins set ts) (hset : Within set set') : Begins set' ts := by
  obtain ⟨k, hk, x, us, hts⟩ := h
  exact ⟨k, hset.mem hk, x, us, hts⟩

theorem Begins.append {us : List Tree} (h : Begins set ts) (hus : first (Tree.leavesOfList us) ≠ .equals) :
    Begins set (ts ++ us) := by
  obtain ⟨k, hk, x, vs, hts, hvs⟩ := h
  refine ⟨k, hk, x, vs ++ Tree.leavesOfList us, by rw [Tree.leavesOfList_append, hts]; rfl, ?_⟩
  exact fun h => first_append_ne (hvs h) hus

theorem Begins.node (h : Begins set cs) : Begins set [.node k cs] := by
  obtain ⟨l, hl, x, us, hcs⟩ := h
  exact ⟨l, hl, x, us, by rwa [Tree.leavesOfList_node]⟩

theorem begins_leaf {x : String} {us : List Tree} (hk : k ∈ set) (hne : k ≠ .ident) :
    Begins set (.leaf k x :: us) :=
  ⟨k, hk, x, Tree.leavesOfList us, rfl, fun h => absurd h hne⟩

theorem Begins.first (h : Begins set ts) (us : Leaves) : first (Tree.leavesOfList ts ++ us) ∈ set := by
  obtain ⟨k, hk, x, vs, hts, -⟩ := h
  rw [hts]
  exact hk

/-! ## Chains -/

theorem begins_nameRef (h : (Tree.node .nameRef cs).Delimited) : Begins chainFirst [.node .nameRef cs] := by
  obtain ⟨x, rfl⟩ := h.row
  exact ⟨.ident, by decide, x, [], rfl, fun _ => by decide⟩

theorem begins_table (h : (Tree.node .tableExpression cs).Delimited) :
    Begins (.ofList [.braceOpen]) [.node .tableExpression cs] := by
  obtain ⟨_, ⟨_, ⟨_, ⟨x, rfl⟩, us, -, rfl⟩, vs, -, rfl⟩, ws, -, rfl⟩ := h.row
  exact (begins_leaf (by decide) (by decide)).node

/-- A node around one token. -/
theorem begins_single {l : Kind} {x : String} (hl : l ∈ set) (hne : l ≠ .ident) :
    Begins set [.node k [.leaf l x]] :=
  (begins_leaf hl hne).node

theorem begins_string (h : (Tree.node .stringLiteral cs).Delimited) :
    Begins KindSet.strings [.node .stringLiteral cs] := by
  obtain ⟨l, hl, x, rfl⟩ := h.row
  exact begins_single hl (by rintro rfl; exact absurd hl (by decide))

theorem begins_arguments (h : (Tree.node .argumentList cs).Delimited) :
    Begins argumentsFirst [.node .argumentList cs] := by
  refine Begins.node ?_
  have hrow : cs ∈ node .tableExpression + node .stringLiteral +
    token .parenOpen * (1 + node .expressionList) * hole false (token .parenClose) := h.row
  rcases hrow with (⟨ds, rfl⟩ | ⟨ds, rfl⟩) | ⟨_, ⟨_, ⟨x, rfl⟩, us, -, rfl⟩, vs, -, rfl⟩
  · exact (begins_table (h.child (List.mem_singleton_self _))).mono (by decide +kernel)
  · exact (begins_string (h.child (List.mem_singleton_self _))).mono (by decide +kernel)
  · exact begins_leaf (by decide) (by decide)

theorem first_selector (h : cs ∈ selector false) : first (Tree.leavesOfList cs) ≠ .equals := by
  obtain (⟨_, ⟨x, rfl⟩, us, -, rfl⟩ | ⟨_, ⟨x, rfl⟩, us, -, rfl⟩) | ⟨_, ⟨_, ⟨x, rfl⟩, us, -, rfl⟩, vs, -, rfl⟩ := h
  · exact nofun
  · exact nofun
  · exact nofun

theorem begins_chain {k : Kind} {cs : List Tree} (hk : k ∈ chainKinds)
    (h : (Tree.node k cs).Delimited) : Begins chainFirst [.node k cs] := by
  have hcases : k = .nameRef ∨ k = .parenExpression ∨ k = .indexExpression ∨ k = .callExpression := by
    simpa [chainKinds] using hk
  rcases hcases with rfl | rfl | rfl | rfl
  · exact begins_nameRef h
  · obtain ⟨_, ⟨_, ⟨x, rfl⟩, us, -, rfl⟩, vs, -, rfl⟩ := h.row
    exact (begins_leaf (by decide) (by decide)).node
  · obtain ⟨_, ⟨l, hl, ds, rfl, -⟩, us, hus, rfl⟩ := h.row
    have hbase := begins_chain hl (h.child (t := .node l ds) (by simp))
    exact (hbase.append (first_selector hus)).node
  · obtain ⟨_, ⟨l, hl, ds, rfl⟩, _, ⟨es, rfl⟩, rfl⟩ := h.row
    have hbase := begins_chain hl (h.child (t := .node l ds) (by simp))
    refine (hbase.append fun heq => ?_).node
    have := (begins_arguments (h.child (t := .node .argumentList es) (by simp))).first []
    rw [List.append_nil, heq] at this
    exact absurd this (by decide)
termination_by sizeOf cs

/-! ## Expressions -/

variable {r : Nat}

theorem mem_operand : [.node k cs] ∈ operand false r ↔
    k ∈ expressionKinds ∧ ¬ isMethod (.node k cs) ∧ r ≤ tightness (.node k cs) := by
  constructor
  · rintro ⟨l, hl, ds, heq, hmethod, hr⟩
    obtain ⟨rfl, rfl⟩ := Tree.node.inj (List.cons.inj heq).1
    exact ⟨hl, fun h => Bool.false_ne_true (hmethod h), hr⟩
  · rintro ⟨hk, hmethod, hr⟩
    exact ⟨k, hk, cs, rfl, fun h => absurd h hmethod, hr⟩

/-- **A binary expression**: an operator between two operands that are tight enough for it. -/
theorem binary_cases (h : (Tree.node .binaryExpression cs).Delimited) :
    ∃ o ∈ KindSet.binaryOperators, ∃ x l ls m ms,
      cs = [.node l ls] ++ [.node .binaryOperator [.leaf o x]] ++ [.node m ms] ∧
      tightness (.node .binaryExpression cs) = rank o ∧
      [.node l ls] ∈ operand false (leftBound o) ∧ [.node m ms] ∈ operand false (rightBound o) := by
  obtain ⟨o, ho, _, ⟨_, hleft, _, ⟨es, rfl, hes⟩, rfl⟩, _, hright, rfl⟩ := h.row
  obtain ⟨l, hl, ls, rfl, -⟩ := id hleft
  obtain ⟨m, hm, ms, rfl, -⟩ := id (show _ ∈ operand false (rightBound o) from hright)
  obtain ⟨o', -, x, rfl⟩ := (h.child (t := .node .binaryOperator es) (by simp)).row
  obtain rfl : o' = o := by simpa [leafKind?] using hes
  refine ⟨o', ho, x, l, ls, m, ms, rfl, ?_, hleft, hright⟩
  have hoperand : l ≠ .binaryOperator := fun h => absurd (h ▸ hl) (by decide)
  change (operator? (.node l ls :: .node .binaryOperator [.leaf o' x] :: _)).elim 0 rank = _
  rw [operator?_cons hoperand]
  rfl

theorem le_leftBound : ∀ k ∈ Kind.all, 11 ≤ rank k → 11 ≤ leftBound k := by decide +kernel

/-- **How an atom begins.** -/
theorem begins_atomic {k : Kind} {cs : List Tree} (hk : k ∈ atomKinds) (h : (Tree.node k cs).Delimited) :
    Begins atomFirst [.node k cs] := by
  by_cases hchain : k ∈ chainKinds
  · exact (begins_chain hchain h).mono (by decide +kernel)
  have hcases : k = .nilLiteral ∨ k = .booleanLiteral ∨ k = .numberLiteral ∨ k = .stringLiteral ∨
      k = .varargLiteral ∨ k = .tableExpression ∨ k = .functionExpression := by
    simpa [hchain] using List.mem_append.1 hk
  rcases hcases with rfl | rfl | rfl | rfl | rfl | rfl | rfl
  case inl =>
    obtain ⟨x, rfl⟩ := h.row
    exact begins_single (by decide) (by decide)
  case inr.inl =>
    rcases h.row with ⟨x, rfl⟩ | ⟨x, rfl⟩
    · exact begins_single (by decide) (by decide)
    · exact begins_single (by decide) (by decide)
  case inr.inr.inl =>
    obtain ⟨l, hl, x, rfl⟩ := h.row
    refine Begins.mono (begins_single hl ?_) (by decide +kernel)
    rintro rfl
    exact absurd hl (by decide)
  case inr.inr.inr.inl => exact (begins_string h).mono (by decide +kernel)
  case inr.inr.inr.inr.inl =>
    obtain ⟨x, rfl⟩ := h.row
    exact begins_single (by decide) (by decide)
  case inr.inr.inr.inr.inr.inl => exact (begins_table h).mono (by decide +kernel)
  case inr.inr.inr.inr.inr.inr =>
    obtain ⟨_, ⟨x, rfl⟩, us, -, rfl⟩ := h.row
    exact (begins_leaf (by decide) (by decide)).node

theorem begins_unary {cs : List Tree} (h : (Tree.node .unaryExpression cs).Delimited) :
    Begins KindSet.unaryOperators [.node .unaryExpression cs] := by
  obtain ⟨_, ⟨os, rfl⟩, us, -, rfl⟩ := h.row
  obtain ⟨o, ho, x, rfl⟩ := (h.child (t := .node .unaryOperator os) (by simp)).row
  have hne : o ≠ .ident := by
    rintro rfl
    exact absurd ho (by decide)
  exact Begins.node ⟨o, ho, x, Tree.leavesOfList us, rfl, fun h => absurd h hne⟩

/-- A binary expression begins as its left operand does, which is as tight. -/
theorem begins_binary {cs : List Tree} (h : (Tree.node .binaryExpression cs).Delimited) :
    ∃ l ls, .node l ls ∈ cs ∧ l ∈ expressionKinds ∧
      (11 ≤ tightness (.node .binaryExpression cs) → 11 ≤ tightness (.node l ls)) ∧
      ∀ set, Begins set [.node l ls] → Begins set [.node .binaryExpression cs] := by
  obtain ⟨o, ho, x, l, ls, m, ms, rfl, htight, hleft, -⟩ := binary_cases h
  obtain ⟨hl, -, hbound⟩ := mem_operand.1 hleft
  have hequals : first (Tree.leavesOfList ([.node .binaryOperator [.leaf o x]] ++ [.node m ms])) ≠ .equals := by
    rw [Tree.leavesOfList_append]
    rintro (rfl : o = _)
    exact absurd ho (by decide)
  refine ⟨l, ls, by simp, hl, fun h11 => ?_, fun set hbegins => ?_⟩
  · exact (le_leftBound o (Kind.mem_all o) (htight ▸ h11)).trans hbound
  · rw [List.append_assoc]
    exact (hbegins.append hequals).node

theorem expression_cases : ∀ k ∈ expressionKinds, k ∈ atomKinds ∨ k = .binaryExpression ∨ k = .unaryExpression := by
  decide

/-- **How an expression begins**: with an atom, unless a unary operator stands in front. -/
theorem begins_expression {k : Kind} {cs : List Tree} (hk : k ∈ expressionKinds)
    (h : (Tree.node k cs).Delimited) : Begins KindSet.expressionFirst [.node k cs] ∧
      (11 ≤ tightness (.node k cs) → Begins atomFirst [.node k cs]) := by
  rcases expression_cases k hk with hk | rfl | rfl
  · have hatom := begins_atomic hk h
    exact ⟨hatom.mono (by decide +kernel), fun _ => hatom⟩
  · obtain ⟨l, ls, hmem, hl, htight, hbegins⟩ := begins_binary h
    obtain ⟨h₁, h₂⟩ := begins_expression hl (h.child hmem)
    exact ⟨hbegins _ h₁, fun h11 => hbegins _ (h₂ (htight h11))⟩
  · exact ⟨(begins_unary h).mono (by decide +kernel), fun h11 => absurd h11 (show ¬ 11 ≤ 10 by decide)⟩
termination_by sizeOf cs
decreasing_by
  have := List.sizeOf_lt_of_mem hmem
  simp only [Tree.node.sizeOf_spec] at this
  omega

/-! ## Statements -/

/-- The token that statements of a kind begin with; calls and assignments begin with a chain. -/
def leading? : Kind → Option Kind
  | .doStatement => some .kwDo
  | .whileStatement => some .kwWhile
  | .repeatStatement => some .kwRepeat
  | .ifStatement => some .kwIf
  | .simpleForStatement | .rangeForStatement => some .kwFor
  | .functionDefinitionStatement => some .kwFunction
  | .localFunctionStatement | .localNameStatement => some .kwLocal
  | .breakStatement => some .kwBreak
  | .gotoStatement => some .kwGoto
  | .labelStatement => some .doubleColon
  | .returnStatement => some .kwReturn
  | _ => none

/-- Rows that begin with a token of a kind. -/
def opening (k : Kind) : Language Tree := {ts | ∃ x us, ts = .leaf k x :: us}

theorem token_le_opening : token k ≤ opening k := by
  rintro _ ⟨x, rfl⟩
  exact ⟨x, [], rfl⟩

theorem mul_le_opening {L M : Language Tree} (h : L ≤ opening k) : L * M ≤ opening k := by
  rintro _ ⟨ts, hts, us, -, rfl⟩
  obtain ⟨x, vs, rfl⟩ := h hts
  exact ⟨x, vs ++ us, rfl⟩

theorem production_le_opening {l : Kind} (h : leading? k = some l) : production false k ≤ opening l := by
  cases k <;> simp only [leading?, Option.some.injEq, reduceCtorEq] at h <;> subst h <;>
    exact (by repeat first | exact token_le_opening | refine mul_le_opening ?_)

theorem first_leading {l : Kind} (hl : leading? k = some l) (h : (Tree.node k cs).Delimited)
    (us : Leaves) : first (Tree.leavesOfList [.node k cs] ++ us) = l := by
  obtain ⟨x, vs, rfl⟩ := production_le_opening hl h.row
  rfl

theorem begins_var (h : (Tree.node .var cs).Delimited) : Begins chainFirst [.node .var cs] := by
  obtain ⟨⟨k, hk, ds, rfl, -⟩, -⟩ := h.row
  exact (begins_chain hk (h.child (List.mem_singleton_self _))).node

/-- **How a statement begins** that no token of its own leads. -/
theorem first_chainStatement (hk : k = .callStatement ∨ k = .assignmentStatement)
    (h : (Tree.node k cs).Delimited) (us : Leaves) :
    first (Tree.leavesOfList [.node k cs] ++ us) ∈ chainFirst := by
  rcases hk with rfl | rfl
  · obtain ⟨ds, rfl⟩ := h.row
    exact (begins_chain (by decide) (h.child (List.mem_singleton_self _))).node.first us
  · obtain ⟨_, ⟨_, ⟨ls, rfl⟩, ts, -, rfl⟩, us', -, rfl⟩ := h.row
    have hlist := h.child (t := .node .variableList ls) (by simp)
    obtain ⟨_, ⟨_, ⟨vs, rfl⟩, more, -, rfl⟩, ws, -, rfl⟩ := hlist.row
    have hvar := (begins_var (hlist.child (t := .node .var vs) (by simp))).first
    simp only [Tree.leavesOfList_append, Tree.leavesOfList_node .assignmentStatement,
      Tree.leavesOfList_node .variableList, List.append_assoc]
    exact hvar _

theorem leading_of_statement : ∀ k ∈ statementKinds false, (∃ l, leading? k = some l ∧
    l ∈ KindSet.statementFirst ∧ l ≠ .kwReturn) ∨ k = .callStatement ∨ k = .assignmentStatement := by
  decide +kernel

/-- Every statement begins as one. -/
theorem first_statement (hk : k ∈ statementKinds false) (h : (Tree.node k cs).Delimited) (us : Leaves) :
    first (Tree.leavesOfList [.node k cs] ++ us) ∈ KindSet.statementFirst ∧
      first (Tree.leavesOfList [.node k cs] ++ us) ≠ .kwReturn := by
  rcases leading_of_statement k hk with ⟨l, hl, hfirst, hne⟩ | hk
  · rw [first_leading hl h us]
    exact ⟨hfirst, hne⟩
  · have hchain := first_chainStatement hk h us
    refine ⟨(show Within chainFirst KindSet.statementFirst by decide +kernel).mem hchain, fun heq => ?_⟩
    exact absurd (heq ▸ hchain) (by decide)

end Grammar

end LuaTree
