import LuaTree.Proofs.Writing.Chain
import LuaTree.Proofs.Writing.Formula
import LuaTree.Proofs.Writing.Function

/-!
# Proofs/Writing/Operation — expressions are written

Atoms are written case by case.  An expression of the grammar is the tree of a ranked formula over its
atoms, so it is written as formulas are.
-/

namespace LuaTree.Production

open LuaTree.Parser Grammar Computability

variable {i : Input} {enter : Enter} {us : Leaves} {k : Kind} {cs : List Tree} {t : Tree} {s : State}
  {f : Formula}

/-! ## Atoms -/

section

variable (he : Accepts i enter)
include he

theorem atom_finds (h : (Tree.node k cs).Delimited) (hk : k ∈ atomKinds)
    (hmethod : ¬ isMethod (.node k cs)) (hus : k ∈ chainKinds → first us ∉ KindSet.suffixFirst) :
    Finds i (atom enter) (.node k cs) us := by
  intro s hs
  have hlook : Yields (atom enter) i s fun a s' => ∃ x, a = some x ∧ Built i s.look s' x (.node k cs) us := by
    by_cases hchain : k ∈ chainKinds
    · have hfirst : first (Tree.leavesOfList [.node k cs] ++ us) = .ident ∨
          first (Tree.leavesOfList [.node k cs] ++ us) = .parenOpen := by
        simpa [KindSet.mem_iff_contains, chainFirst] using (begins_chain hchain h).first us
      rcases hfirst with hfirst | hfirst
      · exact hs.wrote.peek hfirst fun w => chain_finds he hchain h hmethod (hus hchain) _ w.toAt
      · exact hs.wrote.peek hfirst fun w => chain_finds he hchain h hmethod (hus hchain) _ w.toAt
    have hcases : k = .nilLiteral ∨ k = .booleanLiteral ∨ k = .numberLiteral ∨ k = .stringLiteral ∨
        k = .varargLiteral ∨ k = .tableExpression ∨ k = .functionExpression := by
      simpa [hchain] using List.mem_append.1 hk
    rcases hcases with rfl | rfl | rfl | rfl | rfl | rfl | rfl
    case inl =>
      obtain ⟨x, rfl⟩ := h.row
      exact hs.wrote.peek rfl fun w => single_builds.finds _ w.toAt
    case inr.inl =>
      rcases h.row with ⟨x, rfl⟩ | ⟨x, rfl⟩
      · exact hs.wrote.peek rfl fun w => single_builds.finds _ w.toAt
      · exact hs.wrote.peek rfl fun w => single_builds.finds _ w.toAt
    case inr.inr.inl =>
      obtain ⟨l, hl, x, rfl⟩ := h.row
      have hfirst : first (Tree.leavesOfList [.node .numberLiteral [.leaf l x]] ++ us) = l := rfl
      have hl : l = .decInt ∨ l = .hexInt ∨ l = .octInt ∨ l = .realNumber := by
        simpa [KindSet.mem_iff_contains, KindSet.numbers] using hl
      rcases hl with rfl | rfl | rfl | rfl <;>
        exact hs.wrote.peek hfirst fun w => single_builds.finds _ w.toAt
    case inr.inr.inr.inl =>
      obtain ⟨l, hl, x, rfl⟩ := h.row
      have hfirst : first (Tree.leavesOfList [.node .stringLiteral [.leaf l x]] ++ us) = l := rfl
      have hl : l = .singleQuotedString ∨ l = .doubleQuotedString ∨ l = .longString := by
        simpa [KindSet.mem_iff_contains, KindSet.strings] using hl
      rcases hl with rfl | rfl | rfl <;>
        exact hs.wrote.peek hfirst fun w => single_builds.finds _ w.toAt
    case inr.inr.inr.inr.inl =>
      obtain ⟨x, rfl⟩ := h.row
      exact hs.wrote.peek rfl fun w => single_builds.finds _ w.toAt
    case inr.inr.inr.inr.inr.inl =>
      have hfirst : first (Tree.leavesOfList [.node .tableExpression cs] ++ us) = .braceOpen := by
        simpa [KindSet.mem_iff_contains] using (begins_table h).first us
      exact hs.wrote.peek hfirst fun w => (table_builds he h).finds _ w.toAt
    case inr.inr.inr.inr.inr.inr =>
      have hfirst : first (Tree.leavesOfList [.node .functionExpression cs] ++ us) = .kwFunction := by
        obtain ⟨_, ⟨x, rfl⟩, us, -, rfl⟩ := h.row
        rfl
      exact hs.wrote.peek hfirst fun w => (functionExpression_builds he h).finds _ w.toAt
  exact hlook.mono fun _ _ ⟨x, ha, hx⟩ => ⟨x, ha, hx.of_look hs.coherent⟩

omit he in
theorem atom_absent (hus : first us ∉ KindSet.expressionFirst) :
    Writes i (atom enter) [] us (· = none) := by
  intro s hs
  have w : Wrote i s s [] [] us := hs.wrote
  refine w.peek rfl fun w => ?_
  split
  case h_7 =>
    rw [if_neg (mt (show Within KindSet.numbers KindSet.expressionFirst by decide +kernel).mem hus),
      if_neg (mt (show Within KindSet.strings KindSet.expressionFirst by decide +kernel).mem hus)]
    have hchain := mt (show Within chainFirst KindSet.expressionFirst by decide +kernel).mem hus
    exact (chain_absent hchain _ w.toAt).mono fun a s' ⟨w', ha⟩ => ⟨w'.of_look hs.coherent, ha⟩
  all_goals
    rename_i heq
    exact absurd (by rw [heq]; decide) hus

end

/-! ## Formulas -/

/-- An atom that can be written. -/
structure DelimitedAtom (t : Tree) : Prop where
  atom : [t] ∈ nodeOf atomKinds
  delimited : t.Delimited
  not_method : ¬ isMethod t

/-- An atom that can be written and is not followed by a suffix. -/
def Ended (t : Tree) (k : Kind) : Prop := DelimitedAtom t ∧ k ∉ KindSet.suffixFirst

theorem not_suffix_of_binary : ∀ k ∈ Kind.all, k ∈ KindSet.binaryOperators → k ∉ KindSet.suffixFirst := by
  decide +kernel

/-- No suffix follows a formula over such atoms. -/
theorem not_suffix_of_ended (h : f.Over Ended k) : k ∉ KindSet.suffixFirst := by
  induction f with
  | operand t => exact h.2
  | signed o y g ih => exact ih h
  | operated l o y r _ ihr => exact ihr h.2

theorem atom_le_expression : ∀ k ∈ atomKinds, k ∈ expressionKinds := by decide

theorem not_unary_of_atomFirst : ∀ k ∈ Kind.all, k ∈ atomFirst → k ∉ KindSet.unaryOperators := by
  decide +kernel

/-- **A ranked formula over written atoms is an expression of the grammar.** -/
theorem delimited_tree (hf : f.Ranked) (hA : f.Over Ended k) :
    f.tree.Delimited ∧ [f.tree] ∈ operand false f.tight := by
  induction f generalizing k with
  | operand t =>
    obtain ⟨⟨k, hk, cs, ht⟩, hd, hmethod⟩ := hA.1
    obtain rfl := (List.cons.inj ht).1
    refine ⟨hd, mem_operand.2 ⟨atom_le_expression k hk, hmethod, ?_⟩⟩
    exact (Formula.operatorIn?_of_atom hf).2.ge
  | signed o y g ih =>
    obtain ⟨ho, hg, hle⟩ := hf
    obtain ⟨hd, hoperand⟩ := ih hg hA
    refine ⟨⟨⟨⟨_, ⟨_, rfl⟩, _, operand_anti hle hoperand, rfl⟩, Kind.noConfusion⟩, ?_, hd, trivial⟩, ?_⟩
    · exact ⟨⟨⟨o, ho, y, rfl⟩, Kind.noConfusion⟩, trivial, trivial⟩
    · exact ⟨_, by decide, _, rfl, by simp [isMethod], le_refl 10⟩
  | operated l o y r ihl ihr =>
    obtain ⟨ho, hl, hr, hleft, hright⟩ := id hf
    obtain ⟨hdl, hoperandl⟩ := ihl hl hA.1
    obtain ⟨hdr, hoperandr⟩ := ihr hr hA.2
    refine ⟨⟨⟨⟨o, ho, _, ⟨_, operand_anti hleft hoperandl, _, ⟨_, rfl, rfl⟩, rfl⟩, _,
      operand_anti hright hoperandr, rfl⟩, Kind.noConfusion⟩, hdl, ?_, hdr, trivial⟩, ?_⟩
    · exact ⟨⟨⟨o, ho, y, rfl⟩, Kind.noConfusion⟩, trivial, trivial⟩
    · refine ⟨_, by decide, _, rfl, by simp [isMethod], ?_⟩
      exact (Formula.tightness_tree (Formula.ranked_iff.1 hf).1).ge

/-- **An expression of the grammar is the tree of a ranked formula** over its atoms. -/
theorem exists_formula {k : Kind} {cs : List Tree} (h : (Tree.node k cs).Delimited)
    (ht : [.node k cs] ∈ operand false 0) : ∃ f : Formula, f.Ranked ∧ f.tree = .node k cs ∧
      ∀ m ∉ KindSet.suffixFirst, f.Over Ended m := by
  have htight {f : Formula} {n : Nat} {m : Kind} {ms : List Tree} (hf : f.Ranked)
      (htree : f.tree = .node m ms) (hm : [.node m ms] ∈ operand false n) : n ≤ f.tight := by
    rw [← Formula.tightness_tree (Formula.ranked_iff.1 hf).1, htree]
    exact (mem_operand.1 hm).2.2
  obtain ⟨hk, hmethod, -⟩ := mem_operand.1 ht
  by_cases hbinary : k = .binaryExpression
  · subst hbinary
    obtain ⟨o, ho, y, l, ls, m, ms, rfl, -, hleft, hright⟩ := binary_cases h
    obtain ⟨f, hf, hf', hA⟩ := exists_formula (h.child (t := .node l ls) (by simp))
      (operand_anti (Nat.zero_le _) hleft)
    obtain ⟨g, hg, hg', hA'⟩ := exists_formula (h.child (t := .node m ms) (by simp))
      (operand_anti (Nat.zero_le _) hright)
    refine ⟨.operated f o y g, ⟨ho, hf, hg, htight hf hf' hleft, htight hg hg' hright⟩, ?_, fun m hm => ?_⟩
    · rw [Formula.tree, hf', hg']
      rfl
    · exact ⟨hA o (not_suffix_of_binary o (Kind.mem_all o) ho), hA' m hm⟩
  by_cases hunary : k = .unaryExpression
  · subst hunary
    obtain ⟨_, ⟨os, rfl⟩, _, hright, rfl⟩ := h.row
    obtain ⟨o, ho, y, rfl⟩ := (h.child (t := .node .unaryOperator os) (by simp)).row
    obtain ⟨m, hm, ms, rfl, -⟩ := id (show _ ∈ operand false 10 from hright)
    obtain ⟨g, hg, hg', hA⟩ := exists_formula (h.child (t := .node m ms) (by simp))
      (operand_anti (Nat.zero_le _) hright)
    refine ⟨.signed o y g, ⟨ho, hg, htight hg hg' hright⟩, ?_, hA⟩
    rw [Formula.tree, hg']
    rfl
  have hatom : [Tree.node k cs] ∈ nodeOf atomKinds := by
    refine ⟨k, ?_, cs, rfl⟩
    simp only [expressionKinds, List.mem_append, List.mem_cons, hbinary, hunary, false_or] at hk
    simp only [atomKinds, List.mem_append, List.mem_cons]
    tauto
  exact ⟨.operand (.node k cs), hatom, rfl, fun m hm => ⟨⟨hatom, h, hmethod⟩, hm⟩⟩
termination_by sizeOf cs

theorem begins_atom (h : DelimitedAtom t) : Begins atomFirst [t] := by
  obtain ⟨⟨k, hk, cs, ht⟩, hd, -⟩ := h
  obtain rfl := (List.cons.inj ht).1
  exact begins_atomic hk hd

/-- A written atom does not look like a unary operator. -/
theorem DelimitedAtom.begins (h : DelimitedAtom t) (us : Leaves) :
    first (Tree.leavesOfList [t] ++ us) ∉ KindSet.unaryOperators :=
  not_unary_of_atomFirst _ (Kind.mem_all _) ((begins_atom h).first us)

theorem DelimitedAtom.finds (he : Accepts i enter) (h : DelimitedAtom t)
    (hus : t.kind ∈ chainKinds → first us ∉ KindSet.suffixFirst) : Finds i (Production.atom enter) t us := by
  obtain ⟨⟨k, hk, cs, ht⟩, hd, hmethod⟩ := h
  obtain rfl := (List.cons.inj ht).1
  exact atom_finds he hd hk hmethod hus

/-- **What the counted productions have to write is enough for formulas.** -/
theorem operates_of_accepts (he : Accepts i enter) : Operates i enter Ended where
  begins h := h.1.begins
  atom h := h.1.finds he fun _ => h.2
  unary {f us} hf hA h10 hus := by
    obtain ⟨hd, hoperand⟩ := delimited_tree hf hA
    exact he.unary hd (operand_anti h10 hoperand) ⟨not_suffix_of_ended hA, hus⟩
  operation {rank f us} hj hf hA hle hus := by
    obtain ⟨hd, hoperand⟩ := delimited_tree hf hA
    exact he.operation hj hd (operand_anti hle hoperand) ⟨not_suffix_of_ended hA, hus⟩

/-- **Every expression is written** that is tight enough for a level. -/
theorem expression_writes {j : Nat} (he : Accepts i enter) (hj : j ≤ 10) (h : t.Delimited)
    (ht : [t] ∈ operand false j) (hus : Stops j (first us)) :
    Writes i (operation enter (Level.all.drop j) none) [t] us (·.isSome) := by
  obtain ⟨k, -, cs, heq, -⟩ := id ht
  obtain rfl := (List.cons.inj heq).1
  obtain ⟨f, hf, htree, hA⟩ := exists_formula h (operand_anti (Nat.zero_le j) ht)
  have hle : j ≤ f.tight := by
    rw [← Formula.tightness_tree (Formula.ranked_iff.1 hf).1, htree]
    exact (mem_operand.1 ht).2.2
  rw [← htree]
  exact operation_writes (operates_of_accepts he) hj hf (hA _ hus.1) hle hus.2

/-- **Where no expression begins, none is written.** -/
theorem operation_absent (hus : first us ∉ KindSet.expressionFirst) : ∀ levels : List Level,
    Writes i (operation enter levels none) [] us (· = none)
  | [] => by
    intro s hs
    have hunary := mt (show Within KindSet.unaryOperators KindSet.expressionFirst by decide +kernel).mem hus
    refine hs.wrote.notAtOneOf hunary fun w => ?_
    refine w.step (atom_absent hus) ?_
    rintro _ s₁ w rfl
    exact .pure ⟨w, rfl⟩
  | level :: tighter => by
    intro s hs
    rw [operation_cons]
    refine hs.wrote.step (operation_absent hus tighter) ?_
    rintro _ s₁ w rfl
    exact .pure ⟨w, rfl⟩

end LuaTree.Production
