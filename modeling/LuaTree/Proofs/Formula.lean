import LuaTree.Proofs.Precedence

/-!
# Proofs/Formula — the ways to group a row of operands and operators

A `Formula` is one way to group operands and the operators before and between them; its row tells in
which order they stand, and its tree how the parser would record it.  Of all the formulas with one row
exactly one is orderly (`existsUnique_formula`): one can be put together from the end of the row to its
beginning, by `sign` and `attach`, and every orderly formula comes from that (`peel`).
-/

namespace LuaTree

open Computability Grammar

namespace Grammar

/-- What stands between operators. -/
def atomKinds : List Kind :=
  chainKinds ++ [.nilLiteral, .booleanLiteral, .numberLiteral, .stringLiteral, .varargLiteral,
    .tableExpression, .functionExpression]

/-- A unary operator of a kind. -/
abbrev unarySign (k : Kind) (x : String) : Tree := .node .unaryOperator [.leaf k x]

/-- A binary operator of a kind. -/
abbrev binarySign (k : Kind) (x : String) : Tree := .node .binaryOperator [.leaf k x]

/-- A unary operator. -/
def unarySigns : Language Tree := {ts | ∃ k ∈ KindSet.unaryOperators, ∃ x, ts = [unarySign k x]}

/-- A binary operator. -/
def binarySigns : Language Tree := {ts | ∃ k ∈ KindSet.binaryOperators, ∃ x, ts = [binarySign k x]}

/-- An operand with any number of unary operators in front. -/
def signedAtom : Language Tree := unarySigns∗ * nodeOf atomKinds

/-- **Operands and operators in turn**: `unary* operand (binary unary* operand)*`. -/
def alternation : Language Tree := signedAtom * (binarySigns * signedAtom)∗

end Grammar

/-- **A way to group operands and operators.** -/
inductive Formula where
  | operand (t : Tree)
  | signed (k : Kind) (x : String) (f : Formula)
  | operated (l : Formula) (k : Kind) (x : String) (r : Formula)

namespace Formula

/-- The tree of a formula. -/
def tree : Formula → Tree
  | operand t => t
  | signed k x f => .node .unaryExpression [unarySign k x, f.tree]
  | operated l k x r => .node .binaryExpression [l.tree, binarySign k x, r.tree]

/-- The operands and operators of a formula, in order. -/
def row : Formula → List Tree
  | operand t => [t]
  | signed k x f => unarySign k x :: f.row
  | operated l k x r => l.row ++ binarySign k x :: r.row

/-- Every operand has a property in front of what follows it, which is of the kind `m` at the end. -/
def Over (A : Tree → Kind → Prop) : Formula → Kind → Prop
  | operand t, m => A t m
  | signed _ _ f, m => f.Over A m
  | operated l k _ r, m => l.Over A k ∧ r.Over A m

/-- Every operand is an atom, and every operator is one. -/
def WellFormed : Formula → Prop
  | operand t => [t] ∈ nodeOf atomKinds
  | signed k _ f => k ∈ KindSet.unaryOperators ∧ f.WellFormed
  | operated l k _ r => l.WellFormed ∧ k ∈ KindSet.binaryOperators ∧ r.WellFormed

/-- **Every operation of a formula is grouped as the table asks for.** -/
def Orderly : Formula → Prop
  | operand _ => True
  | signed _ _ f => f.Orderly ∧ FitsUnary f.tree
  | operated l k _ r => l.Orderly ∧ r.Orderly ∧ FitsLeft k l.tree ∧ FitsRight k r.tree

/-- How tightly the outermost operator of a formula binds. -/
def tight : Formula → Nat
  | operand _ => 12
  | signed .. => 10
  | operated _ k _ _ => rank k

/-- A well-formed formula in which every operand is tight enough for its side. -/
def Ranked : Formula → Prop
  | operand t => [t] ∈ nodeOf atomKinds
  | signed k _ f => k ∈ KindSet.unaryOperators ∧ f.Ranked ∧ 10 ≤ f.tight
  | operated l k _ r => k ∈ KindSet.binaryOperators ∧ l.Ranked ∧ r.Ranked ∧
      leftBound k ≤ l.tight ∧ rightBound k ≤ r.tight

variable {f g l r : Formula} {k o : Kind} {x y : String} {t : Tree} {ts : List Tree}

/-! ## Orderly formulas are ranked -/

theorem exists_tree_eq (h : f.WellFormed) : ∃ k cs, f.tree = .node k cs ∧ k ≠ .binaryOperator := by
  cases f with
  | operand t =>
    obtain ⟨k, hk, cs, ht⟩ := h
    refine ⟨k, cs, (List.cons.inj ht).1, ?_⟩
    rintro rfl
    exact absurd hk (by decide)
  | signed k x f => exact ⟨_, _, rfl, by decide⟩
  | operated l k x r => exact ⟨_, _, rfl, by decide⟩

theorem operatorIn?_operated (h : (operated l k x r).WellFormed) :
    operatorIn? (operated l k x r).tree = some k := by
  obtain ⟨m, cs, hl, hm⟩ := exists_tree_eq h.1
  rw [tree, operatorIn?, hl, operator?_cons hm]
  rfl

theorem operatorIn?_of_atom (h : [t] ∈ nodeOf atomKinds) : operatorIn? t = none ∧ tightness t = 12 := by
  obtain ⟨k, hk, cs, ht⟩ := h
  obtain rfl := (List.cons.inj ht).1
  have hbinary : k ≠ .binaryExpression := fun h => absurd (h ▸ hk) (by decide)
  have hunary : k ≠ .unaryExpression := fun h => absurd (h ▸ hk) (by decide)
  constructor
  · unfold operatorIn?
    split
    · rename_i heq
      exact absurd (Tree.node.inj heq).1 hbinary
    · rfl
  · unfold tightness
    split
    · rename_i heq
      exact absurd (Tree.node.inj heq).1 hbinary
    · rename_i heq
      exact absurd (Tree.node.inj heq).1 hunary
    · rfl

/-- The formula of a tree is as tight as the tree. -/
theorem tightness_tree (h : f.WellFormed) : tightness f.tree = f.tight := by
  cases f with
  | operand t => exact (operatorIn?_of_atom h).2
  | signed k x f => rfl
  | operated l k x r => exact tightness_of_operator (operatorIn?_operated h)

theorem mem_of_operatorIn? (h : f.WellFormed) (ho : o ∈ operatorIn? f.tree) :
    o ∈ KindSet.binaryOperators := by
  cases f with
  | operand t =>
    rw [tree, (operatorIn?_of_atom h).1] at ho
    cases ho
  | signed k x f => cases ho
  | operated l k x r =>
    rw [operatorIn?_operated h] at ho
    exact Option.some.inj ho ▸ h.2.1

theorem bounds_le : ∀ k ∈ Kind.all, leftBound k ≤ 12 ∧ rightBound k ≤ 10 ∧ rightBound k ≤ rank k + 1 := by
  decide +kernel

theorem fitsLeft_iff (h : f.WellFormed) (hk : k ∈ KindSet.binaryOperators) :
    FitsLeft k f.tree ↔ leftBound k ≤ f.tight := by
  constructor
  · intro hfits
    cases f with
    | operand t => exact (bounds_le k (Kind.mem_all k)).1
    | signed o y f =>
      have hlt := (rank_of_binary k (Kind.mem_all k) hk).resolve_right fun hk => (hfits.2 hk).2 rfl
      exact (leftBound_le_iff hlt).2 (.inl hlt)
    | operated l o y r =>
      have hlt := (rank_of_binary k (Kind.mem_all k) hk).resolve_right fun hk => (hfits.2 hk).1 rfl
      exact (leftBound_le_iff hlt).2 (hfits.1 o (operatorIn?_operated h))
  · intro hle
    obtain ⟨m, cs, ht, -⟩ := exists_tree_eq h
    rw [← tightness_tree h] at hle
    rw [ht] at hle ⊢
    exact fitsLeft_of_le hk hle

theorem fitsUnary_iff (h : f.WellFormed) : FitsUnary f.tree ↔ 10 ≤ f.tight := by
  constructor
  · intro hfits
    cases f with
    | operand t => exact (by decide : 10 ≤ 12)
    | signed o y f => exact le_refl 10
    | operated l o y r =>
      obtain rfl := hfits o (operatorIn?_operated h)
      exact (by decide : 10 ≤ rank .caret)
  · intro hle
    exact fitsUnary_of_le (fun o => mem_of_operatorIn? h) (hle.trans_eq (tightness_tree h).symm)

theorem fitsRight_iff (h : f.WellFormed) (hk : k ∈ KindSet.binaryOperators) :
    FitsRight k f.tree ↔ rightBound k ≤ f.tight := by
  constructor
  · intro hfits
    have hle := (bounds_le k (Kind.mem_all k)).2.1
    cases f with
    | operand t => exact hle.trans (by decide : 10 ≤ 12)
    | signed o y f => exact hle
    | operated l o y r =>
      have ho := hfits o (operatorIn?_operated h)
      rcases rank_of_binary k (Kind.mem_all k) hk with hlt | rfl
      · exact (rightBound_le_iff hlt).2 ho
      · rw [caret_bounds.1] at ho
        rw [caret_bounds.2.2, tight]
        omega
  · intro hle
    exact fitsRight_of_le hk (fun o => mem_of_operatorIn? h) (hle.trans_eq (tightness_tree h).symm)

/-- **A formula is ranked if it is well-formed and orderly.** -/
theorem ranked_iff : f.Ranked ↔ f.WellFormed ∧ f.Orderly := by
  induction f with
  | operand t => exact (and_iff_left trivial).symm
  | signed k x f ih =>
    rw [Ranked, WellFormed, Orderly, ih]
    constructor
    · rintro ⟨hk, ⟨hw, ho⟩, hle⟩
      exact ⟨⟨hk, hw⟩, ho, (fitsUnary_iff hw).2 hle⟩
    · rintro ⟨⟨hk, hw⟩, ho, hfits⟩
      exact ⟨hk, ⟨hw, ho⟩, (fitsUnary_iff hw).1 hfits⟩
  | operated l k x r ihl ihr =>
    rw [Ranked, WellFormed, Orderly, ihl, ihr]
    constructor
    · rintro ⟨hk, ⟨hwl, hol⟩, ⟨hwr, hor⟩, hleft, hright⟩
      exact ⟨⟨hwl, hk, hwr⟩, hol, hor, (fitsLeft_iff hwl hk).2 hleft, (fitsRight_iff hwr hk).2 hright⟩
    · rintro ⟨⟨hwl, hk, hwr⟩, hol, hor, hleft, hright⟩
      exact ⟨hk, ⟨hwl, hol⟩, ⟨hwr, hor⟩, (fitsLeft_iff hwl hk).1 hleft, (fitsRight_iff hwr hk).1 hright⟩

/-! ## Putting formulas together -/

/-- A formula behind one more unary operator. -/
def sign (k : Kind) (x : String) : Formula → Formula
  | operated l o y r =>
    if rank o < 10 then operated (sign k x l) o y r else signed k x (operated l o y r)
  | f => signed k x f

/-- A formula behind one more operand and a binary operator. -/
def attach (t : Tree) (k : Kind) (x : String) : Formula → Formula
  | operated l o y r =>
    if rank o < rightBound k then operated (attach t k x l) o y r
    else operated (operand t) k x (operated l o y r)
  | f => operated (operand t) k x f

theorem sign_eq (h : 10 ≤ f.tight) : f.sign k x = signed k x f := by
  cases f with
  | operand t => rfl
  | signed o y f => rfl
  | operated l o y r => exact if_neg (not_lt.2 h)

theorem attach_eq (h : rightBound k ≤ f.tight) : f.attach t k x = operated (operand t) k x f := by
  cases f with
  | operand u => rfl
  | signed o y f => rfl
  | operated l o y r => exact if_neg (not_lt.2 h)

theorem row_sign : (f.sign k x).row = unarySign k x :: f.row := by
  induction f with
  | operand t => rfl
  | signed o y f => rfl
  | operated l o y r ihl =>
    rw [sign]
    split
    · rw [row, ihl, row, List.cons_append]
    · rfl

theorem row_attach : (f.attach t k x).row = t :: binarySign k x :: f.row := by
  induction f with
  | operand t => rfl
  | signed o y f => rfl
  | operated l o y r ihl =>
    rw [attach]
    split
    · rw [row, ihl, row, List.cons_append, List.cons_append]
    · rfl

theorem tight_sign (h : f.Ranked) : (f.sign k x).tight = min 10 f.tight := by
  cases f with
  | operand t => rfl
  | signed o y f => rfl
  | operated l o y r =>
    rw [sign]
    split
    · exact (Nat.min_eq_right (by assumption : rank o < 10).le).symm
    · exact (Nat.min_eq_left (not_lt.1 ‹_›)).symm

theorem tight_attach :
    (f.attach t k x).tight = if f.tight < rightBound k then f.tight else rank k := by
  have hle := (bounds_le k (Kind.mem_all k)).2.1
  cases f with
  | operand u => exact (if_neg (hle.trans (by decide : 10 ≤ 12)).not_gt).symm
  | signed o y f => exact (if_neg hle.not_gt).symm
  | operated l o y r =>
    rw [attach, tight]
    split <;> rfl

/-! The bounds of two operators, one on the left of the other. -/

theorem bounds_of_left : ∀ o ∈ Kind.all, o ∈ KindSet.binaryOperators → ∀ k ∈ Kind.all,
    k ∈ KindSet.binaryOperators → (rank o < rightBound k ↔ leftBound o ≤ rank k) ∧
      (rank o < rightBound k → leftBound o ≤ rightBound k) := by
  decide +kernel

theorem ranked_sign (hk : k ∈ KindSet.unaryOperators) (h : f.Ranked) : (f.sign k x).Ranked := by
  induction f with
  | operand t => exact ⟨hk, h, (by decide : 10 ≤ 12)⟩
  | signed o y f => exact ⟨hk, h, le_refl 10⟩
  | operated l o y r ihl =>
    obtain ⟨ho, hl, hr, hleft, hright⟩ := id h
    rw [sign]
    split
    · rename_i hlt
      refine ⟨ho, ihl hl, hr, ?_, hright⟩
      have hle : leftBound o ≤ 10 := (leftBound_le_iff hlt).2 (.inl hlt)
      rw [tight_sign hl]
      exact le_min hle hleft
    · rename_i hle
      exact ⟨hk, h, not_lt.1 hle⟩

theorem ranked_attach (ht : [t] ∈ nodeOf atomKinds) (hk : k ∈ KindSet.binaryOperators) (h : f.Ranked) :
    (f.attach t k x).Ranked := by
  obtain ⟨hle, hle', -⟩ := bounds_le k (Kind.mem_all k)
  induction f with
  | operand u => exact ⟨hk, ht, h, hle, hle'.trans (by decide : 10 ≤ 12)⟩
  | signed o y f => exact ⟨hk, ht, h, hle, hle'⟩
  | operated l o y r ihl =>
    obtain ⟨ho, hl, hr, hleft, hright⟩ := id h
    rw [attach]
    split
    · rename_i hlt
      refine ⟨ho, ihl hl, hr, ?_, hright⟩
      rw [tight_attach]
      split
      · exact hleft
      · exact (bounds_of_left o (Kind.mem_all o) ho k (Kind.mem_all k) hk).1.1 hlt
    · rename_i hge
      exact ⟨hk, ht, h, hle, not_lt.1 hge⟩

/-! ## Taking formulas apart -/

/-- **How a ranked formula begins**: it is an operand, or it was put together from its first unary
operator or operand and a ranked formula of the rest of the row. -/
theorem peel (h : f.Ranked) : (∃ t, [t] ∈ nodeOf atomKinds ∧ f = operand t) ∨
    (∃ (k : Kind) (x : String) (g : Formula), g.Ranked ∧ f = g.sign k x) ∨
    ∃ (t : Tree) (k : Kind) (x : String) (g : Formula), [t] ∈ nodeOf atomKinds ∧
      k ∈ KindSet.binaryOperators ∧ g.Ranked ∧ f = g.attach t k x := by
  induction f with
  | operand t => exact .inl ⟨t, h, rfl⟩
  | signed k x f =>
    obtain ⟨-, hf, hle⟩ := h
    exact .inr (.inl ⟨k, x, f, hf, (sign_eq hle).symm⟩)
  | operated l o y r ihl =>
    obtain ⟨ho, hl, hr, hleft, hright⟩ := h
    -- the whole begins as its left operand does, and what that is without it is still tight enough
    rcases ihl hl with ⟨t, ht, rfl⟩ | ⟨k, x, g, hg, rfl⟩ | ⟨t, k, x, g, ht, hk, hg, rfl⟩
    · exact .inr (.inr ⟨t, o, y, r, ht, ho, hr, (attach_eq hright).symm⟩)
    · rw [tight_sign hg, le_min_iff] at hleft
      have hlt : rank o < 10 := (rank_of_binary o (Kind.mem_all o) ho).resolve_right fun h => by
        rw [h] at hleft
        exact absurd hleft.1 (by decide)
      refine .inr (.inl ⟨k, x, operated g o y r, ⟨ho, hg, hr, hleft.2, hright⟩, ?_⟩)
      rw [sign, if_pos hlt]
    · obtain ⟨-, -, hle⟩ := bounds_le k (Kind.mem_all k)
      obtain ⟨hiff, hbound⟩ := bounds_of_left o (Kind.mem_all o) ho k (Kind.mem_all k) hk
      rw [tight_attach] at hleft
      have hlt : rank o < rightBound k := by
        refine hiff.2 ?_
        split at hleft <;> omega
      have hg' : leftBound o ≤ g.tight := by
        have := hbound hlt
        split at hleft <;> omega
      refine .inr (.inr ⟨t, k, x, operated g o y r, ht, hk, ⟨ho, hg, hr, hg', hright⟩, ?_⟩)
      rw [attach, if_pos hlt]

theorem row_ne_nil (f : Formula) : f.row ≠ [] := by
  cases f <;> simp [row]

theorem unarySign_not_atom : [unarySign k x] ∉ nodeOf atomKinds := by
  rintro ⟨l, hl, cs, heq⟩
  obtain rfl := (Tree.node.inj (List.cons.inj heq).1).1
  exact absurd hl (by decide)

/-- **A row has one ranked formula at the most**: two of them begin alike, and so do their rests. -/
theorem eq_of_row_eq (hf : f.Ranked) (hg : g.Ranked) (heq : f.row = g.row) : f = g := by
  induction hn : f.row.length using Nat.strong_induction_on generalizing f g with
  | _ n ih =>
    -- what both were put together from is read off the row, so they were put together alike
    rcases peel hf with ⟨t, ht, rfl⟩ | ⟨k, x, f', hf', rfl⟩ | ⟨t, k, x, f', ht, -, hf', rfl⟩ <;>
      rcases peel hg with ⟨u, hu, rfl⟩ | ⟨o, y, g', hg', rfl⟩ | ⟨u, o, y, g', hu, -, hg', rfl⟩ <;>
      simp only [row, row_sign, row_attach, List.cons.injEq, List.length_cons] at heq hn
    case inl.inl => rw [heq.1]
    case inl.inr.inl => exact absurd heq.2.symm (row_ne_nil g')
    case inl.inr.inr => exact absurd heq.2.symm (List.cons_ne_nil _ _)
    case inr.inl.inl => exact absurd heq.2 (row_ne_nil f')
    case inr.inl.inr.inl =>
      obtain ⟨rfl, rfl⟩ : k = o ∧ x = y := by simpa [unarySign] using heq.1
      rw [ih f'.row.length (by omega) hf' hg' heq.2 rfl]
    case inr.inl.inr.inr => exact absurd (heq.1 ▸ hu) unarySign_not_atom
    case inr.inr.inl => exact absurd heq.2 (List.cons_ne_nil _ _)
    case inr.inr.inr.inl => exact absurd (heq.1 ▸ ht) unarySign_not_atom
    case inr.inr.inr.inr =>
      obtain ⟨rfl, hsign, hrow⟩ := heq
      obtain ⟨rfl, rfl⟩ : k = o ∧ x = y := by simpa [binarySign] using hsign
      rw [ih f'.row.length (by omega) hf' hg' hrow rfl]

/-! ## Rows -/

theorem exists_of_signs {signs : List Tree} (hsigns : signs ∈ unarySigns∗) (h : f.Ranked) :
    ∃ g : Formula, g.Ranked ∧ g.row = signs ++ f.row := by
  obtain ⟨rows, rfl, hrows⟩ := Language.mem_kstar.1 hsigns
  clear hsigns
  induction rows with
  | nil => exact ⟨f, h, rfl⟩
  | cons s rows ih =>
    obtain ⟨⟨k, hk, x, hs⟩, hrest⟩ := List.forall_mem_cons.1 hrows
    obtain ⟨g, hg, hrow⟩ := ih hrest
    exact ⟨g.sign k x, ranked_sign hk hg, by rw [row_sign, hrow, hs]; rfl⟩

/-- Behind an operand the rest of a row is grouped from its end to its beginning. -/
theorem exists_of_operand {rest : List Tree} (hrest : rest ∈ (binarySigns * signedAtom)∗)
    (ht : [t] ∈ nodeOf atomKinds) : ∃ f : Formula, f.Ranked ∧ f.row = t :: rest := by
  obtain ⟨rows, rfl, hrows⟩ := Language.mem_kstar.1 hrest
  clear hrest
  induction rows generalizing t with
  | nil => exact ⟨operand t, ht, rfl⟩
  | cons row rows ih =>
    obtain ⟨⟨_, ⟨o, ho, y, rfl⟩, _, ⟨signs, hsigns, _, ⟨m, hm, ms, rfl⟩, rfl⟩, hrow⟩, hrest⟩ :=
      List.forall_mem_cons.1 hrows
    obtain ⟨f, hf, hrowf⟩ := ih ⟨m, hm, ms, rfl⟩ hrest
    obtain ⟨g, hg, hrowg⟩ := exists_of_signs hsigns hf
    refine ⟨g.attach t o y, ranked_attach ht ho hg, ?_⟩
    rw [row_attach, hrowg, hrowf, List.flatten_cons, ← hrow]
    simp

/-- **Every row of operands and operators in turn is that of a ranked formula.** -/
theorem exists_of_alternation (h : ts ∈ alternation) : ∃ f : Formula, f.Ranked ∧ f.row = ts := by
  obtain ⟨_, ⟨signs, hsigns, _, ⟨k, hk, cs, rfl⟩, rfl⟩, rest, hrest, rfl⟩ := h
  obtain ⟨f, hf, hrowf⟩ := exists_of_operand hrest ⟨k, hk, cs, rfl⟩
  obtain ⟨g, hg, hrowg⟩ := exists_of_signs hsigns hf
  exact ⟨g, hg, by rw [hrowg, hrowf]; simp⟩

/-- **The row of a well-formed formula has operands and operators in turn.** -/
theorem row_mem_alternation (h : f.WellFormed) : f.row ∈ alternation := by
  induction f with
  | operand t =>
    have hatom : nodeOf atomKinds ≤ alternation :=
      (le_mul_of_one_le_left' one_le_kstar).trans (le_mul_of_one_le_right' one_le_kstar)
    exact hatom h
  | signed k x f ih =>
    have hle : unarySigns * alternation ≤ alternation := by
      rw [alternation, signedAtom, ← mul_assoc, ← mul_assoc]
      exact mul_le_mul_left (mul_le_mul_left mul_kstar_le_kstar _) _
    exact hle ⟨_, ⟨k, h.1, x, rfl⟩, _, ih h.2, rfl⟩
  | operated l k x r ihl ihr =>
    have hle : alternation * (binarySigns * alternation) ≤ alternation := by
      rw [alternation, ← mul_assoc binarySigns, mul_assoc signedAtom]
      refine mul_le_mul_right ?_ _
      calc (binarySigns * signedAtom)∗ * (binarySigns * signedAtom * (binarySigns * signedAtom)∗)
          ≤ (binarySigns * signedAtom)∗ * (binarySigns * signedAtom)∗ := mul_le_mul_right mul_kstar_le_kstar _
        _ = (binarySigns * signedAtom)∗ := kstar_mul_kstar _
    exact hle ⟨_, ihl h.1, _, ⟨_, ⟨k, h.2.1, x, rfl⟩, _, ihr h.2.2, rfl⟩, rfl⟩

/-- **A row of operands and operators is grouped in exactly one way that the table asks for.** -/
theorem existsUnique_formula (h : ts ∈ alternation) :
    ∃! f : Formula, f.WellFormed ∧ f.Orderly ∧ f.row = ts := by
  obtain ⟨f, hf, hrow⟩ := exists_of_alternation h
  obtain ⟨hwell, horderly⟩ := ranked_iff.1 hf
  refine ⟨f, ⟨hwell, horderly, hrow⟩, ?_⟩
  rintro g ⟨hwell', horderly', hrow'⟩
  exact eq_of_row_eq (ranked_iff.2 ⟨hwell', horderly'⟩) hf (hrow'.trans hrow.symm)

end Formula

end LuaTree
