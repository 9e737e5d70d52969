import LuaTree.Proofs.Grammar

/-!
# Proofs/Inclusion — which rows of trees count as which

The languages of `Proofs/Grammar` are compared by `≤`, so that the row collected by a production can be
read as the children of its node, and the finished node as what the node around it asks for.
-/

namespace LuaTree.Grammar

open Computability

variable {gaps : Bool}

theorem mem_kstar_of_forall {L : Language Tree} {ts : List Tree} (h : ∀ t ∈ ts, [t] ∈ L) : ts ∈ L∗ :=
  Language.mem_kstar.2 ⟨ts.map ([·]), by simp [← List.flatMap_def], by simpa using h⟩

/-! ## Nodes that the grammar does not see -/

theorem isError_node {k : Kind} {cs : List Tree} (h : k ≠ .error) : isError (.node k cs) = false := by
  unfold isError
  split
  · rename_i heq
    exact absurd (Tree.node.inj heq).1 h
  · rfl

theorem findSome?_clear {α : Type} {f : Tree → Option α} (hf : ∀ cs, f (.node .error cs) = none)
    (ts : List Tree) : (clear ts).findSome? f = ts.findSome? f := by
  induction ts with
  | nil => rfl
  | cons t ts ih =>
    rw [clear] at ih ⊢
    by_cases ht : isError t
    · obtain ⟨cs, rfl⟩ : ∃ cs, t = .node .error cs := by
        unfold isError at ht
        split at ht
        · exact ⟨_, rfl⟩
        · simp at ht
      rw [List.filter_cons_of_neg (by simp [ht]), ih, List.findSome?_cons, hf]
    · rw [List.filter_cons_of_pos (by simp [ht]), List.findSome?_cons, List.findSome?_cons, ih]

/-! ## Tokens and nodes -/

theorem token_le_tokenOf {k : Kind} {set : KindSet} (h : k ∈ set) : token k ≤ tokenOf set := by
  rintro _ ⟨s, rfl⟩
  exact ⟨k, h, s, rfl⟩

theorem around_le_node {k : Kind} {L : Language Tree} : around k L ≤ node k := by
  rintro _ ⟨cs, rfl, -⟩
  exact ⟨cs, rfl⟩

theorem node_le_nodeOf {k : Kind} {ks : List Kind} (hk : k ∈ ks) : node k ≤ nodeOf ks := by
  rintro _ ⟨cs, rfl⟩
  exact ⟨k, hk, cs, rfl⟩

theorem around_le_nodeOf {k : Kind} {ks : List Kind} {L : Language Tree} (hk : k ∈ ks) :
    around k L ≤ nodeOf ks := by
  rintro _ ⟨cs, rfl, -⟩
  exact ⟨k, hk, cs, rfl⟩

/-- Rows without a token of a kind. -/
def free (k : Kind) : Language Tree := {ts | ∀ t ∈ ts, t.kind ≠ k}

theorem mul_le_free {k : Kind} {L M : Language Tree} (hL : L ≤ free k) (hM : M ≤ free k) :
    L * M ≤ free k := by
  rintro _ ⟨ts, hts, us, hus, rfl⟩ t ht
  rcases List.mem_append.1 ht with h | h
  · exact hL hts t h
  · exact hM hus t h

theorem kstar_le_free {k : Kind} {L : Language Tree} (hL : L ≤ free k) : L∗ ≤ free k := by
  intro ts hts t ht
  obtain ⟨rows, rfl, hrows⟩ := Language.mem_kstar.1 hts
  obtain ⟨row, hrow, ht⟩ := List.mem_flatten.1 ht
  exact hL (hrows row hrow) t ht

theorem token_le_free {k l : Kind} (h : l ≠ k) : token l ≤ free k := by
  rintro _ ⟨s, rfl⟩ t ht
  obtain rfl := List.mem_singleton.1 ht
  exact h

theorem nodeOf_le_free {k : Kind} {ks : List Kind} (h : k ∉ ks) : nodeOf ks ≤ free k := by
  rintro _ ⟨l, hl, cs, rfl⟩ t ht
  obtain rfl := List.mem_singleton.1 ht
  exact fun (hk : l = k) => h (hk ▸ hl)

/-! ## Gaps -/

theorem le_hole {L : Language Tree} : L ≤ hole gaps L := by
  cases gaps with
  | false => exact le_refl L
  | true => exact le_add_self

theorem hole_mono {L M : Language Tree} (h : L ≤ M) : hole gaps L ≤ hole gaps M := by
  cases gaps with
  | false => exact h
  | true => exact add_le_add_right h 1

/-- What was reported may be missing. -/
theorem one_le_hole {L : Language Tree} : 1 ≤ hole true L := le_self_add

theorem hole_le_free {k : Kind} {L : Language Tree} (h : L ≤ free k) : hole gaps L ≤ free k := by
  cases gaps with
  | false => exact h
  | true =>
    rintro ts (rfl | hts)
    · exact fun _ ht => absurd ht List.not_mem_nil
    · exact h hts

theorem one_le_extra {L : Language Tree} : 1 ≤ extra gaps L := by
  cases gaps with
  | false => exact le_refl 1
  | true => exact le_self_add

theorem le_extra {L : Language Tree} : L ≤ extra true L := le_add_self

/-! ## Rows of names -/

theorem name_le_someNames : node .name ≤ someNames := le_mul_of_one_le_right' one_le_kstar

theorem someNames_mul_le : someNames * token .comma * node .name ≤ someNames := by
  rw [someNames, mul_assoc, mul_assoc]
  exact mul_le_mul_right kstar_mul_le_kstar _

/-! ## Chains -/

theorem chain_le_nodeOf : chain gaps ≤ nodeOf chainKinds := by
  rintro _ ⟨k, hk, cs, rfl, -⟩
  exact ⟨k, hk, cs, rfl⟩

theorem around_le_chain {k : Kind} {L : Language Tree} (hk : k ∈ chainKinds)
    (hL : k = .indexExpression → L ≤ free .colon ∨ gaps) : around k L ≤ chain gaps := by
  rintro _ ⟨cs, rfl, hcs⟩
  refine ⟨k, hk, cs, rfl, fun hmethod => ?_⟩
  obtain rfl : k = .indexExpression := by
    unfold isMethod at hmethod
    split at hmethod
    · rename_i h
      exact (Tree.node.inj h).1
    · simp at hmethod
  refine (hL rfl).resolve_left fun hfree => ?_
  obtain ⟨t, ht, hcolon⟩ := List.any_eq_true.1 hmethod
  have hcolon : t.kind = .colon := by simpa using hcolon
  refine hfree hcs t (List.mem_filter.2 ⟨ht, ?_⟩) hcolon
  cases t with
  | leaf => rfl
  | node k cs => rw [isError_node (fun hk => by simp [Tree.kind, hk] at hcolon)]; rfl

theorem dot_le_selector : token .dot * hole gaps (token .ident) ≤ selector gaps :=
  le_self_add.trans le_self_add

theorem colon_le_selector : token .colon * hole gaps (token .ident) ≤ selector gaps :=
  le_add_self.trans le_self_add

theorem bracket_le_selector :
    token .bracketOpen * hole gaps (expression gaps) * hole gaps (token .bracketClose) ≤
      selector gaps :=
  le_add_self

/-! ## Operations -/

theorem operand_le_free {rank : Nat} {k : Kind} (h : k ∉ expressionKinds) : operand gaps rank ≤ free k := by
  rintro _ ⟨l, hl, cs, rfl, -⟩ t ht
  obtain rfl := List.mem_singleton.1 ht
  exact fun (hk : l = k) => h (hk ▸ hl)

theorem operand_anti {m n : Nat} (h : m ≤ n) : operand gaps n ≤ operand gaps m := by
  rintro _ ⟨k, hk, cs, rfl, hmethod, hn⟩
  exact ⟨k, hk, cs, rfl, hmethod, h.trans hn⟩

theorem chain_le_operand : chain gaps ≤ operand gaps 12 := by
  rintro _ ⟨k, hk, cs, rfl, hmethod⟩
  refine ⟨k, List.mem_append_left _ (List.mem_append_left _ hk), cs, rfl, hmethod, ?_⟩
  unfold tightness
  split
  · rename_i h
    rw [(Tree.node.inj h).1] at hk
    exact absurd hk (by decide)
  · rename_i h
    rw [(Tree.node.inj h).1] at hk
    exact absurd hk (by decide)
  · exact le_refl 12

/-- Everything but operations is as tight as can be. -/
theorem around_le_operand {k : Kind} {L : Language Tree} (hk : k ∈ expressionKinds)
    (hbinary : k ≠ .binaryExpression) (hunary : k ≠ .unaryExpression) (hindex : k ≠ .indexExpression) :
    around k L ≤ operand gaps 12 := by
  rintro _ ⟨cs, rfl, -⟩
  refine ⟨k, hk, cs, rfl, fun hmethod => ?_, ?_⟩
  · unfold isMethod at hmethod
    split at hmethod
    · rename_i h
      exact absurd (Tree.node.inj h).1 hindex
    · simp at hmethod
  · unfold tightness
    split
    · rename_i h
      exact absurd (Tree.node.inj h).1 hbinary
    · rename_i h
      exact absurd (Tree.node.inj h).1 hunary
    · exact le_refl 12

theorem around_unary_le_operand {L : Language Tree} : around .unaryExpression L ≤ operand gaps 10 := by
  rintro _ ⟨cs, rfl, -⟩
  exact ⟨_, by decide, cs, rfl, by simp [isMethod], le_refl 10⟩

theorem around_le_operatorOf {k : Kind} : around .binaryOperator (token k) ≤ operatorOf k := by
  rintro _ ⟨cs, rfl, s, hcs⟩
  refine ⟨cs, rfl, ?_⟩
  rw [← findSome?_clear (fun _ => rfl), hcs]
  rfl

theorem binaryOf_le {k : Kind} (hk : k ∈ KindSet.binaryOperators) :
    binaryOf gaps k ≤ production gaps .binaryExpression :=
  fun _ hts => ⟨k, hk, hts⟩

/-- An operand is no operator. -/
theorem operator?_cons {l : Kind} {ls ts : List Tree} (hl : l ≠ .binaryOperator) :
    operator? (.node l ls :: ts) = operator? ts := by
  rw [operator?, List.findSome?_cons_of_isNone]
  · rfl
  · split
    · rename_i h
      exact absurd (Tree.node.inj h).1 hl
    · rfl

/-- The operator of a binary expression is found among its children. -/
theorem operator?_of_binaryOf {k : Kind} {cs : List Tree} (h : clear cs ∈ binaryOf gaps k) :
    operator? cs = some k := by
  obtain ⟨_, ⟨_, ⟨l, hl, ds, rfl, -⟩, _, ⟨es, rfl, hes⟩, rfl⟩, us, hus, hcs⟩ := h
  have hleft : l ≠ .binaryOperator := fun h => absurd (h ▸ hl) (by decide)
  rw [operator?, ← findSome?_clear (fun _ => rfl), ← hcs, ← operator?]
  change operator? (.node l ds :: .node .binaryOperator es :: us) = _
  rw [operator?_cons hleft, operator?, List.findSome?_cons]
  simp [hes]

/-- A binary expression is as tight as its operator. -/
theorem around_binary_le_operand {k : Kind} :
    around .binaryExpression (binaryOf gaps k) ≤ operand gaps (rank k) := by
  rintro _ ⟨cs, rfl, hcs⟩
  refine ⟨_, by decide, cs, rfl, by simp [isMethod], ?_⟩
  rw [tightness, operator?_of_binaryOf hcs]
  exact le_refl _

end LuaTree.Grammar
