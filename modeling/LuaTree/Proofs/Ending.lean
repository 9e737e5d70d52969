import LuaTree.Proofs.Parse

/-!
# Proofs/Ending — how the leaves of a tree end

A semicolon ends the trees of few kinds: a `return`, a list of statements, and what ends with a block.  These
stand at the end of one another only; so where nothing is missing, no other tree ends with a semicolon, and in
particular no other statement does.
-/

namespace LuaTree

namespace Grammar

open Computability

/-- What a semicolon may end. -/
def trailing : List Kind :=
  [.semicolon, .tableFieldSeparator, .returnStatement, .statementList, .block, .chunk, .thenBranch, .elseifBranch,
    .elseBranch]

/-- Rows that end with a tree of no such kind. -/
def ended : Language Tree := {ts | ∃ t ∈ ts.getLast?, t.kind ∉ trailing}

variable {k : Kind} {L M : Language Tree}

theorem single_le_ended (h : ∀ ts ∈ L, ∃ t, ts = [t] ∧ t.kind ∉ trailing) : L ≤ ended := by
  intro ts hts
  obtain ⟨t, rfl, ht⟩ := h ts hts
  exact ⟨t, rfl, ht⟩

theorem token_le_ended (h : k ∉ trailing) : token k ≤ ended :=
  single_le_ended fun _ ⟨x, hts⟩ => ⟨.leaf k x, hts, h⟩

theorem tokenOf_le_ended {set : KindSet} (h : ∀ k ∈ Kind.all, k ∈ set → k ∉ trailing) : tokenOf set ≤ ended :=
  single_le_ended fun _ ⟨k, hk, x, hts⟩ => ⟨.leaf k x, hts, h k (Kind.mem_all k) hk⟩

theorem node_le_ended (h : k ∉ trailing) : node k ≤ ended :=
  single_le_ended fun _ ⟨cs, hts⟩ => ⟨.node k cs, hts, h⟩

theorem chain_le_ended : Grammar.chain false ≤ ended :=
  single_le_ended fun _ ⟨k, hk, cs, hts, _⟩ =>
    ⟨.node k cs, hts, (by decide : ∀ k ∈ chainKinds, k ∉ trailing) k hk⟩

theorem target_le_ended : target false ≤ ended := fun _ h => chain_le_ended h.1

theorem operand_le_ended {rank : Nat} : operand false rank ≤ ended :=
  single_le_ended fun _ ⟨k, hk, cs, hts, _⟩ =>
    ⟨.node k cs, hts, (by decide : ∀ k ∈ expressionKinds, k ∉ trailing) k hk⟩

theorem mul_le_ended (h : M ≤ ended) : L * M ≤ ended := by
  rintro _ ⟨ts, -, us, hus, rfl⟩
  obtain ⟨t, ht, hkind⟩ := h hus
  exact ⟨t, by simp [List.getLast?_append, show us.getLast? = some t from ht], hkind⟩

theorem mul_one_add_le_ended (hL : L ≤ ended) (hM : M ≤ ended) : L * (1 + M) ≤ ended := by
  rw [mul_add, mul_one]
  exact add_le hL (mul_le_ended hM)

theorem mul_kstar_le_ended (hL : L ≤ ended) (hM : M ≤ ended) : L * M∗ ≤ ended := mul_kstar_le hL (mul_le_ended hM)

theorem mul_extra_le_ended (hL : L ≤ ended) : L * extra false M ≤ ended := (mul_one L).symm ▸ hL

theorem binary_le_ended : binary false ≤ ended := by
  rintro ts ⟨k, -, hts⟩
  exact mul_le_ended operand_le_ended hts

/-- **What stands last in a node that no semicolon may end.** -/
theorem production_le_ended (hk : k ∉ trailing) : production false k ≤ ended := by
  cases k <;> first
    | exact absurd (by decide) hk
    | exact (by repeat first
      | exact bot_le
      | exact token_le_ended (by decide)
      | exact tokenOf_le_ended (by decide +kernel)
      | exact node_le_ended (by decide)
      | exact chain_le_ended
      | exact target_le_ended
      | exact operand_le_ended
      | exact binary_le_ended
      | refine mul_extra_le_ended ?_
      | refine mul_one_add_le_ended ?_ ?_
      | refine mul_kstar_le_ended ?_ ?_
      | refine mul_le_ended ?_
      | refine add_le ?_ ?_)

end Grammar

open LuaTree.Parser Grammar

mutual

/-- **No other tree ends with a semicolon**, if nothing is missing. -/
theorem Tree.Conforms.ended : ∀ {t : Tree}, t.Conforms false → t.kind ∉ trailing →
    ∃ l ∈ t.leaves.getLast?, l.1 ≠ .semicolon
  | .leaf k x, _, hk => ⟨(k, x), rfl, fun (h : k = .semicolon) => hk (h ▸ List.mem_cons_self)⟩
  | .node k cs, h, hk => by
    have hcs : clear cs ∈ production false k := h.1
    rw [(Tree.Conforms.derivesInList h.2).2] at hcs
    obtain ⟨t, ht, hkind⟩ := production_le_ended hk hcs
    exact endedInList h.2 t ht hkind

theorem Tree.Conforms.endedInList : ∀ {ts : List Tree}, ConformInList false ts → ∀ t ∈ ts.getLast?,
    t.kind ∉ trailing → ∃ l ∈ (Tree.leavesOfList ts).getLast?, l.1 ≠ .semicolon
  | [t], h, _, rfl, hk => by
    rw [Tree.leavesOfList, Tree.leavesOfList, List.append_nil]
    exact ended h.1 hk
  | t :: u :: ts, h, v, hv, hk => by
    obtain ⟨l, hl, hne⟩ := endedInList h.2 v hv hk
    refine ⟨l, ?_, hne⟩
    rw [Tree.leavesOfList, List.getLast?_append, show (Tree.leavesOfList (u :: ts)).getLast? = some l from hl]
    rfl

end

end LuaTree
