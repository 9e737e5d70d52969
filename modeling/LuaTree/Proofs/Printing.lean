import LuaTree.Proofs.Parse
import LuaTree.Proofs.Writing.Chunk

/-!
# Proofs/Printing — parsing undoes printing

A tree of the grammar is printed as its leaves, with any blanks, line breaks and finished comments
between them.  Wherever a semicolon follows every statement but a final `return`, nothing of the tree is
lost by that: the parse reports nothing and gives the tree back (`parse_printed`).
-/

namespace LuaTree

open LuaTree.Parser Grammar Computability

variable {tokens : List Token} {source : String} {t : Tree} {cs : List Tree}

/-! ## Leaves -/

namespace Grammar

/-- Rows in which every leaf is a token that the grammar sees. -/
def seen : Language Tree := {ts | ∀ t ∈ ts, ∀ k ∈ leafKind? t, k.isToken ∧ k.isSignificant}

theorem one_le_seen : 1 ≤ seen := by
  rintro _ rfl
  exact fun _ ht => absurd ht List.not_mem_nil

theorem mul_le_seen {L M : Language Tree} (hL : L ≤ seen) (hM : M ≤ seen) : L * M ≤ seen := by
  rintro _ ⟨ts, hts, us, hus, rfl⟩ t ht
  exact (List.mem_append.1 ht).elim (hL hts t) (hM hus t)

theorem kstar_le_seen {L : Language Tree} (hL : L ≤ seen) : L∗ ≤ seen := by
  intro ts hts t ht
  obtain ⟨rows, rfl, hrows⟩ := Language.mem_kstar.1 hts
  obtain ⟨row, hrow, ht⟩ := List.mem_flatten.1 ht
  exact hL (hrows row hrow) t ht

theorem tokenOf_le_seen {set : KindSet} (h : ∀ k ∈ Kind.all, k ∈ set → k.isToken ∧ k.isSignificant) :
    tokenOf set ≤ seen := by
  rintro _ ⟨k, hk, x, rfl⟩ t ht l hl
  obtain rfl := List.mem_singleton.1 ht
  obtain rfl := Option.some.inj hl
  exact h k (Kind.mem_all k) hk

theorem token_le_seen {k : Kind} (h : k.isToken ∧ k.isSignificant) : token k ≤ seen := by
  rintro _ ⟨x, rfl⟩ t ht l hl
  obtain rfl := List.mem_singleton.1 ht
  obtain rfl := Option.some.inj hl
  exact h

theorem nodes_le_seen {L : Language Tree} (h : ∀ ts ∈ L, ∃ k cs, ts = [.node k cs]) : L ≤ seen := by
  intro ts hts t ht l hl
  obtain ⟨k, cs, rfl⟩ := h ts hts
  rw [List.mem_singleton.1 ht] at hl
  cases hl

theorem node_le_seen {k : Kind} : node k ≤ seen :=
  nodes_le_seen fun _ ⟨cs, h⟩ => ⟨k, cs, h⟩

theorem nodeOf_le_seen {ks : List Kind} : nodeOf ks ≤ seen :=
  nodes_le_seen fun _ ⟨k, _, cs, h⟩ => ⟨k, cs, h⟩

theorem operand_le_seen {rank : Nat} : operand false rank ≤ seen :=
  nodes_le_seen fun _ ⟨k, _, cs, h, _⟩ => ⟨k, cs, h⟩

theorem chain_le_seen : Grammar.chain false ≤ seen :=
  nodes_le_seen fun _ ⟨k, _, cs, h, _⟩ => ⟨k, cs, h⟩

theorem target_le_seen : target false ≤ seen := fun _ h => chain_le_seen h.1

theorem operatorOf_le_seen {k : Kind} : operatorOf k ≤ seen :=
  nodes_le_seen fun _ ⟨cs, h, _⟩ => ⟨.binaryOperator, cs, h⟩

theorem binary_le_seen : binary false ≤ seen := by
  rintro ts ⟨k, -, hts⟩
  exact mul_le_seen (mul_le_seen operand_le_seen operatorOf_le_seen) operand_le_seen hts

/-- **The leaves among the children of a node are tokens that the grammar sees.** -/
theorem production_le_seen (k : Kind) : production false k ≤ seen := by
  cases k <;> repeat first
    | exact bot_le
    | exact one_le_seen
    | exact node_le_seen
    | exact nodeOf_le_seen
    | exact operand_le_seen
    | exact chain_le_seen
    | exact target_le_seen
    | exact binary_le_seen
    | exact token_le_seen (by decide)
    | exact tokenOf_le_seen (by decide +kernel)
    | refine mul_le_seen ?_ ?_
    | refine kstar_le_seen ?_
    | refine add_le ?_ ?_

theorem isToken_of_delimited : ∀ (ts : List Tree), ts ∈ seen → (∀ t ∈ ts, t.Delimited) →
    ∀ l ∈ Tree.leavesOfList ts, l.1.isToken ∧ l.1.isSignificant
  | [], _, _ => nofun
  | .leaf k x :: ts, hseen, hd => by
    intro l hl
    rcases List.mem_cons.1 hl with rfl | hl
    · exact hseen _ List.mem_cons_self k rfl
    · exact isToken_of_delimited ts (fun t ht => hseen t (List.mem_cons_of_mem _ ht))
        (fun t ht => hd t (List.mem_cons_of_mem _ ht)) l hl
  | .node k cs :: ts, hseen, hd => by
    intro l hl
    have hnode := hd _ List.mem_cons_self
    rcases List.mem_append.1 hl with hl | hl
    · exact isToken_of_delimited cs (production_le_seen k hnode.row) (fun t ht => hnode.child ht) l hl
    · exact isToken_of_delimited ts (fun t ht => hseen t (List.mem_cons_of_mem _ ht))
        (fun t ht => hd t (List.mem_cons_of_mem _ ht)) l hl

end Grammar

/-! ## Printing -/

/-- Whether a token has the mark that ends it, if it is a string or a comment. -/
def Token.Finished (t : Token) : Prop :=
  closesString? t.kind t.text.toList = some true ∧ closesComment? t.kind t.text.toList = some true

instance (t : Token) : Decidable t.Finished := inferInstanceAs (Decidable (_ ∧ _))

/-- **A printed tree**: its leaves, and between them blanks, line breaks and comments. -/
structure Tree.Printed (t : Tree) (tokens : List Token) (source : String) : Prop where
  tiles : Token.Tiles tokens source
  leaves : (tokens.filter (!·.kind.isTrivia)).map Token.leaf = t.leaves
  finished : ∀ t ∈ tokens, t.Finished

namespace Tree.Printed

theorem leaf_mem (h : t.Printed tokens source) {u : Token} (hu : u ∈ tokens)
    (hsolid : u.kind.isTrivia = false) : u.leaf ∈ t.leaves := by
  rw [← h.leaves]
  exact List.mem_map_of_mem (List.mem_filter.2 ⟨hu, by simp [hsolid]⟩)

theorem isToken_of_isTrivia : ∀ k ∈ Kind.all, k.isTrivia → k.isToken ∧ k ≠ .invalidChar := by
  decide +kernel

theorem isToken (h : (Tree.node .chunk cs).Printed tokens source) (hd : (Tree.node .chunk cs).Delimited)
    {u : Token} (hu : u ∈ tokens) : u.kind.isToken ∧ u.kind ≠ .invalidChar := by
  cases hsolid : u.kind.isTrivia with
  | true => exact isToken_of_isTrivia _ (Kind.mem_all _) hsolid
  | false =>
    obtain ⟨htoken, hseen⟩ := isToken_of_delimited cs (production_le_seen _ hd.row)
      (fun t ht => hd.child ht) _ (h.leaf_mem hu hsolid)
    refine ⟨htoken, fun heq => ?_⟩
    have hseen : u.kind.isSignificant = true := hseen
    rw [heq] at hseen
    exact absurd hseen (by decide)

/-- In the beginning all leaves lie ahead. -/
theorem at_initial (h : (Tree.node .chunk cs).Printed tokens source)
    (hd : (Tree.node .chunk cs).Delimited) (bare : BareExpressions) :
    At (.ofTokens tokens source.utf8ByteSize ⟨none, bare⟩) (.initial tokens) (Tree.leavesOfList cs) := by
  have hcoherent : (State.initial tokens).Coherent (.ofTokens tokens source.utf8ByteSize ⟨none, bare⟩) :=
    coherent_initial (sound_ofTokens h.tiles fun _ hu => (h.isToken hd hu).1)
  have hmem {l : Token × Nat} (hl : l ∈ (State.initial tokens).ahead) : l.1 ∈ tokens :=
    mem_of_mem_ahead hcoherent hl
  refine ⟨⟨fun l hl => (h.isToken hd (hmem hl)).2, fun l hl => (h.finished _ (hmem hl)).1⟩, hcoherent, ?_⟩
  have hsignificant : tokens.filter Token.isSignificant = tokens.filter (!·.kind.isTrivia) :=
    List.filter_congr fun u hu => by
      simp [Token.isSignificant, Kind.isSignificant, (h.isToken hd hu).2]
  rw [State.significant]
  exact (congrArg (List.map Token.leaf) hsignificant).trans h.leaves

end Tree.Printed

/-- **Parsing undoes printing**, without a nesting limit and whatever is done with bare expressions. -/
theorem parse_printed (cs : List Tree) (tokens : List Token) (source : String) (bare : BareExpressions)
    (hd : (Tree.node .chunk cs).Delimited) (h : (Tree.node .chunk cs).Printed tokens source) :
    ∃ p, parseTokens tokens source.utf8ByteSize ⟨none, bare⟩ = .ok p ∧ p.diagnostics = [] ∧
      p.tree.withoutTrivia = .node .chunk cs := by
  have hat := h.at_initial hd bare
  have hdashed : ∀ t ∈ tokens, t.Dashed := fun t ht hnone => by
    rw [(h.finished t ht).2] at hnone
    cases hnone
  have hnamed : (Tree.node .chunk cs).Named := Tree.Everywhere.mono (fun k cs hcs => by
    rintro rfl
    exact hcs.1) _ hd
  have hrun : Ensures whole (.ofTokens tokens source.utf8ByteSize ⟨none, bare⟩) (.initial tokens) fun _ s' =>
      ∃ F, Grows (.ofTokens tokens source.utf8ByteSize ⟨none, bare⟩) (.initial tokens) s'
        [.grown (.node .chunk F)] ∧ (Branch.node .chunk F).tree.Named ∧ s'.ahead = [] ∧
          (s'.Clean ∧ (Branch.node .chunk F).tree = .node .chunk cs) := by
    refine .read ((reportUnfinishedComments_reads _ hat.coherent hdashed).bind ?_)
    rintro _ s₁ ⟨-, -, hsame⟩
    obtain rfl := hsame fun t ht => (h.finished t ht).2
    refine ((Production.chunk_writes rfl hd hat rfl).ensures
      (Production.chunk_reads true hat.coherent (Nat.sub_self _))).mono ?_
    rintro _ s' ⟨F, hg, htree, hclean, hend⟩
    exact ⟨F, hg, htree ▸ hnamed, hend, hclean, htree⟩
  obtain ⟨p, s', hp, -, hdiagnostics, hclean, htree⟩ := parseTokens_of_whole
    (Q := fun s t => s.Clean ∧ t = .node .chunk cs) h.tiles hrun
  refine ⟨p, hp, ?_, htree⟩
  rw [hdiagnostics, show s'.diagnostics = #[] from hclean]

/-- An assignment with a comment in it. -/
theorem parse_printed_of_assignment : ∃ p,
    parseTokens [⟨.ident, 0, "x"⟩, ⟨.equals, 1, "="⟩, ⟨.blockComment, 2, "--[[]]"⟩, ⟨.minus, 8, "-"⟩,
      ⟨.decInt, 9, "2"⟩, ⟨.semicolon, 10, ";"⟩] 11 ⟨none, .requireAssignment⟩ = .ok p ∧
    p.diagnostics = [] ∧ p.tree.withoutTrivia =
      .node .chunk [.node .block [.node .statementList [
        .node .assignmentStatement [
          .node .variableList [.node .var [.node .nameRef [.leaf .ident "x"]]],
          .leaf .equals "=",
          .node .expressionList [.node .unaryExpression [
            .node .unaryOperator [.leaf .minus "-"],
            .node .numberLiteral [.leaf .decInt "2"]]]],
        .leaf .semicolon ";"]]] := by
  refine parse_printed _ _ "x=--[[]]-2;" .requireAssignment ?_ ?_
  · have hvariables : (Tree.node .variableList
        [.node .var [.node .nameRef [.leaf .ident "x"]]]).Delimited :=
      ⟨⟨⟨_, ⟨_, ⟨_, rfl⟩, [], Language.nil_mem_kstar _, rfl⟩, [], rfl, rfl⟩, Kind.noConfusion⟩,
        ⟨⟨⟨⟨_, by decide, _, rfl, by simp [isMethod]⟩, by simp [Tree.kind]⟩, Kind.noConfusion⟩,
          ⟨⟨⟨_, rfl⟩, Kind.noConfusion⟩, trivial, trivial⟩, trivial⟩, trivial⟩
    have hnegation : (Tree.node .unaryExpression [.node .unaryOperator [.leaf .minus "-"],
        .node .numberLiteral [.leaf .decInt "2"]]).Delimited :=
      ⟨⟨⟨_, ⟨_, rfl⟩, _, ⟨_, by decide, _, rfl, by simp [isMethod], by decide⟩, rfl⟩, Kind.noConfusion⟩,
        ⟨⟨⟨_, by decide, _, rfl⟩, Kind.noConfusion⟩, trivial, trivial⟩,
        ⟨⟨⟨_, by decide, _, rfl⟩, Kind.noConfusion⟩, trivial, trivial⟩, trivial⟩
    have hvalues : (Tree.node .expressionList [.node .unaryExpression [.node .unaryOperator
        [.leaf .minus "-"], .node .numberLiteral [.leaf .decInt "2"]]]).Delimited :=
      ⟨⟨⟨_, ⟨_, by decide, _, rfl, by simp [isMethod], Nat.zero_le _⟩, [], Language.nil_mem_kstar _, rfl⟩,
        Kind.noConfusion⟩, hnegation, trivial⟩
    have hassignment := show (Tree.node .assignmentStatement [_, .leaf .equals "=", _]).Delimited from
      ⟨⟨⟨_, ⟨_, ⟨_, rfl⟩, _, ⟨_, rfl⟩, rfl⟩, _, ⟨_, rfl⟩, rfl⟩, Kind.noConfusion⟩,
        hvariables, trivial, hvalues, trivial⟩
    refine ⟨⟨⟨_, ⟨_, rfl⟩, [], rfl, rfl⟩, Kind.noConfusion⟩, ⟨⟨⟨_, rfl⟩, Kind.noConfusion⟩,
      ⟨⟨⟨_, ?_, [], .inl rfl, List.append_nil _⟩, fun _ =>
        ⟨fun _ => ⟨_, _, rfl⟩, fun h => absurd h (by decide), trivial⟩⟩,
      hassignment, trivial, trivial⟩, trivial⟩, trivial⟩
    refine Language.mem_kstar.2 ⟨[[_], [_]], rfl, ?_⟩
    rintro _ (_ | ⟨_, _ | ⟨_, ⟨⟩⟩⟩)
    · exact .inl ⟨_, by decide, _, rfl⟩
    · exact .inr ⟨_, rfl⟩
  · exact ⟨⟨by decide, ⟨rfl, rfl, rfl, rfl, rfl, rfl, trivial⟩, by decide⟩, rfl, by decide⟩

end LuaTree
