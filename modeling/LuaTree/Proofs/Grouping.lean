import LuaTree.Proofs.Limit
import LuaTree.Proofs.Writing.Chunk

/-!
# Proofs/Grouping — the parser groups operands as the table asks for

In the tree of every parse the operations are orderly.  And where operands and operators lie ahead in
turn, the parser reads the one orderly formula of them, wherever they stand and whether or not the
leftmost operand was read before; only the nesting limit may keep it from that.
-/

namespace LuaTree

open LuaTree.Parser Grammar

namespace Production

variable {i : Input} {f : Formula} {us : Leaves} {t : Tree} {s s₀ : State} {n : Nat} {x : Closed}
  {lead : Option Closed} {limit : Option Nat} {row rest : List Tree} {k : Kind}

/-! ## Operands -/

/-- **An operand that the parser can read** as an atom, wherever it lies ahead of a token of a kind. -/
structure Readable (i : Input) (t : Tree) (k : Kind) : Prop where
  begins : ∀ us : Leaves, first (Tree.leavesOfList [t] ++ us) ∉ KindSet.unaryOperators
  finds : ∀ (n : Nat) (us : Leaves), first us = k → Finds i (atom (Production.enter n)) t us

/-- **The atoms of the grammar can be read**, unless a suffix goes on with them. -/
theorem readable_of_delimited (hlimit : i.settings.limit = none) (h : DelimitedAtom t)
    (hk : t.kind ∈ chainKinds → k ∉ KindSet.suffixFirst) : Readable i t k where
  begins := h.begins
  finds n _ hus := h.finds (accepts_enter hlimit n) (hus ▸ hk)

/-- **Without a nesting limit formulas over such operands are written** at every level of nesting. -/
theorem operates_enter (hlimit : i.settings.limit = none) :
    ∀ n : Nat, Operates i (Production.enter n) (Readable i)
  | 0 => ⟨fun h => h.begins, fun h => h.finds 0 _ rfl, fun _ _ _ _ _ _ => .exhausted,
      fun _ _ _ _ _ _ _ => .exhausted⟩
  | n + 1 => by
    have he := operates_enter hlimit n
    refine ⟨fun h => h.begins, fun h => h.finds (n + 1) _ rfl, fun hf hA h10 hus => ?_,
      fun hrank hf hA hle hus => ?_⟩
    · exact nested_writes hlimit (operation_writes he (le_refl 10) hf hA h10 hus)
    · exact nested_writes hlimit (operation_writes he hrank hf hA hle hus)

/-! ## Without a limit -/

/-- **Without a nesting limit the formula is read**, if the run ends. -/
theorem expression_led (hlimit : i.settings.limit = none) (hf : f.Ranked)
    (hus : first us ∉ KindSet.binaryOperators) (h : Led i (Readable i) s₀ s lead f us) :
    Yields (expression (Production.enter n) lead) i s fun a s' => ∃ x, a = some x ∧ Built i s₀ s' x f.tree us := by
  cases n with
  | zero => exact .exhausted
  | succ n =>
    have hgroups := groups_all (operates_enter hlimit n) Level.all rfl (Nat.zero_le 10) hf
      (Nat.zero_le _) (fun hk => absurd hk hus) h.deeper
    refine (Yields.nested hlimit hgroups).mono ?_
    rintro a _ ⟨t, ⟨x, ha, hx⟩, rfl⟩
    exact ⟨x, ha, hx.upper h.before⟩

/-! ## Under a limit -/

/-- Where a parse stands does not depend on the nesting limit. -/
theorem at_limited (limit : Option Nat) (h : At i s us) : At (i.limited limit) s us :=
  ⟨h.tidy, { h.coherent with input := { h.coherent.input with } }, h.ahead⟩

theorem built_limited (limit : Option Nat) (h : Built i s₀ s x t us) :
    Built (i.limited limit) s₀ s x t us := by
  obtain ⟨hat, hsilent, hx, b, hg, hb⟩ := h
  refine ⟨at_limited limit hat, hsilent, hx, b, ?_, hb⟩
  exact ⟨{ hg.before with input := { hg.before.input with } },
    { hg.coherent with input := { hg.coherent.input with } }, hg.events, hg.ahead, hg.depth, hg.diagnostics⟩

/-- **What is read without a nesting limit is read under one**, unless it is reached. -/
theorem entered_of_unlimited {e : Entry} {Q : Option Closed → State → Prop} (hs : s.Below)
    (hruns : ∀ limit, Ensures (Production.enter n e) (i.limited limit) s fun _ _ => True)
    (hQ : Yields (Production.enter n e) (i.limited none) s Q) :
    Ensures (Production.enter n e) i s fun a s' => s'.limitReached = true ∨ Q a s' := by
  obtain ⟨a, s', hrun, -⟩ := show Ensures _ i s _ from hruns i.settings.limit
  obtain ⟨b, t', hfree, -⟩ := hruns none
  refine ⟨a, s', hrun, ?_⟩
  cases hlimit : i.settings.limit with
  | none =>
    have hi : i.limited none = i := by rw [← hlimit]; rfl
    exact .inr (hQ a s' (hi ▸ hrun))
  | some k =>
    have hi : i.limited (some k) = i := by rw [← hlimit]; rfl
    -- the run under the limit is the one without, up to where the limit is reached
    have hagrees := (transparent.entered Transparent.chainStatement n e).agrees
    rcases hagrees i k none nofun s hs a s' b t' (hi ▸ hrun) hfree with ⟨rfl, rfl, -⟩ | hcut
    · exact .inr (hQ a s' hfree)
    · exact .inl hcut.reached

/-! ## Whole rows -/

/-- **In front of a row of operands and operators**, or of what is left of it: the nesting limit was not
reached before, `n` is enough for the tokens that are left, each operand can be read in front of what
follows it, and no operator follows the row. -/
structure Ready (i : Input) (n : Nat) (s : State) (row : List Tree) (us : Leaves) : Prop where
  below : s.Below
  remaining : s.remaining < n
  operands : ∀ t vs, t :: vs <:+ row → [t] ∈ nodeOf atomKinds →
    Readable (i.limited none) t (first (Tree.leavesOfList vs ++ us))
  ended : first us ∉ KindSet.binaryOperators

/-- The formula of a row is read. -/
theorem expression_reads (hf : f.Ranked) (h : Ready i n s f.row us)
    (hs : At i s (Tree.leavesOfList f.row ++ us)) :
    Ensures (expression (Production.enter n) none) i s fun a s' =>
      s'.limitReached = true ∨ ∃ x, a = some x ∧ Built i s s' x f.tree us := by
  rw [Formula.leavesOfList_row] at hs
  have hled := led_of_at (Formula.over_of_row (Formula.ranked_iff.1 hf).1 h.operands) (at_limited none hs)
  refine (entered_of_unlimited h.below (fun limit => ?_) (expression_led rfl hf h.ended hled)).mono ?_
  · exact ((enters_enter true _ n).operation (Nat.zero_le 10) h.remaining (at_limited limit hs).sound
      (le_refl _)).mono fun _ _ _ => trivial
  · rintro a s' (hreached | ⟨x, ha, hx⟩)
    · exact .inl hreached
    · exact .inr ⟨x, ha, built_limited (i := i.limited none) i.settings.limit hx⟩

/-- A node that conforms to the grammar can be the leftmost operand. -/
theorem closes_of_built (ht : [t] ∈ nodeOf atomKinds) (hconforms : t.Conforms true)
    (h : Built i s₀ s x t us) : Closes true i s.used s₀ s x (operand true 12) := by
  obtain ⟨hat, -, hx, b, hg, rfl, hevent, hkind⟩ := h
  refine ⟨hat.sound.settled, le_refl _, hx, b, hg, fun _ => ⟨⟨hconforms, trivial⟩, ?_⟩, hevent, hkind, nofun⟩
  have htight := (Formula.operatorIn?_of_atom ht).2.ge
  obtain ⟨k, hk, cs, heq⟩ := ht
  obtain heq := (List.cons.inj heq).1
  rw [heq] at htight
  have hne : k ≠ .error := fun hk' => absurd (hk' ▸ hk) (by decide)
  change clear [b.tree] ∈ _
  rw [heq, clear, List.filter_cons_of_pos (by rw [isError_node hne]; rfl), List.filter_nil]
  exact ⟨k, atom_le_expression k hk, cs, rfl, fun _ => rfl, htight⟩

/-- What is left of the formula of a row is read behind its first operand. -/
theorem expression_continues (hf : f.Ranked) (hrow : f.row = t :: rest) (ht : [t] ∈ nodeOf atomKinds)
    (hconforms : t.Conforms true) (h : Ready i n s rest us)
    (hx : Built i s₀ s x t (Tree.leavesOfList rest ++ us)) :
    Ensures (expression (Production.enter n) (some x)) i s fun a s' =>
      s'.limitReached = true ∨ ∃ y, a = some y ∧ Built i s₀ s' y f.tree us := by
  have hled := led_of_built (Formula.ranked_iff.1 hf).1 ht hrow h.operands (built_limited none hx)
  refine (entered_of_unlimited h.below (fun limit => ?_) (expression_led rfl hf h.ended hled)).mono ?_
  · exact ((enters_enter true _ n).continued h.remaining
      (closes_of_built ht hconforms (built_limited limit hx))).mono fun _ _ _ => trivial
  · rintro a s' (hreached | ⟨y, ha, hy⟩)
    · exact .inl hreached
    · exact .inr ⟨y, ha, built_limited (i := i.limited none) i.settings.limit hy⟩

end Production

/-! ## Every parse -/

/-- **Operators bind as the table says.**  The table is the one of the ranks, with two operators that
are grouped to the right.  In the tree of every parse the operations are orderly.  A row of operands and
operators in turn has one orderly formula, and where the row lies ahead, the parser reads the tree of that
formula, unless the nesting limit is reached; so it does behind the first operand, when that was read
before and lies in `x`.  All atoms of the grammar are operands that can be read. -/
theorem operations_orderly :
    ((List.range 12).map (fun j => KindSet.binaryOperators.toList.filter (rank · = j)) =
        [[.kwOr], [.kwAnd], [.less, .lessEquals, .greater, .greaterEquals, .equalsEquals, .tildeEquals],
          [.pipe], [.tilde], [.ampersand], [.shl, .shr], [.dotDot], [.plus, .minus],
          [.star, .slash, .doubleSlash, .percent], [], [.caret]] ∧
      KindSet.binaryOperators.toList.filter (assoc · = .right) = [.dotDot, .caret]) ∧
    (∀ (source : String) (settings : Settings), ∃ p, parse source settings = .ok p ∧
      p.tree.withoutTrivia.Everywhere Orderly) ∧
    (∀ row ∈ alternation, ∃ f : Formula, (f.WellFormed ∧ f.Orderly ∧ f.row = row) ∧
      (∀ g : Formula, g.WellFormed ∧ g.Orderly ∧ g.row = row → g = f) ∧
      (∀ (i : Input) (n : Nat) (s : State) (us : Leaves), Production.Ready i n s row us →
        At i s (Tree.leavesOfList row ++ us) →
        Ensures (Production.expression (Production.enter n) none) i s fun a s' =>
          s'.limitReached = true ∨ ∃ x, a = some x ∧ Built i s s' x f.tree us) ∧
      ∀ (i : Input) (n : Nat) (s₀ s : State) (x : Closed) (t : Tree) (rest : List Tree) (us : Leaves),
        row = t :: rest → [t] ∈ nodeOf atomKinds → t.Conforms true → Production.Ready i n s rest us →
        Built i s₀ s x t (Tree.leavesOfList rest ++ us) →
        Ensures (Production.expression (Production.enter n) (some x)) i s fun a s' =>
          s'.limitReached = true ∨ ∃ y, a = some y ∧ Built i s₀ s' y f.tree us) ∧
    ∀ (i : Input) (t : Tree) (k : Kind), Production.DelimitedAtom t →
      (t.kind ∈ chainKinds → k ∉ KindSet.suffixFirst) → Production.Readable (i.limited none) t k := by
  refine ⟨⟨binaryOperators_by_rank, binaryOperators_to_right⟩, fun source settings => ?_,
    fun row hrow => ?_, fun i t k => Production.readable_of_delimited rfl⟩
  · obtain ⟨p, hp, gaps, hconforms, -⟩ := parse_conforms source settings
    exact ⟨p, hp, orderly_of_conforms hconforms⟩
  · obtain ⟨f, ⟨hwell, horderly, rfl⟩, hunique⟩ := Formula.existsUnique_formula hrow
    have hf := Formula.ranked_iff.2 ⟨hwell, horderly⟩
    refine ⟨f, ⟨hwell, horderly, rfl⟩, hunique, ?_, ?_⟩
    · exact fun i n s us => Production.expression_reads hf
    · exact fun i n s₀ s x t rest us hrow ht => Production.expression_continues hf hrow ht

/-- The names and operators of `a + -b ^ c`, and `a` read before. -/
theorem operations_orderly_of_sum : ∃ f : Formula,
    f = .operated (.operand (.node .nameRef [.leaf .ident "a"])) .plus "+" (.signed .minus "-"
      (.operated (.operand (.node .nameRef [.leaf .ident "b"])) .caret "^"
        (.operand (.node .nameRef [.leaf .ident "c"])))) ∧
    ∃ (i : Input) (s : State), i = .ofTokens (lex "a + -b ^ c") 10 .standard ∧
      s = .initial (lex "a + -b ^ c") ∧
      (Ensures (Production.expression (Production.enter 8) none) i s fun a s' =>
        s'.limitReached = true ∨ ∃ x, a = some x ∧ Built i s s' x f.tree []) ∧
      Ensures Production.nameRef i s fun x s₁ =>
        Ensures (Production.expression (Production.enter 8) (some x)) i s₁ fun a s' =>
          s'.limitReached = true ∨ ∃ y, a = some y ∧ Built i s s' y f.tree [] := by
  refine ⟨_, rfl, _, _, rfl, rfl, ?_⟩
  generalize hf : Formula.operated _ _ _ _ = f
  generalize hi : Input.ofTokens _ _ _ = i
  generalize hs : State.initial _ = s
  have hranked : f.Ranked := hf ▸ ⟨by decide, ⟨_, by decide, _, rfl⟩,
    ⟨by decide, ⟨by decide, ⟨_, by decide, _, rfl⟩, ⟨_, by decide, _, rfl⟩, by decide, by decide⟩,
      by decide⟩, by decide, by decide⟩
  obtain ⟨hwell, horderly⟩ := Formula.ranked_iff.1 hranked
  obtain ⟨g, -, hunique, hfresh, hhanded⟩ :=
    operations_orderly.2.2.1 f.row (Formula.row_mem_alternation hwell)
  obtain rfl := hunique f ⟨hwell, horderly, rfl⟩
  have hat : At i s (Tree.leavesOfList f.row ++ []) := by
    subst hf hi hs
    exact ⟨⟨by decide +kernel, by decide +kernel⟩, coherent_initial (sound_ofTokens (tiles_lex _)
      fun t => isToken_of_mem_lex), by decide +kernel⟩
  have hatom (x : String) : Production.DelimitedAtom (.node .nameRef [.leaf .ident x]) :=
    ⟨⟨_, by decide, _, rfl⟩, ⟨⟨⟨x, rfl⟩, Kind.noConfusion⟩, trivial, trivial⟩, by simp [isMethod]⟩
  have hoperands : ∀ t vs, t :: vs <:+ f.row → [t] ∈ nodeOf atomKinds →
      Production.Readable (i.limited none) t (first (Tree.leavesOfList vs ++ [])) := by
    rintro t vs hvs ⟨k, hk, cs, ht⟩
    obtain rfl := (List.cons.inj ht).1
    rw [← hf] at hvs
    simp only [Formula.row, List.cons_append, List.nil_append, List.suffix_cons_iff, List.suffix_nil,
      List.cons.injEq, reduceCtorEq, or_false] at hvs
    rcases hvs with ⟨h, rfl⟩ | ⟨h, rfl⟩ | ⟨h, rfl⟩ | ⟨h, rfl⟩ | ⟨h, rfl⟩ | ⟨h, rfl⟩ <;>
      obtain ⟨rfl, rfl⟩ := Tree.node.inj h
    · exact operations_orderly.2.2.2 _ _ _ (hatom "a") fun _ => by decide
    · exact absurd hk (by decide)
    · exact absurd hk (by decide)
    · exact operations_orderly.2.2.2 _ _ _ (hatom "b") fun _ => by decide
    · exact absurd hk (by decide)
    · exact operations_orderly.2.2.2 _ _ _ (hatom "c") fun _ => by decide
  have hclean : s.Clean := hs ▸ rfl
  have hready {s₁ : State} {row : List Tree} (hsuffix : row <:+ f.row)
      (hsilent : s₁.diagnostics = s.diagnostics) (hat : At i s₁ (Tree.leavesOfList row ++ [])) :
      Production.Ready i 8 s₁ row [] := by
    refine ⟨hat.coherent.below (hsilent.trans hclean), ?_, ?_, by decide⟩
    · obtain ⟨ts, hts⟩ := hsuffix
      have hlength : (Tree.leavesOfList f.row).length = 6 := hf ▸ rfl
      rw [← hts, Tree.leavesOfList_append, List.length_append] at hlength
      rw [hat.remaining, List.append_nil]
      omega
    · exact fun t vs hvs => hoperands t vs (hvs.trans hsuffix)
  refine ⟨hfresh i 8 s [] (hready List.suffix_rfl rfl hat) hat, ?_⟩
  have hrow : f.row = [.node .nameRef [.leaf .ident "a"]] ++ f.row.tail := hf ▸ rfl
  rw [hrow, Tree.leavesOfList_append, List.append_assoc] at hat
  have hname : Ensures Production.nameRef i s fun x s₁ =>
      Built i s s₁ x (.node .nameRef [.leaf .ident "a"]) (Tree.leavesOfList f.row.tail ++ []) :=
    (Production.nameRef_builds (hatom "a").delimited s hat).ensures (Production.nameRef_closes
      (show Reads true i _ s s 1 from .refl hat.sound (le_refl _)) (by rw [← hs]; decide) hat.next)
  refine hname.mono fun x s₁ hx => ?_
  refine hhanded i 8 s s₁ x _ _ [] hrow (hatom "a").atom ⟨⟨"a", rfl⟩, trivial, trivial⟩ ?_ hx
  exact hready (List.tail_suffix _) hx.silent hx.toAt

end LuaTree
