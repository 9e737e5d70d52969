import LuaTree.Proofs.Reading.Chunk
import LuaTree.Proofs.Writing.Statement

/-!
# Proofs/Writing/Chunk — calls, assignments and whole sources are written

A leading chain is a call where neither `=` nor a comma follows it, and a target where one does.  With
that every statement is written, so a list of them is, and the recursion is tied as it is in
`Production.enter`: without a nesting limit every level writes what it should, however deep it is.
-/

namespace LuaTree.Production

open LuaTree.Parser Grammar Computability

variable {i : Input} {enter : Enter} {us : Leaves} {cs : List Tree} {t : Tree} {s s₀ : State}
  {x : Closed} {k : Kind} {β : Type} {Q : β → State → Prop}

/-! ## Calls and assignments -/

theorem atEither_yields {a b : Kind} {f : Bool → Parser β} (h : Built i s₀ s x t us)
    (hf : ∀ s', Built i s₀ s' x t us → Yields (f (decide (first us = a ∨ first us = b))) i s' Q) :
    Yields (isAtEither a b >>= f) i s Q := by
  by_cases ha : first us = a
  · rw [decide_eq_true (.inl ha)] at hf
    exact .assoc (h.wrote.isAt ha fun _ => hf _ h.look)
  refine .assoc (h.wrote.notAt ha fun _ => ?_)
  by_cases hb : first us = b
  · rw [decide_eq_true (.inr hb)] at hf
    exact h.look.wrote.isAt hb fun _ => hf _ h.look.look
  · rw [decide_eq_false (not_or.2 ⟨ha, hb⟩)] at hf
    exact h.look.wrote.notAt hb fun _ => hf _ h.look.look

theorem var_cases (h : (Tree.node .var cs).Delimited) : ∃ k ∈ chainKinds, ∃ ds, cs = [.node k ds] ∧
    ¬ isMethod (.node k ds) ∧ k ≠ .callExpression := by
  obtain ⟨⟨k, hk, ds, rfl, hmethod⟩, hcall⟩ := h.row
  refine ⟨k, hk, ds, rfl, fun h => absurd (hmethod h) (by decide), fun h => ?_⟩
  exact absurd (hcall _ (List.mem_singleton_self _) h) (by decide)

theorem assignee_yields {f : Unit → Parser β} (h : Built i s₀ s x t us) (ht : t.kind ≠ .callExpression)
    (hf : ∀ s', Wrote i s₀ s' [] [.node .var [t]] us → Yields (f ()) i s' Q) :
    Yields (assignee x >>= f) i s Q := by
  have hkind : x.kind ≠ .callExpression := by rwa [h.kind]
  rw [assignee, if_neg hkind]
  exact .assoc (.assoc (h.precede fun o b s' ho w => w.finish ho hf))

section

variable (he : Accepts i enter)
include he

theorem moreVariables_writes (hcs : cs ∈ (token .comma * node .var)∗) (hd : ∀ t ∈ cs, t.Delimited)
    (hus : first us = .equals) : Writes i (moreVariables enter) cs us fun _ => True := by
  refine commas_write (P := (· ∉ KindSet.suffixFirst)) (fun x row vs hrow hrowd hvs s hs => ?_)
    (fun s hs => hs.wrote.notEat (show first us ≠ .comma by rw [hus]; decide) fun w => .pure ⟨w, rfl⟩)
    (by decide) (by rw [hus]; decide) hcs hd
  obtain ⟨es, rfl⟩ := hrow
  have hvar := hrowd _ (List.mem_singleton_self _)
  obtain ⟨k, hk, ds, rfl, hmethod, hcall⟩ := var_cases hvar
  rw [Tree.leavesOfList_append, List.append_assoc, Tree.leavesOfList_node .var] at hs
  refine hs.wrote.eat fun s₁ w => ?_
  refine (chain_finds he hk (hvar.child (List.mem_singleton_self _)) hmethod hvs s₁ w.toAt).bind ?_
  rintro _ s₂ ⟨y, rfl, hy⟩
  exact assignee_yields hy hcall fun s₃ w' => .pure ⟨w.trans w', rfl⟩

theorem callStatement_writes (h : (Tree.node .callStatement cs).Delimited)
    (hus : first us = .semicolon) :
    Writes i (chainStatement enter) [.node .callStatement cs] us fun _ => True := by
  obtain ⟨ds, rfl⟩ := h.row
  intro s hs
  refine hs.children.wrote.start fun whole s₁ ho w => w.start fun list s₂ hl wl => ?_
  refine (chain_finds he (by decide) (h.child (List.mem_singleton_self _)) (by simp [isMethod])
    (by rw [hus]; decide) s₂ wl.toAt).bind ?_
  rintro _ s₃ ⟨x, rfl, hx⟩
  have hkind : x.kind = .callExpression := hx.kind
  dsimp only
  rw [if_pos hkind]
  refine atEither_yields hx fun s₄ hx => ?_
  rw [decide_eq_false (by rw [hus]; decide)]
  refine (wl.trans hx.wrote).abandon hl fun s₅ w' => (w.trans w').finish ho fun s₆ w => ?_
  exact .pure ⟨w, trivial⟩

theorem assignmentStatement_writes (h : (Tree.node .assignmentStatement cs).Delimited)
    (hus : first us = .semicolon) :
    Writes i (chainStatement enter) [.node .assignmentStatement cs] us fun _ => True := by
  obtain ⟨_, ⟨_, ⟨ls, rfl⟩, _, ⟨y, rfl⟩, rfl⟩, _, ⟨es, rfl⟩, rfl⟩ := h.row
  have hlist := h.child (t := .node .variableList ls) (by simp)
  obtain ⟨_, ⟨_, ⟨vs, rfl⟩, more, hmore, rfl⟩, _, rfl, hls⟩ := hlist.row
  obtain rfl : [.node .var vs] ++ more = ls := (List.append_nil _).symm.trans hls
  have hvar := hlist.child (t := .node .var vs) (by simp)
  obtain ⟨k, hk, ds, rfl, hmethod, hcall⟩ := var_cases hvar
  have hmored : ∀ t ∈ more, t.Delimited := fun t ht => hlist.child (by simp [ht])
  intro s hs
  refine hs.children.wrote.start fun whole s₁ ho w => ?_
  rw [Tree.leavesOfList_append, Tree.leavesOfList_append, List.append_assoc, List.append_assoc,
    Tree.leavesOfList_node .variableList] at w
  simp only [Tree.leavesOfList_append, List.append_assoc] at w
  rw [Tree.leavesOfList_node .var] at w
  refine w.start fun list s₂ hl wl => ?_
  have hequals : first (Tree.leavesOfList [.leaf .equals y] ++
      (Tree.leavesOfList [.node .expressionList es] ++ us)) = .equals := rfl
  have hnext := first_commas (P := fun k => k = .equals ∨ k = .comma) (.inr rfl) (.inl hequals)
    hmore hmored
  refine (chain_finds he hk (hvar.child (List.mem_singleton_self _)) hmethod ?_ s₂ wl.toAt).bind ?_
  · rcases hnext with hnext | hnext <;> rw [hnext] <;> decide
  rintro _ s₃ ⟨x, rfl, hx⟩
  have hkind : x.kind ≠ .callExpression := by rwa [hx.kind]
  dsimp only
  rw [if_neg hkind]
  refine atEither_yields hx fun s₄ hx => ?_
  rw [decide_eq_true hnext, if_pos rfl]
  refine assignee_yields hx hcall fun s₅ w' => ?_
  refine (wl.trans w').step (moreVariables_writes he hmore hmored rfl) fun _ s₆ wl _ => ?_
  refine wl.finish hl fun s₇ w' => (w.trans w').expect fun s₈ w => ?_
  refine w.step (expectExpressionList_writes he (h.child (by simp)) (by rw [hus]; decide)
    (by rw [hus]; decide)) fun _ s₉ w _ => .last (w.finish ho fun s₁₀ w => .pure ⟨w, trivial⟩)

/-! ## Statements -/

/-- **Every statement is written** where a semicolon follows it. -/
theorem statement_writes (hk : k ∈ statementKinds false) (h : (Tree.node k cs).Delimited)
    (hus : first us = .semicolon) : Writes i (statement enter) [.node k cs] us (· = true) := by
  intro s hs
  have hstops : Stops 0 (first us) := by rw [hus]; decide
  have hcomma : first us ≠ .comma := by rw [hus]; decide
  have hequals : first us ≠ .equals := by rw [hus]; decide
  have hdone {p : Parser Unit} (hp : Writes i p [.node k cs] us fun _ => True) :
      Yields (do p; return true) i s.look fun b s' => Wrote i s s' [] [.node k cs] us ∧ b = true :=
    (hp _ hs.look).bind fun _ s' ⟨w, _⟩ => .pure ⟨w.of_look hs.coherent, rfl⟩
  have hchain (hk : k = .callStatement ∨ k = .assignmentStatement)
      (hp : Writes i (chainStatement enter) [.node k cs] us fun _ => True) :
      Yields (statement enter) i s fun b s' => Wrote i s s' [] [.node k cs] us ∧ b = true := by
    have hfirst : first (Tree.leavesOfList [.node k cs] ++ us) = .ident ∨
        first (Tree.leavesOfList [.node k cs] ++ us) = .parenOpen := by
      simpa [KindSet.mem_iff_contains, chainFirst] using first_chainStatement hk h us
    rcases hfirst with hfirst | hfirst
    · exact hs.wrote.peek hfirst fun _ => hdone hp
    · exact hs.wrote.peek hfirst fun _ => hdone hp
  have hcases : k = .doStatement ∨ k = .whileStatement ∨ k = .repeatStatement ∨ k = .ifStatement ∨
      k = .simpleForStatement ∨ k = .rangeForStatement ∨ k = .functionDefinitionStatement ∨
      k = .localFunctionStatement ∨ k = .localNameStatement ∨ k = .breakStatement ∨
      k = .gotoStatement ∨ k = .labelStatement ∨ k = .callStatement ∨ k = .assignmentStatement := by
    simpa [statementKinds] using hk
  rcases hcases with rfl | rfl | rfl | rfl | rfl | rfl | rfl | rfl | rfl | rfl | rfl | rfl | rfl | rfl
  · exact hs.wrote.peek (first_leading (l := .kwDo) rfl h us) fun _ => hdone (doStatement_writes he h)
  · exact hs.wrote.peek (first_leading (l := .kwWhile) rfl h us) fun _ => hdone (whileStatement_writes he h)
  · exact hs.wrote.peek (first_leading (l := .kwRepeat) rfl h us) fun _ =>
      hdone (repeatStatement_writes he h hstops)
  · exact hs.wrote.peek (first_leading (l := .kwIf) rfl h us) fun _ => hdone (ifStatement_writes he h)
  · exact hs.wrote.peek (first_leading (l := .kwFor) rfl h us) fun _ => hdone (simpleFor_writes he h)
  · exact hs.wrote.peek (first_leading (l := .kwFor) rfl h us) fun _ => hdone (rangeFor_writes he h)
  · exact hs.wrote.peek (first_leading (l := .kwFunction) rfl h us) fun _ =>
      hdone (functionStatement_writes he h)
  · exact hs.wrote.peek (first_leading (l := .kwLocal) rfl h us) fun _ => hdone (localFunction_writes he h)
  · exact hs.wrote.peek (first_leading (l := .kwLocal) rfl h us) fun _ =>
      hdone (localName_writes he h hstops hcomma hequals)
  · exact hs.wrote.peek (first_leading (l := .kwBreak) rfl h us) fun _ => hdone (breakStatement_writes h)
  · exact hs.wrote.peek (first_leading (l := .kwGoto) rfl h us) fun _ => hdone (gotoStatement_writes h)
  · exact hs.wrote.peek (first_leading (l := .doubleColon) rfl h us) fun _ => hdone (labelStatement_writes h)
  · exact hchain (.inl rfl) (callStatement_writes he h hus)
  · exact hchain (.inr rfl) (assignmentStatement_writes he h hus)

omit he in
theorem statement_absent (hus : first us ∉ KindSet.statementFirst) :
    Writes i (statement enter) [] us (· = false) := by
  intro s hs
  have w : Wrote i s s [] [] us := hs.wrote
  refine w.peek rfl fun w => ?_
  split
  case h_14 => exact .pure ⟨w, rfl⟩
  all_goals
    rename_i heq
    exact absurd (by rw [heq]; decide) hus

/-! ## Lists of statements -/

omit he in
theorem statementFirst_of_blockEnd : ∀ k ∈ Kind.all, k ∈ blockEnd →
    k ∉ KindSet.statementFirst ∧ k ≠ .semicolon ∧ k ≠ .kwReturn := by
  decide +kernel

/-- A statement and the semicolon behind it are written by two rounds. -/
theorem statements_writes (h : (Tree.node .statementList cs).Delimited) (hus : first us ∈ blockEnd) :
    Writes i (statements enter) cs us fun _ => True := by
  obtain ⟨hnone, hsemicolon, hreturn⟩ := statementFirst_of_blockEnd _ (Kind.mem_all _) hus
  obtain ⟨body, hbody, last, hlast, rfl⟩ := h.row
  obtain ⟨rows, rfl, hrows⟩ := Language.mem_kstar.1 hbody
  have hd : ∀ t ∈ rows.flatten, t.Delimited := fun t ht => h.child (List.mem_append_left _ ht)
  refine loop_writes (I := fun _ left => (∀ row ∈ left, row ∈ rows) ∧ Separated (left.flatten ++ last))
    (fun _ row left ⟨hmem, hseparated⟩ s hs => ?_) rfl (fun _ _ s hs => ?_)
    ⟨fun _ h => h, h.1.2 rfl⟩
  · obtain ⟨hrow, hleft⟩ := List.forall_mem_cons.1 hmem
    rw [List.flatten_cons, List.append_assoc] at hseparated
    rcases hrows row hrow with ⟨k, hk, ds, rfl⟩ | ⟨x, rfl⟩
    · obtain ⟨hnext, hseparated⟩ := hseparated
      obtain ⟨x, ts, hts⟩ := hnext hk
      have hstatement := hd _ (List.mem_flatten.2 ⟨_, hrow, List.mem_singleton_self _⟩)
      obtain ⟨hfirst, hne⟩ := first_statement hk hstatement
        (Tree.leavesOfList left.flatten ++ (Tree.leavesOfList last ++ us))
      have hus : first (Tree.leavesOfList left.flatten ++ (Tree.leavesOfList last ++ us)) = .semicolon := by
        rw [← List.append_assoc, ← Tree.leavesOfList_append,
          show left.flatten ++ last = .leaf .semicolon x :: ts from hts]
        rfl
      refine hs.wrote.notEat (fun heq => absurd (heq ▸ hfirst) (by decide)) fun w => ?_
      refine w.notAt hne fun w => w.step (statement_writes he hk hstatement hus) ?_
      rintro _ s₁ w rfl
      exact .pure ⟨w, (), rfl, hleft, hseparated⟩
    · exact hs.wrote.eat fun s₁ w => .pure ⟨w, (), rfl, hleft, hseparated.2⟩
  · rcases hlast with rfl | ⟨ds, rfl⟩
    · refine hs.wrote.notEat hsemicolon fun w => w.notAt hreturn fun w => ?_
      refine w.step (statement_absent hnone) ?_
      rintro _ s₁ w rfl
      exact .pure ⟨w, (), rfl, trivial⟩
    · have hlast := h.child (t := .node .returnStatement ds) (by simp)
      have hfirst := first_leading (l := .kwReturn) rfl hlast us
      refine hs.wrote.notEat (by rw [hfirst]; decide) fun w => w.isAt hfirst fun w => ?_
      refine .assoc (w.peek hfirst fun w => .assoc (w.step (returnStatement_writes he hlast hus) ?_))
      exact fun _ s₁ w _ => .pure ⟨w, (), rfl, trivial⟩

end

/-! ## Nesting -/

/-- **Without a nesting limit every level of nesting writes what it should.** -/
theorem accepts_enter (hlimit : i.settings.limit = none) : ∀ n : Nat, Accepts i (Production.enter n)
  | 0 => ⟨fun _ _ _ _ => .exhausted, fun _ _ _ _ _ => .exhausted, fun _ _ _ _ _ _ => .exhausted,
      fun _ _ _ => .exhausted⟩
  | n + 1 => by
    have he := accepts_enter hlimit n
    refine ⟨fun h hus => ?_, fun h ht hus => ?_, fun hrank h ht hus => ?_, fun hus => ?_⟩
    · refine nested_writes hlimit fun s hs => hs.wrote.step (statements_writes he h hus) ?_
      exact fun _ s' w _ => .pure ⟨w, trivial⟩
    · exact nested_writes hlimit (expression_writes he (le_refl 10) h ht hus)
    · exact nested_writes hlimit (expression_writes he hrank h ht hus)
    · exact nested_writes hlimit (operation_absent hus _)

/-! ## Whole sources -/

/-- **A whole source is written**, into one node that nothing wraps. -/
theorem chunk_writes (hlimit : i.settings.limit = none) (h : (Tree.node .chunk cs).Delimited)
    (hs : At i s (Tree.leavesOfList cs)) (hclean : s.Clean) : Yields chunk i s fun _ s' =>
      ∃ F, Grows i s s' [.grown (.node .chunk F)] ∧ (Branch.node .chunk F).tree = .node .chunk cs ∧
        s'.Clean ∧ s'.ahead = [] := by
  obtain ⟨_, ⟨bs, rfl⟩, _, rfl, hcs⟩ := h.row
  obtain rfl : [.node .block bs] = cs := (List.append_nil _).symm.trans hcs
  have hblock := h.child (List.mem_singleton_self _)
  have hs : At i s (Tree.leavesOfList [.node .block bs] ++ []) := by rwa [List.append_nil]
  refine .read (hs.wrote.start fun o s₁ ho w => ?_)
  refine (Yields.of_ensures (wrapUnknown_settled w.sound)).bind ?_
  rintro _ _ rfl
  refine w.step (block_writes (accepts_enter hlimit i.bound) hblock (by decide)) fun _ s₂ w _ => ?_
  refine w.isAt first_nil fun w => ?_
  obtain ⟨hat, hsilent, F, hg, hF⟩ := w
  refine (Yields.of_ensures (Grows.complete ho hg)).bind fun x s₃ ⟨⟨hg', _⟩, hstill⟩ => .pure ?_
  refine ⟨F, hg', ?_, (hstill.diagnostics.trans hsilent).trans hclean, ?_⟩
  · exact congrArg (Tree.node .chunk) hF
  · rw [hstill.ahead, ahead_of_next hat.sound hat.next]

end LuaTree.Production
