import LuaTree.Proofs.Nesting.Expression

/-!
# Proofs/Nesting/Statement — how deep statements go

What is entered in a statement are its blocks, its conditions and bounds, and the elements of its lists.
The nodes of the statements themselves are entered nowhere.
-/

namespace LuaTree.Parser

open Grammar

variable {α β : Type} {i : Input} {s s' s₀ s₁ : State} {x : Closed} {enter : Enter} {place : Bool} {N m : Nat}

namespace Nesting

/-! ## Marks of reports -/

/-- Whatever is done, a mark that something was reported stays backed by a diagnostic. -/
theorem logs_unclaimed : Logs fun s s' => Unclaimed s → Unclaimed s' where
  mute hmute hs hclean := by
    obtain ⟨hlast, hlimit⟩ := hs (hmute.diagnostics.symm.trans hclean)
    exact ⟨hmute.lastReported.trans hlast, hmute.limitReached.trans hlimit⟩
  trans h h' hs := h' (h hs)
  log _ _ _ _ hclean := by simp [State.Clean, State.log] at hclean

theorem unclaimed_bailOut (limit : Nat) : Keeps (fun s s' => Unclaimed s → Unclaimed s') (bailOut limit) :=
  fun i s => (Logs.bailOut_yields limit).mono fun _ s' h hs hclean => by
    cases hlimit : s.limitReached with
    | true =>
      rw [h.1 hlimit] at hclean ⊢
      exact hs hclean
    | false =>
      obtain ⟨-, d, hd, -⟩ := h.2 hlimit
      simp [State.Clean, hd] at hclean

theorem unclaimed : Compositional fun _ p => Keeps (fun s s' => Unclaimed s → Unclaimed s') p :=
  logs_unclaimed.compositional unclaimed_bailOut

/-- A report leaves something reported, for whatever is said where nothing was. -/
theorem report_dirty (hs : Unclaimed s) (d : Diagnostic) : Yields (report d) i s fun _ s' => ¬ s'.Clean := by
  refine .assoc (.get ?_)
  split
  · rename_i h
    refine .pure fun hclean => ?_
    obtain ⟨hlast, hlimit⟩ := hs hclean
    simp [hlast, hlimit] at h
  · exact .last (.modifying (.pure fun hclean => by simp [State.Clean] at hclean))

/-- Where a parser may go on, what was reported is backed by a diagnostic. -/
theorem Ready.unclaimed (hs : Ready i s) : Unclaimed s := fun hclean => (hs hclean).reported hclean

theorem bareEnd_dirty (he : ∀ e, Keeps (fun s s' => Unclaimed s → Unclaimed s') (enter e))
    (hs : Unclaimed s) (whole list : Opening) :
    Yields (Production.bareEnd enter whole list) i s fun _ s' => ¬ s'.Clean := by
  refine (Nesting.unclaimed.congruence.moreExpressions (Compositional.enters he) i s).bind fun _ s₁ h₁ =>
    (logs_unclaimed.stepwise.complete list _ i s₁).bind fun list s₂ h₂ =>
    (logs_unclaimed.spanSince _ i s₂).bind fun span s₃ h₃ =>
    (report_dirty (h₃ (h₂ (h₁ hs))) _).bind fun _ s₄ hdirty => ?_
  refine (Logs.prefixed.bind (Logs.prefixed.stepwise.complete whole _) (fun _ => Logs.prefixed.pure ()) i s₄).mono
    fun _ s₅ hprefix hclean => hdirty (State.clean_of_prefix hprefix hclean)

/-- Bare expressions are reported. -/
theorem bareExpression_dirty (he : ∀ e, Keeps (fun s s' => Unclaimed s → Unclaimed s') (enter e))
    (hs : Unclaimed s) (whole list : Opening) (first : Option Closed) :
    Yields (Production.bareExpression enter whole list first) i s fun _ s' => ¬ s'.Clean := by
  refine (he _ i s).bind fun a s₁ h₁ => ?_
  cases a with
  | none =>
    exact (Nesting.unclaimed.congruence.problem (by decide) _ i s₁).bind fun _ s₂ h₂ =>
      bareEnd_dirty he (h₂ (h₁ hs)) whole list
  | some x => exact bareEnd_dirty he (h₁ hs) whole list

/-! ## Names -/

theorem isAtEither (a b : Kind) : Looks (Production.isAtEither a b) := by
  refine (Looks.isAt a).bind fun c => ?_
  split
  · exact .pure _
  · exact .isAt b

theorem names : Plain Production.names := by
  refine (Looks.isAt _).plain.bind fun b => ?_
  split
  · exact (Plain.expect _).bind fun _ => .pure _
  refine name.bind fun _ => .loop (fun count => (Plain.eat _).bind fun b => ?_) _
  split
  · exact .pure _
  refine (Looks.isAt _).plain.bind fun b => ?_
  split
  · exact (Plain.expect _).bind fun _ => .pure _
  · exact name.bind fun _ => .pure _

theorem pathEnd {o : Opening} (w : Row i s₀ s (Opens i s₀ o .blank) [.blank] false m) :
    Costs m (Production.pathEnd o) i s fun _ s' h => Row i s₀ s' True [] place h := by
  refine w.plain (.loop (fun _ => (Plain.eat _).bind fun b => ?_) ()) fun _ _ w => w.plain (.eat _) fun b _ w => ?_
  · split
    · exact .pure _
    · exact (Plain.expect _).bind fun _ => .pure _
  · split
    · exact w.plain (.expect _) fun _ _ w => w.finished (by decide) rfl
    · exact w.finished (by decide) rfl

theorem functionName : Adds place Production.functionName := by
  refine fun i s hs => hs.start fun o s₁ w => (w.row false).look (.isAt _) fun b s₂ w => ?_
  split
  · exact w.plain (.expect _) fun _ _ w => w.finished (by decide) rfl
  refine w.look (.peekAt 1) fun k s₃ w => ?_
  split
  · exact w.step nameRef.adds fun _ _ _ w => pathEnd w
  · exact w.step nameRef.adds fun _ _ _ w => pathEnd w
  · exact w.plain name fun _ _ w => pathEnd w

/-! ## Statements with blocks -/

namespace Enters

variable (he : Enters enter)
include he

theorem doStatement : Adds place (Production.doStatement enter) := fun _ _ hs =>
  hs.start fun _ _ w => (w.row false).look .currentSpan fun _ _ w => w.plain .bump fun _ _ w =>
    w.step he.block fun _ _ _ w => w.plain (.expectClosing _ _ _) fun _ _ w => w.finished (by decide) rfl

theorem whileStatement : Adds place (Production.whileStatement enter) := fun _ _ hs =>
  hs.start fun _ _ w => (w.row true).look .currentSpan fun _ _ w => w.plain .bump fun _ _ w =>
    w.step he.expectExpression fun _ _ _ w => w.plain (.expect _) fun _ _ w => w.step he.block fun _ _ _ w =>
    w.plain (.expectClosing _ _ _) fun _ _ w => w.finished (by decide) rfl

theorem repeatStatement : Adds place (Production.repeatStatement enter) := by
  refine fun i s hs => hs.start fun _ _ w => (w.row true).look .currentSpan fun _ _ w => w.plain .bump fun _ _ w =>
    w.step he.block fun _ _ _ w => w.plain (.expectClosing _ _ _) fun b _ w => ?_
  split
  · exact w.step he.expectExpression fun _ _ _ w => w.finished (by decide) rfl
  · exact w.finished (by decide) rfl

theorem elseifBranches : Adds place (Production.elseifBranches enter) := by
  refine .loop (fun _ => (Looks.isAt _).plain.adds.bind fun b => ?_) ()
  split
  · exact (Plain.pure _).adds
  · exact fun _ _ hs => hs.start fun _ _ w => (w.row true).plain .bump fun _ _ w =>
      w.step he.expectExpression fun _ _ _ w => w.plain (.expect _) fun _ _ w => w.step he.block fun _ _ _ w =>
      w.finish (by decide) fun _ w => .pure fun _ => by simpa using w place

theorem ifStatement : Adds place (Production.ifStatement enter) := by
  refine fun i s hs => hs.start fun o s₁ w => (w.row true).look .currentSpan fun keyword _ w =>
    w.plain .bump fun _ _ w => w.step he.expectExpression fun _ _ _ w => w.plain (.expect _) fun _ s₂ w =>
    w.ready.start fun thenBranch s₃ w' => (w'.row false).step he.block fun _ s₄ _ w' =>
    w'.finish (by decide) fun s₅ w' => (w.trans (w' true)).step he.elseifBranches fun _ s₆ _ w =>
    w.look (.isAt _) fun b s₇ w => ?_
  split
  · exact w.ready.start fun elseBranch s₃ w' => (w'.row false).plain .bump fun _ _ w' =>
      w'.step he.block fun _ s₄ _ w' => w'.finish (by decide) fun s₅ w' =>
      (w.trans (w' true)).plain (.expectClosing _ _ _) fun _ _ w => w.finished (by decide) rfl
  · exact w.plain (.expectClosing _ _ _) fun _ _ w => w.finished (by decide) rfl

theorem loopBody {o : Opening} {keyword : Span} {k : Kind}
    (hk : k ∉ [.returnStatement, .tombstone, .block] ++ expressionKinds)
    (w : Row i s₀ s (Opens i s₀ o .blank) [.blank] (Tree.entersFirst k) m) :
    Costs m (Production.loopBody enter o keyword k) i s fun _ s' h => Row i s₀ s' True [] place h :=
  w.plain (.expect _) fun _ _ w => w.step he.block fun _ _ _ w => w.plain (.expectClosing _ _ _) fun _ _ w =>
    w.finished hk rfl

theorem rangeFor {o list : Opening} {keyword : Span} (w : Light i s₀ s₁ (Opens i s₀ o .blank) [.blank])
    (w' : Light i s₁ s (Opens i s₁ list .blank) [.blank]) :
    Costs 0 (Production.rangeFor enter o list keyword) i s fun _ s' h => Row i s₀ s' True [] place h :=
  (w'.row false).finish (by decide) fun _ w' => ((w.row false).trans (w' false)).plain (.expect _)
    fun _ _ w => w.step he.expectExpressionList fun _ _ _ w => he.loopBody (by decide) w

theorem simpleFor {o list : Opening} {keyword : Span} (w : Light i s₀ s₁ (Opens i s₀ o .blank) [.blank])
    (w' : Light i s₁ s (Opens i s₁ list .blank) [.blank]) :
    Costs 0 (Production.simpleFor enter o list keyword) i s fun _ s' h => Row i s₀ s' True [] place h := by
  refine Read.abandon w' fun _ w' _ => ((w.trans w').row true).plain (.expect _) fun _ _ w =>
    w.step he.expectExpression fun _ _ _ w => w.plain (.expect _) fun _ _ w =>
    w.step he.expectExpression fun _ _ _ w => w.plain (.eat _) fun b _ w => ?_
  split
  · exact w.step he.expectExpression fun _ _ _ w => he.loopBody (by decide) w
  · exact he.loopBody (by decide) w

theorem forStatement : Adds place (Production.forStatement enter) := by
  rw [Production.forStatement_eq]
  refine fun i s hs => hs.start fun o s₁ w => w.light.look .currentSpan fun keyword _ w => Light.plain w .bump
    fun _ _ w => w.ready.start fun list s₂ w' => w'.light.plain names fun count s₃ w' => ?_
  split
  · exact he.rangeFor w w'
  · refine w'.look (.isAt _) fun ranges _ w' => ?_
    cases ranges with
    | true => exact he.rangeFor w w'
    | false => exact he.simpleFor w w'

/-! ## Functions and names -/

theorem functionStatement : Adds place (Production.functionStatement enter) := fun _ _ hs =>
  hs.start fun _ _ w => (w.row false).look .currentSpan fun keyword _ w => w.plain .bump fun _ _ w =>
    w.step functionName fun _ _ _ w => w.step (he.functionBody keyword) fun _ _ _ w => w.finished (by decide) rfl

theorem localStatement : Adds place (Production.localStatement enter) := by
  refine fun i s hs => hs.start fun o s₁ w => (w.row false).look .currentSpan fun keyword _ w =>
    w.plain .bump fun _ _ w => w.plain (.eat _) fun b _ w => ?_
  split
  · refine w.look (.isAt _) fun b _ w => ?_
    split
    · exact w.plain name fun _ _ w => w.step (he.functionBody keyword) fun _ _ _ w => w.finished (by decide) rfl
    · exact w.plain (.expect _) fun _ _ w => w.step (he.functionBody keyword) fun _ _ _ w =>
        w.finished (by decide) rfl
  · refine w.ready.start fun list _ w' => (w'.row false).plain names fun _ _ w' => w'.finish (by decide)
      fun _ w' => (w.trans (w' false)).plain (.eat _) fun b _ w => ?_
    split
    · exact w.step he.expectExpressionList fun _ _ _ w => w.finished (by decide) rfl
    · exact w.finished (by decide) rfl

/-! ## Statements that go somewhere -/

omit he in
theorem breakStatement : Adds place Production.breakStatement := fun _ _ hs =>
  hs.start fun _ _ w => (w.row false).plain .bump fun _ _ w => w.finished (by decide) rfl

omit he in
theorem gotoStatement : Adds place Production.gotoStatement := fun _ _ hs =>
  hs.start fun _ _ w => (w.row false).plain .bump fun _ _ w => w.plain (.expect _) fun _ _ w =>
    w.finished (by decide) rfl

omit he in
theorem labelStatement : Adds place Production.labelStatement := fun _ _ hs =>
  hs.start fun _ _ w => (w.row false).plain .bump fun _ _ w => w.plain (.expect _) fun _ _ w =>
    w.plain (.expect _) fun _ _ w => w.finished (by decide) rfl

theorem returnStatement : Adds place (Production.returnStatement enter) := by
  refine fun i s hs => hs.start fun o s₁ w => w.light.plain .bump fun _ s₂ w => ?_
  refine (he.expressionList w.ready).certain (fun b _ h => ⟨1, le_refl 1, .of_dirty h b⟩)
    fun b s₃ h ⟨hpos, hb⟩ => ?_
  have hlight {ts : List Tree} (h : ∀ t ∈ ts, t.IsLight) : ts.all (·.kind ≠ .expressionList) :=
    List.all_eq_true.2 fun t ht => decide_eq_true fun hkind => (h t ht).2 (by simp [hkind])
  -- without values, a level is needed for the list that was looked for
  have w : Read i s s₃ (Opens i s o .blank) [.blank] fun ts =>
      max (Tree.needOfList false ts) (ts.all (·.kind ≠ .expressionList)).toNat = h := by
    cases b with
    | true =>
      refine Read.trans w (hb false) fun ts us hts hus => ?_
      have hus : Tree.needOfList false us = h := by simpa [Draft.treesOfList] using hus
      rw [Tree.needOfList_append, Tree.needOfList_of_light hts, Nat.zero_max, hus]
      exact Nat.max_eq_left ((Bool.toNat_le _).trans hpos)
    | false =>
      obtain ⟨rfl, hl, -⟩ := hb
      refine (w.trans hl).mono fun ts hts => ?_
      rw [Tree.needOfList_of_light hts, hlight hts]
      rfl
  refine (Plain.eat _ i s₃ w.ready).level fun _ s₄ hr => ?_
  have w : Read i s s₄ (Opens i s o .blank) [.blank] fun ts =>
      max (Tree.needOfList false ts) (ts.all (·.kind ≠ .expressionList)).toNat = h := by
    have hsemicolon : Light i s₃ s₄ True [] := fun hclean => (hr hclean).2 hclean
    refine w.trans hsemicolon fun ts us hts hus => ?_
    rw [Tree.needOfList_append, List.all_append, Tree.needOfList_of_light hus, hlight hus, Bool.and_true,
      Nat.max_zero, hts]
  refine .last (.assoc (Read.complete (P := fun t => t.kind = .returnStatement ∧ t.need = h) w id (by decide)
    (fun ts _ hts => ⟨rfl, (Tree.need_return _).trans hts⟩) fun x s₅ hx => .pure fun _ => hx.row ?_))
  rintro t - ⟨hkind, hneed⟩
  have hentered : t.isEntered place = false := by
    rw [Tree.isEntered, hkind, decide_eq_false (show Kind.returnStatement ∉ expressionKinds by decide)]
    simp
  simp [hneed, hentered]

/-! ## Calls and assignments -/

omit he in
/-- A target of an assignment is not entered. -/
theorem assignee (place : Bool) (hx : Built i s₀ s x N) :
    Costs N (Production.assignee x) i s fun _ s' h => Row i s₀ s' True [] place h := by
  have hwrap {s : State} {N : Nat} (hx : Built i s₀ s x N) : Costs N (do
      Production.finish (← Parser.precede x) .var) i s fun _ s' h => Row i s₀ s' True [] place h := by
    refine hx.precede fun o b s₁ w _ => ?_
    refine .last (.assoc (Read.complete (P := fun t => t.kind = .var ∧ t.need = N) w Leads.opens (by decide)
      ?_ fun y s₂ hy => .pure fun _ => hy.row ?_))
    · rintro _ hb rfl
      refine ⟨rfl, ?_⟩
      rw [Tree.need_node (by decide), List.append_nil]
      exact hb.needOfList
    · rintro t - ⟨hkind, hneed⟩
      have hentered : t.isEntered place = false := by
        rw [Tree.isEntered, hkind, decide_eq_false (show Kind.var ∉ expressionKinds by decide)]
        simp
      simp [hneed, hentered]
  rw [Production.assignee]
  split
  · refine hx.look (.spanSince _) fun span s₁ hx => hx.read.ready.report (by simp) fun s₂ hdirty => ?_
    exact hwrap fun hclean => absurd hclean hdirty
  · exact hwrap hx

theorem moreVariables : Adds place (Production.moreVariables enter) := by
  refine .loop (fun _ => (Plain.eat _).adds.bind fun b => ?_) ()
  split
  · exact (Plain.pure _).adds
  refine fun i s hs => he.chain.step hs fun a s₁ h ha => ?_
  match a, ha with
  | none, ⟨hh, hl, _⟩ =>
    exact (hl.row place).plain (.expect _) fun _ _ w => .pure fun _ => by simpa [hh, Draft.treesOfList] using w
  | some x, ⟨m, hh, hx⟩ =>
    rw [hh, Bool.toNat_false, Nat.add_zero, Nat.zero_max]
    exact (assignee place hx).bind fun _ s₂ M hr => .pure fun hclean => (hr hclean).2

theorem assignment {whole list : Opening} (w : Light i s₀ s₁ (Opens i s₀ whole .blank) [.blank])
    (w' : Light i s₁ s' (Opens i s₁ list .blank) [.blank]) (hx : Built i s' s x N) :
    Costs N (Production.assignment enter whole list x) i s fun _ s' h => Row i s₀ s' True [] place h := by
  refine (assignee false hx).bind fun _ s₂ M hr => ?_
  have hr : Row i s' s₂ True [] false M := fun hclean => (hr hclean).2 hclean
  exact ((w'.blank false).trans hr).step he.moreVariables fun _ _ _ w' => w'.finish (by decide) fun _ w' =>
    ((w.blank false).trans (w' false)).plain (.expect _) fun _ _ w => w.step he.expectExpressionList
    fun _ _ _ w => w.finished (by decide) rfl

theorem bareExpression {Q : Unit → State → Nat → Prop} (hs : Ready i s) (whole list : Opening)
    (first : Option Closed) : Costs N (Production.bareExpression enter whole list first) i s Q :=
  .reporting (bareExpression_dirty he.claims hs.unclaimed whole list first)

theorem afterChain {whole list : Opening} (w : Light i s₀ s₁ (Opens i s₀ whole .blank) [.blank])
    (w' : Light i s₁ s' (Opens i s₁ list .blank) [.blank]) (hx : Built i s' s x N) :
    Costs N (Production.afterChain enter whole list x) i s fun _ s' h => Row i s₀ s' True [] place h := by
  refine hx.look (isAtEither _ _) fun b s₂ hx => ?_
  split
  · exact he.assignment w w' hx
  refine .bare (f := fun bare => if bare = .requireAssignment then
    Production.assignment enter whole list x else Production.bareExpression enter whole list (some x)) ?_
  split
  · exact he.assignment w w' hx
  · exact he.bareExpression hx.read.ready whole list _

theorem chainStatement : Adds place (Production.chainStatement enter) := by
  refine fun i s hs => hs.start fun whole s₁ w => w.read.ready.start fun list s₂ w' => ?_
  refine he.chain.step w'.read.ready fun first s₃ h ha => ?_
  match first, ha with
  | none, ⟨_, hl, _⟩ => exact he.bareExpression hl.ready whole list none
  | some x, ⟨m, hh, hx⟩ =>
    rw [hh, Bool.toNat_false, Nat.add_zero, Nat.zero_max]
    dsimp only
    split
    · refine hx.look (isAtEither _ _) fun b s₄ hx => ?_
      split
      · exact Read.abandon ((w'.light.blank false).trans (Built.row hx false)) fun s₅ w' _ =>
          ((w.light.blank false).trans w').finish (by decide) fun _ w => .pure fun _ => by simpa using w place
      · exact he.afterChain w.light w'.light hx
    · exact he.afterChain w.light w'.light hx

theorem statement : Adds place (Production.statement enter) := by
  have hdone {p : Parser Unit} (hp : Adds place p) : Adds place (do p; return true) :=
    hp.bind fun _ => (Plain.pure _).adds
  refine Looks.peek.plain.adds.bind fun k => ?_
  split
  · exact hdone he.doStatement
  · exact hdone he.whileStatement
  · exact hdone he.repeatStatement
  · exact hdone he.ifStatement
  · exact hdone he.forStatement
  · exact hdone he.functionStatement
  · exact hdone he.localStatement
  · exact hdone breakStatement
  · exact hdone he.returnStatement
  · exact hdone gotoStatement
  · exact hdone labelStatement
  · exact hdone he.chainStatement
  · exact hdone he.chainStatement
  · exact (Plain.pure _).adds

theorem allStatements : Adds place (Production.statements enter) := by
  refine .loop (fun _ => (Plain.eat _).adds.bind fun b => ?_) ()
  split
  · exact (Plain.pure _).adds
  refine (Looks.isAt _).plain.adds.bind fun last => he.statement.bind fun b => ?_
  split
  · exact (Plain.pure _).adds
  · exact (Plain.pure _).adds

end Enters

end Nesting

end LuaTree.Parser
