import LuaTree.Proofs.Abreast.Expression
import LuaTree.Proofs.Reading.Chunk

/-!
# Proofs/Abreast/Statement — statements and whole sources side by side

Here the recursion of the counted productions is tied, for two runs with different bounds: every bond is
kept by whole sources (`chunk_abreast`).
-/

namespace LuaTree.Parser.Bond

variable {i j : Input} {B : Bond i j} {s₀ t₀ s t : State} {enter enter' : Enter}

/-! ## Names -/

section

variable (B)

theorem names : B.Alongside Production.names Production.names := by
  refine (B.isAt _).alongside.bind fun b => ?_
  split
  · exact (B.expect _).bind fun _ => (B.pure _).alongside
  refine B.name.bind fun _ => Alongside.loop (fun count => (B.eat _).bind fun b => ?_) _
  split
  · exact (B.pure _).alongside
  refine (B.isAt _).alongside.bind fun b => ?_
  split
  · exact (B.expect _).bind fun _ => (B.pure _).alongside
  · exact B.name.bind fun _ => (B.pure _).alongside

theorem pathEnd {o o' : Opening} (ho : Opened i j s₀ t₀ o o' .blank .blank)
    (w : B.Abreast s₀ t₀ s t [.blank] [.blank]) : Both i j (Production.pathEnd o) (Production.pathEnd o') s t
      fun a s' b t' => a = b ∧ B.Abreast s₀ t₀ s' t' [] [] := by
  refine w.step (Alongside.loop (fun _ => (B.eat _).bind fun b => ?_) ()) fun _ _ _ w =>
    w.step (B.eat _) fun b _ _ w => ?_
  · split
    · exact (B.pure _).alongside
    · exact (B.expect _).bind fun _ => (B.pure _).alongside
  · split
    · exact w.step (B.expect _) fun _ _ _ w => w.finish ho (by decide)
    · exact w.finish ho (by decide)

theorem functionName : B.Alongside Production.functionName Production.functionName := by
  refine fun s t w => w.start fun o o' _ _ ho w => w.step (B.isAt _).alongside fun b _ _ w => ?_
  split
  · exact w.step (B.expect _) fun _ _ _ w => w.finish ho (by decide)
  refine w.step (B.peekAt 1).alongside fun k _ _ w => ?_
  split
  · exact w.build B.nameRef fun _ _ _ _ w => B.pathEnd ho w
  · exact w.build B.nameRef fun _ _ _ _ w => B.pathEnd ho w
  · exact w.step B.name fun _ _ _ w => B.pathEnd ho w

theorem breakStatement : B.Alongside Production.breakStatement Production.breakStatement := fun _ _ w =>
  w.start fun _ _ _ _ ho w => w.step B.bump fun _ _ _ w => w.finish ho (by decide)

theorem gotoStatement : B.Alongside Production.gotoStatement Production.gotoStatement := fun _ _ w =>
  w.start fun _ _ _ _ ho w => w.step B.bump fun _ _ _ w => w.step (B.expect _) fun _ _ _ w =>
    w.finish ho (by decide)

theorem labelStatement : B.Alongside Production.labelStatement Production.labelStatement := fun _ _ w =>
  w.start fun _ _ _ _ ho w => w.step B.bump fun _ _ _ w => w.step (B.expect _) fun _ _ _ w =>
    w.step (B.expect _) fun _ _ _ w => w.finish ho (by decide)

theorem isAtEither (a b : Kind) : B.Beside (Production.isAtEither a b) (Production.isAtEither a b) := by
  refine (B.isAt a).bind fun c => ?_
  split
  · exact B.pure _
  · exact B.isAt b

end

namespace Enters

variable (he : B.Enters enter enter')
include he

/-! ## Statements with blocks -/

theorem doStatement : B.Alongside (Production.doStatement enter) (Production.doStatement enter') :=
  fun _ _ w => w.start fun _ _ _ _ ho w => w.opener fun h _ _ w => w.step he.block fun _ _ _ w =>
    w.closing h fun _ _ _ w => w.finish ho (by decide)

theorem whileStatement : B.Alongside (Production.whileStatement enter) (Production.whileStatement enter') :=
  fun _ _ w => w.start fun _ _ _ _ ho w => w.opener fun h _ _ w => w.step he.expectExpression fun _ _ _ w =>
    w.step (B.expect _) fun _ _ _ w => w.step he.block fun _ _ _ w => w.closing h fun _ _ _ w =>
      w.finish ho (by decide)

theorem repeatStatement :
    B.Alongside (Production.repeatStatement enter) (Production.repeatStatement enter') := by
  refine fun _ _ w => w.start fun _ _ _ _ ho w => w.opener fun h _ _ w => w.step he.block fun _ _ _ w =>
    w.closing h fun b _ _ w => ?_
  split
  · exact w.step he.expectExpression fun _ _ _ w => w.finish ho (by decide)
  · exact w.finish ho (by decide)

theorem elseifBranches :
    B.Alongside (Production.elseifBranches enter) (Production.elseifBranches enter') := by
  refine Alongside.loop (fun _ => (B.isAt _).alongside.bind fun b => ?_) ()
  split
  · exact (B.pure _).alongside
  refine fun _ _ w => w.start fun _ _ _ _ ho w => w.step B.bump fun _ _ _ w =>
    w.step he.expectExpression fun _ _ _ w => w.step (B.expect _) fun _ _ _ w =>
      w.step he.block fun _ _ _ w => ?_
  exact (w.finish ho (by decide)).bind fun _ _ _ _ ⟨_, w⟩ => .pure ⟨rfl, w⟩

theorem ifStatement : B.Alongside (Production.ifStatement enter) (Production.ifStatement enter') := by
  refine fun _ _ w => w.start fun _ _ _ _ ho w => w.opener fun h _ _ w => w.step he.expectExpression
    fun _ _ _ w => w.step (B.expect _) fun _ _ _ w => w.now.start fun _ _ _ _ hthen w' =>
      w'.step he.block fun _ _ _ w' => ?_
  refine (w'.finish hthen (by decide)).bind fun _ _ _ _ ⟨_, w'⟩ => ?_
  refine (w.trans w').step he.elseifBranches fun _ _ _ w => w.step (B.isAt _).alongside fun b _ _ w => ?_
  split
  · refine w.now.start fun _ _ _ _ helse w' => w'.step B.bump fun _ _ _ w' =>
      w'.step he.block fun _ _ _ w' => ?_
    refine (w'.finish helse (by decide)).bind fun _ _ _ _ ⟨_, w'⟩ => ?_
    exact (w.trans w').closing h fun _ _ _ w => w.finish ho (by decide)
  · exact w.closing h fun _ _ _ w => w.finish ho (by decide)

theorem loopBody {o o' : Opening} {x y : Span} {ds es : List Draft} {k : Kind}
    (ho : Opened i j s₀ t₀ o o' .blank .blank) (hxy : B.Among ds es x y) (hk : k ∉ [.error, .tombstone, .garbage])
    (w : B.Abreast s₀ t₀ s t (.blank :: ds) (.blank :: es)) :
    Both i j (Production.loopBody enter o x k) (Production.loopBody enter' o' y k) s t
      fun a s' b t' => a = b ∧ B.Abreast s₀ t₀ s' t' [] [] :=
  w.step (B.expect _) fun _ _ _ w => w.step he.block fun _ _ _ w => w.closing hxy fun _ _ _ w => w.finish ho hk

section

variable {o o' list list' : Opening} {x y : Span} {ds es : List Draft} {s₁ t₁ : State}
  (ho : Opened i j s₀ t₀ o o' .blank .blank) (hlist : Opened i j s₁ t₁ list list' .blank .blank)
  (hxy : B.Among ds es x y) (w : B.Abreast s₀ t₀ s₁ t₁ (.blank :: ds) (.blank :: es))
  (w' : B.Abreast s₁ t₁ s t [.blank] [.blank])
include ho hlist hxy w w'

theorem rangeFor : Both i j (Production.rangeFor enter o list x) (Production.rangeFor enter' o' list' y) s t
    fun a s' b t' => a = b ∧ B.Abreast s₀ t₀ s' t' [] [] := by
  refine (w'.finish hlist (by decide)).bind fun _ _ _ _ ⟨_, w'⟩ => ?_
  exact (w.trans w').step (B.expect _) fun _ _ _ w => w.step he.expectExpressionList fun _ _ _ w =>
    he.loopBody ho hxy (by decide) w

theorem simpleFor : Both i j (Production.simpleFor enter o list x) (Production.simpleFor enter' o' list' y) s t
    fun a s' b t' => a = b ∧ B.Abreast s₀ t₀ s' t' [] [] := by
  refine (w'.abandon hlist).bind fun _ _ _ _ ⟨_, w'⟩ => ?_
  refine (w.trans w').step (B.expect _) fun _ _ _ w => w.step he.expectExpression fun _ _ _ w =>
    w.step (B.expect _) fun _ _ _ w => w.step he.expectExpression fun _ _ _ w => w.step (B.eat _) fun b _ _ w => ?_
  split
  · exact w.step he.expectExpression fun _ _ _ w => he.loopBody ho hxy (by decide) w
  · exact he.loopBody ho hxy (by decide) w

end

theorem forStatement : B.Alongside (Production.forStatement enter) (Production.forStatement enter') := by
  rw [Production.forStatement_eq, Production.forStatement_eq]
  refine fun s t w => w.start fun o o' _ _ ho w => w.opener fun hxy s₁ t₁ w =>
    w.now.start fun list list' _ _ hlist w' => w'.step B.names fun count _ _ w' => ?_
  split
  · exact he.rangeFor ho hlist hxy w w'
  · refine w'.step (B.isAt _).alongside fun ranges _ _ w' => ?_
    cases ranges with
    | true => exact he.rangeFor ho hlist hxy w w'
    | false => exact he.simpleFor ho hlist hxy w w'

theorem functionStatement :
    B.Alongside (Production.functionStatement enter) (Production.functionStatement enter') :=
  fun _ _ w => w.start fun _ _ _ _ ho w => w.opener fun h _ _ w => w.step B.functionName fun _ _ _ w =>
    he.functionAfter w h fun _ _ w => w.finish ho (by decide)

theorem localStatement : B.Alongside (Production.localStatement enter) (Production.localStatement enter') := by
  refine fun _ _ w => w.start fun _ _ _ _ ho w => w.opener fun h _ _ w => w.step (B.eat _) fun b _ _ w => ?_
  split
  · refine w.step (B.isAt _).alongside fun b _ _ w => ?_
    split
    · exact w.step B.name fun _ _ _ w => he.functionAfter w h fun _ _ w => w.finish ho (by decide)
    · exact w.step (B.expect _) fun _ _ _ w => he.functionAfter w h fun _ _ w => w.finish ho (by decide)
  · refine w.now.start fun _ _ _ _ hlist w' => w'.step B.names fun _ _ _ w' => ?_
    refine (w'.finish hlist (by decide)).bind fun _ _ _ _ ⟨_, w'⟩ => ?_
    refine (w.trans w').step (B.eat _) fun b _ _ w => ?_
    split
    · exact w.step he.expectExpressionList fun _ _ _ w => w.finish ho (by decide)
    · exact w.finish ho (by decide)

theorem returnStatement :
    B.Alongside (Production.returnStatement enter) (Production.returnStatement enter') :=
  fun _ _ w => w.start fun _ _ _ _ ho w => w.step B.bump fun _ _ _ w => w.step he.expressionList
    fun _ _ _ w => w.step (B.eat _) fun _ _ _ w => w.finish ho (by decide)

/-! ## Calls, assignments and bare expressions -/

omit he in
theorem assignee {x y : Closed} (w : B.Finished s₀ t₀ s t x y) :
    Both i j (Production.assignee x) (Production.assignee y) s t
      fun a s' b t' => a = b ∧ B.Abreast s₀ t₀ s' t' [] [] := by
  have hwrap {s t : State} (w : B.Finished s₀ t₀ s t x y) :
      Both i j (do Production.finish (← Parser.precede x) .var) (do Production.finish (← Parser.precede y) .var)
        s t fun a s' b t' => a = b ∧ B.Abreast s₀ t₀ s' t' [] [] :=
    w.precede fun _ _ _ _ _ _ ho _ w => w.finish ho (by decide)
  rw [Production.assignee, Production.assignee, w.kind]
  split
  · exact w.report (by decide) (by decide) fun _ _ w => hwrap w
  · exact hwrap w

theorem moreVariables : B.Alongside (Production.moreVariables enter) (Production.moreVariables enter') := by
  refine Alongside.loop (fun _ => (B.eat _).bind fun b => ?_) ()
  split
  · exact (B.pure _).alongside
  refine fun s t w => (he.chain s t w).bind fun a s' b t' h => ?_
  match a, b, h with
  | none, none, h => exact h.abreast.step (B.expect _) fun _ _ _ w => .pure ⟨rfl, w⟩
  | some _, some _, w => exact (assignee w).bind fun _ _ _ _ ⟨_, w⟩ => .pure ⟨rfl, w⟩

theorem assignment {s₁ t₁ s₂ t₂ : State} {whole whole' list list' : Opening} {x y : Closed}
    (hwhole : Opened i j s₀ t₀ whole whole' .blank .blank) (w₀ : B.Abreast s₀ t₀ s₁ t₁ [.blank] [.blank])
    (hlist : Opened i j s₁ t₁ list list' .blank .blank) (w₁ : B.Abreast s₁ t₁ s₂ t₂ [.blank] [.blank])
    (w : B.Finished s₂ t₂ s t x y) :
    Both i j (Production.assignment enter whole list x) (Production.assignment enter' whole' list' y) s t
      fun a s' b t' => a = b ∧ B.Abreast s₀ t₀ s' t' [] [] := by
  refine (assignee w).bind fun _ _ _ _ ⟨_, w⟩ => (w₁.trans w).step he.moreVariables fun _ _ _ w => ?_
  refine (w.finish hlist (by decide)).bind fun _ _ _ _ ⟨_, w⟩ => ?_
  exact (w₀.trans w).step (B.expect _) fun _ _ _ w => w.step he.expectExpressionList fun _ _ _ w =>
    w.finish hwhole (by decide)

theorem bareEnd {s₁ t₁ : State} {whole whole' list list' : Opening} {ds es : List Draft}
    (hwhole : Opened i j s₀ t₀ whole whole' .blank .blank) (w₀ : B.Abreast s₀ t₀ s₁ t₁ [.blank] [.blank])
    (hlist : Opened i j s₁ t₁ list list' .blank .blank) (h : Filled ds es)
    (w : B.Abreast s₁ t₁ s t (.blank :: ds) (.blank :: es)) :
    Both i j (Production.bareEnd enter whole list) (Production.bareEnd enter' whole' list') s t
      fun a s' b t' => a = b ∧ B.Abreast s₀ t₀ s' t' [] [] := by
  refine w.step he.moreExpressions fun _ _ _ w => (w.node hlist h.cons (by decide)).bind fun _ _ _ _ w =>
    w.report (by decide) (by decide) fun _ _ w => ?_
  exact (w₀.trans w.abreast).finish hwhole (by decide)

theorem bareExpression {s₁ t₁ s₂ t₂ : State} {whole whole' list list' : Opening} {x y : Closed}
    (hwhole : Opened i j s₀ t₀ whole whole' .blank .blank) (w₀ : B.Abreast s₀ t₀ s₁ t₁ [.blank] [.blank])
    (hlist : Opened i j s₁ t₁ list list' .blank .blank) (w₁ : B.Abreast s₁ t₁ s₂ t₂ [.blank] [.blank])
    (w : B.Finished s₂ t₂ s t x y) :
    Both i j (Production.bareExpression enter whole list (some x))
      (Production.bareExpression enter' whole' list' (some y)) s t fun a s' b t' =>
        a = b ∧ B.Abreast s₀ t₀ s' t' [] [] := by
  have hoperand : B.Operand s₂ t₂ s t (some x) (some y) := w
  refine (he _ _ _ _ _ _ (.operation _ hoperand)).bind fun a s' b t' h => ?_
  obtain ⟨F, G, w, hfilled⟩ := h.row
  obtain ⟨ds, es, hfilled, w⟩ := w₁.filled w (hfilled rfl)
  match a, b, h with
  | none, none, _ =>
    exact w.step (B.problem (by decide) _).alongside fun _ _ _ w => he.bareEnd hwhole w₀ hlist hfilled w
  | some _, some _, _ => exact he.bareEnd hwhole w₀ hlist hfilled w

theorem afterChain {s₁ t₁ s₂ t₂ : State} {whole whole' list list' : Opening} {x y : Closed}
    (hwhole : Opened i j s₀ t₀ whole whole' .blank .blank) (w₀ : B.Abreast s₀ t₀ s₁ t₁ [.blank] [.blank])
    (hlist : Opened i j s₁ t₁ list list' .blank .blank) (w₁ : B.Abreast s₁ t₁ s₂ t₂ [.blank] [.blank])
    (w : B.Finished s₂ t₂ s t x y) :
    Both i j (Production.afterChain enter whole list x) (Production.afterChain enter' whole' list' y) s t
      fun a s' b t' => a = b ∧ B.Abreast s₀ t₀ s' t' [] [] := by
  refine w.step (B.isAtEither _ _) fun b _ _ w => ?_
  split
  · exact he.assignment hwhole w₀ hlist w₁ w
  refine .read ?_
  rw [B.settings]
  split
  · exact he.assignment hwhole w₀ hlist w₁ w
  · exact he.bareExpression hwhole w₀ hlist w₁ w

/-- A statement that begins with a chain, where one begins. -/
theorem chainStatement (w : B.Rows s t s t [] []) (hnext : s.next ∈ [.ident, .parenOpen]) :
    Both i j (Production.chainStatement enter) (Production.chainStatement enter') s t fun a s' b t' =>
      a = b ∧ B.Abreast s t s' t' [] [] := by
  refine w.open fun whole whole' s₁ t₁ hwhole w₀ => w₀.now.open fun list list' s₂ t₂ hlist w₁ =>
    (he.chain_both w₁.now).bind fun a s₃ b t₃ ⟨h, hfound⟩ => ?_
  have hnext₂ : s₂.next = s.next := State.next_of_ahead (w₀.left.ahead.trans w₁.left.ahead).symm
  have w₀ : B.Abreast s t s₁ t₁ [.blank] [.blank] := ⟨[], [], w₀⟩
  have w₁ : B.Abreast s₁ t₁ s₂ t₂ [.blank] [.blank] := ⟨[], [], w₁⟩
  match a, b, h with
  | none, none, _ => exact absurd (hfound (hnext₂ ▸ hnext)) nofun
  | some x, some y, w =>
    dsimp only
    rw [w.kind]
    split
    · refine w.step (B.isAtEither _ _) fun b _ _ w => ?_
      split
      · refine ((w₁.trans w.abreast).abandon hlist).bind fun _ _ _ _ ⟨_, w⟩ => ?_
        exact ((w₀.trans w).finish hwhole (by decide)).bind fun _ _ _ _ ⟨_, w⟩ => .pure ⟨rfl, w⟩
      · exact he.afterChain hwhole w₀ hlist w₁ w
    · exact he.afterChain hwhole w₀ hlist w₁ w

/-! ## Lists of statements -/

theorem statement : B.Alongside (Production.statement enter) (Production.statement enter') := by
  intro s t w
  refine Both.bind (p := Parser.peek) (q := Parser.peek) (peekAt_both w 0) ?_
  rintro k s' _ t' ⟨rfl, hk, w'⟩
  have hk : k = s'.next := by
    rw [hk, State.next_of_ahead w'.left.ahead.symm, State.next, List.head?_eq_getElem?]
  have hboth {p q : Parser Unit} (h : Both i j p q s' t' fun a s₁ b t₁ => a = b ∧ B.Abreast s' t' s₁ t₁ [] []) :
      Both i j (do p; return true) (do q; return true) s' t' fun a s₁ b t₁ =>
        a = b ∧ B.Abreast s t s₁ t₁ [] [] :=
    h.bind fun _ _ _ _ h => .pure ⟨rfl, h.2.after w'⟩
  have hdone {p q : Parser Unit} (h : B.Alongside p q) : Both i j (do p; return true) (do q; return true)
      s' t' fun a s₁ b t₁ => a = b ∧ B.Abreast s t s₁ t₁ [] [] := hboth (h s' t' w'.now)
  split
  · exact hdone he.doStatement
  · exact hdone he.whileStatement
  · exact hdone he.repeatStatement
  · exact hdone he.ifStatement
  · exact hdone he.forStatement
  · exact hdone he.functionStatement
  · exact hdone he.localStatement
  · exact hdone B.breakStatement
  · exact hdone he.returnStatement
  · exact hdone B.gotoStatement
  · exact hdone B.labelStatement
  · exact hboth (he.chainStatement w'.now (hk ▸ by simp))
  · exact hboth (he.chainStatement w'.now (hk ▸ by simp))
  · exact .pure ⟨rfl, w'.abreast⟩

theorem statementRound : B.Alongside (Production.statementRound enter) (Production.statementRound enter') := by
  refine (B.eat _).bind fun b => ?_
  split
  · exact (B.pure _).alongside
  refine (B.isAt _).alongside.bind fun last => he.statement.bind fun b => ?_
  split
  · exact (B.pure _).alongside
  · exact (B.pure _).alongside

theorem statements : B.Alongside (Production.statements enter) (Production.statements enter') :=
  Alongside.loop (fun _ => he.statementRound) ()

end Enters

/-! ## Whole sources -/

/-- **The counted productions are entered side by side**, however deep each run may go. -/
theorem enters (B : Bond i j) (n : Nat) : ∀ m, B.Enters (Production.enter n) (Production.enter m) := by
  have hzero (e : Entry) (i : Input) (s : State) (r : Option Closed × State) :
      Production.enter 0 e i s ≠ .ok r := nofun
  induction n with
  | zero => exact fun m s₀ t₀ s t e e' _ a s' _ _ hrun => absurd hrun (hzero e i s _)
  | succ n ih =>
  intro m
  cases m with
  | zero => exact fun s₀ t₀ s t e e' _ _ _ b t' _ hrun => absurd hrun (hzero e' j t _)
  | succ m =>
    have he := ih m
    have hbail {resumed : Bool} {s₀ t₀ s t : State} {F G : List Draft} (w : B.Rows s₀ t₀ s t F G)
        (hfilled : resumed = true → Filled F G) (limit : Nat) :
        Both i j (Parser.bailOut limit) (Parser.bailOut limit) s t fun _ s' _ t' =>
          B.Result resumed s₀ t₀ s' t' none none :=
      (B.bailOut limit _ _ w.now).mono fun _ _ _ _ ⟨_, _, _, w'⟩ =>
        ⟨_, _, w.trans w', fun h => (hfilled h).before⟩
    intro s₀ t₀ s t e e' h
    cases h with
    | operation levels h =>
      obtain ⟨F, G, w, hfilled⟩ := h.row
      refine .nested B.settings w.depth (hbail w hfilled) ?_
      exact (he.operation levels h.deeper).mono fun _ _ _ _ h => h.upper w.left.before w.right.before
    | unary h =>
      obtain ⟨F, G, w, hfilled⟩ := h.row
      refine .nested B.settings w.depth (hbail w hfilled) ?_
      exact (he.unary h.deeper).mono fun _ _ _ _ h => h.upper w.left.before w.right.before
    | statements h =>
      obtain ⟨F, G, w, hfilled⟩ := h.row
      obtain ⟨rfl, rfl, w'⟩ := h
      refine .nested B.settings w.depth (hbail w hfilled) ?_
      refine (he.statements _ _ w'.deeper).bind fun _ _ _ _ ⟨_, w'⟩ => .pure ?_
      exact (Result.absent w').upper w.left.before w.right.before

theorem Enters.garbageRound (he : B.Enters enter enter') :
    B.Alongside (Production.garbageRound enter) (Production.garbageRound enter') := by
  have hbump : B.Alongside (do Parser.bump; return Round.again (α := Unit) ())
      (do Parser.bump; return Round.again ()) := B.bump.bind fun _ => (B.pure _).alongside
  refine (B.isAt _).alongside.bind fun b => ?_
  split
  · exact (B.pure _).alongside
  refine (B.isAtOneOf _).alongside.bind fun b => ?_
  split
  · refine he.statement.bind fun b => ?_
    split
    · exact (B.pure _).alongside
    · exact hbump
  · exact hbump

theorem Enters.garbage (he : B.Enters enter enter') (w : B.Rows s t s t [] []) (hs : s.ahead ≠ [])
    (ht : t.ahead ≠ []) : Both i j (Production.garbage enter) (Production.garbage enter') s t
      fun a s' b t' => a = b ∧ B.Abreast s t s' t' [] [] :=
  w.start fun _ _ _ _ ho w => w.step (B.problem (by decide) _).alongside fun _ _ _ w =>
    w.step (Alongside.loop (fun _ => he.garbageRound) ()) fun _ _ _ w =>
      (w.complete ho (by decide) fun _ => ⟨hs, ht⟩).bind fun _ _ _ _ h => .pure ⟨rfl, h.1⟩

/-- At the end nothing lies ahead, in both runs. -/
theorem isAtEnd_both (w : B.Rows s t s t [] []) : Both i j Parser.isAtEnd Parser.isAtEnd s t
    fun a s' b t' => a = b ∧ (a = false → s.ahead ≠ [] ∧ t.ahead ≠ []) ∧ B.Rows s t s' t' [] [] := by
  refine (isAt_both w .error).mono ?_
  rintro a s' _ t' ⟨rfl, hnext, w'⟩
  refine ⟨rfl, fun ha => ?_, w'⟩
  have hsignificant {s : State} (h : s.significant ≠ []) : s.ahead ≠ [] := fun hnil =>
    h (by rw [s.significant_eq, hnil]; rfl)
  have hs : s.significant ≠ [] := fun hnil => by simp [ha, State.next, hnil] at hnext
  refine ⟨hsignificant hs, hsignificant fun hnil => hs ?_⟩
  have hkinds := B.kinds w.holds
  rw [State.significant_outlook, State.significant_outlook, hnil] at hkinds
  exact List.map_eq_nil_iff.1 hkinds

theorem Enters.leftovers (he : B.Enters enter enter') :
    B.Alongside (Production.leftovers enter) (Production.leftovers enter') := by
  refine fun s t w => (isAtEnd_both w).bind ?_
  rintro b s₁ _ t₁ ⟨rfl, hleft, w'⟩
  cases b with
  | true => exact .pure ⟨rfl, w'.abreast⟩
  | false =>
    -- what is left over is not nothing
    obtain ⟨hs, ht⟩ := hleft rfl
    rw [w'.left.ahead] at hs
    rw [w'.right.ahead] at ht
    exact (he.garbage w'.now hs ht).mono fun _ _ _ _ ⟨h, w''⟩ => ⟨h, w''.after w'⟩

/-- **Every bond is kept by whole sources**, which are read into one node each. -/
theorem chunk_abreast (hs : s.Coherent i) (ht : t.Coherent j) (hdepth : s.depth = t.depth)
    (h : B.Holds s.outlook t.outlook s.outlook t.outlook [] []) :
    Both i j Production.chunk Production.chunk s t fun _ s' _ t' => ∃ F G,
      B.Rows s t s' t' [.grown (.node .chunk F)] [.grown (.node .chunk G)] := by
  rw [Production.chunk_eq]
  refine .read ?_
  have ho : Opens i s ⟨s.events.size, s.snapshot⟩ .blank := opens_start hs
  have ho' : Opens j t ⟨t.events.size, t.snapshot⟩ .blank := opens_start ht
  have hleft : Draws i s { s with events := s.events.push .blank } [.blank] := ⟨.blank hs, trivial⟩
  have hright : Draws j t { t with events := t.events.push .blank } [.blank] := ⟨.blank ht, trivial⟩
  refine Both.bind (Q := fun o s' o' t' => o = ⟨s.events.size, s.snapshot⟩ ∧
    s' = { s with events := s.events.push .blank } ∧ o' = ⟨t.events.size, t.snapshot⟩ ∧
    t' = { t with events := t.events.push .blank }) ?_ ?_
  · intro o s' o' t' hrun hrun'
    cases hrun
    cases hrun'
    exact ⟨rfl, rfl, rfl, rfl⟩
  rintro _ s₁ _ t₁ ⟨rfl, hs₁, rfl, ht₁⟩
  rw [← hs₁] at hleft
  rw [← ht₁] at hright
  have hlook : s₁.outlook = s.outlook := by rw [hs₁]; rfl
  have hlook' : t₁.outlook = t.outlook := by rw [ht₁]; rfl
  refine (Both.of_yields (.of_ensures (wrapUnknown_outlook hleft.coherent))
    (.of_ensures (wrapUnknown_outlook hright.coherent))).bind ?_
  rintro _ s₂ _ t₂ ⟨⟨hg, hlook₂, hs₂⟩, hg', hlook₂', ht₂⟩
  have w : B.Abreast s t s₂ t₂ [.blank] [.blank] := by
    refine ⟨_, _, hleft.trans hg, hright.trans hg', hs₂, ht₂, ?_, ?_⟩
    · rw [hg.depth, hleft.depth, hg'.depth, hright.depth, hdepth]
    · rw [hlook₂, hlook₂', hlook, hlook']
      refine B.trans (F := [.blank]) (G := [.blank]) (B.blank_left.2 (B.blank_right.2 h)) ?_
      change B.Holds _ _ _ _ (unknownNodes s₁.outlook.ahead) (unknownNodes t₁.outlook.ahead)
      rw [hlook, hlook']
      exact B.settle h (faces_of_coherent hs) (faces_of_coherent ht)
  have he := B.enters i.bound j.bound
  refine w.step he.block fun _ _ _ w => w.step he.leftovers fun _ _ _ ⟨F, G, w⟩ => ?_
  exact (Rows.complete (k := .chunk) w ho ho' (by decide) nofun).bind fun _ _ _ _ h => .pure ⟨F, G, h.2.1⟩

end LuaTree.Parser.Bond
