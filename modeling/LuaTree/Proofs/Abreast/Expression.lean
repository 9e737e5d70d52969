import LuaTree.Proofs.Abreast
import LuaTree.Proofs.Reading.Operation

/-!
# Proofs/Abreast/Expression — expressions side by side

Tables, functions, chains and operations keep every bond, if the counted productions do.
-/

namespace LuaTree.Parser.Bond

variable {i j : Input} {B : Bond i j} {s₀ t₀ s t : State} {enter enter' : Enter}

/-! ## Single tokens and lists -/

section

variable (B)

theorem single (k : Kind) (hk : k ∉ [.error, .tombstone, .garbage]) :
    B.Builds (Production.single k) (Production.single k) := fun _ _ w =>
  w.start fun _ _ _ _ ho w => w.bump fun h _ _ w => w.node ho h.cons hk

theorem name : B.Alongside Production.name Production.name :=
  (B.require _).alongside.bind fun _ => (B.single .name (by decide)).bind fun _ _ => (B.pure _).alongside

theorem nameRef : B.Builds Production.nameRef Production.nameRef :=
  (B.require _).builds fun _ => B.single _ (by decide)

end

/-- What is missing is reported in both runs. -/
theorem Finds.orProblem {p q : Parser (Option Closed)} (h : B.Finds p q) :
    B.Alongside (do if (← p).isNone then Parser.problem .expectedExpression none)
      (do if (← q).isNone then Parser.problem .expectedExpression none) := by
  refine fun s t w => (h s t w).bind fun a s' b t' hr => ?_
  match a, b, hr with
  | none, none, h => exact h.abreast.last (B.problem (by decide) _).alongside
  | some _, some _, w => exact .pure ⟨rfl, w.abreast⟩

namespace Enters

variable (he : B.Enters enter enter')
include he

theorem expression : B.Finds (Production.expression enter none) (Production.expression enter' none) :=
  fun _ _ w => he _ _ _ _ _ _ (.operation _ w.operand)

theorem expectExpression :
    B.Alongside (Production.expectExpression enter) (Production.expectExpression enter') :=
  he.expression.orProblem

theorem moreExpressions :
    B.Alongside (Production.moreExpressions enter) (Production.moreExpressions enter') := by
  refine Alongside.loop (fun _ => (B.eat _).bind fun b => ?_) ()
  split
  · exact he.expectExpression.bind fun _ => (B.pure _).alongside
  · exact (B.pure _).alongside

theorem expressionList :
    B.Alongside (Production.expressionList enter) (Production.expressionList enter') := by
  refine fun s t w => w.start fun o o' s₁ t₁ ho w => ?_
  refine (he.expression s₁ t₁ w.now).bind fun a s₂ b t₂ hr => ?_
  have w := w.trans hr.abreast
  match a, b, hr with
  | none, none, _ => exact (w.abandon ho).bind fun _ _ _ _ ⟨_, w⟩ => .pure ⟨rfl, w⟩
  | some _, some _, _ =>
    refine w.step he.moreExpressions fun _ _ _ w => ?_
    exact (w.finish ho (by decide)).bind fun _ _ _ _ ⟨_, w⟩ => .pure ⟨rfl, w⟩

theorem expectExpressionList :
    B.Alongside (Production.expectExpressionList enter) (Production.expectExpressionList enter') := by
  refine he.expressionList.bind fun b => ?_
  split
  · exact (B.problem (by decide) _).alongside
  · exact (B.pure _).alongside

theorem block : B.Alongside (Production.block enter) (Production.block enter') := by
  refine fun s t w => w.start fun _ _ _ _ houter w => w.now.start fun _ _ _ _ hlist w' => ?_
  refine (he _ _ _ _ _ _ (.statements w'.now.operand)).bind fun _ _ _ _ hr => ?_
  refine ((w'.trans hr.abreast).finish hlist (by decide)).bind fun _ _ _ _ ⟨_, w'⟩ => ?_
  exact (w.trans w').finish houter (by decide)

end Enters

/-! ## Functions -/

section

variable (B)

theorem parameterRound : B.Alongside Production.parameterRound Production.parameterRound := by
  refine B.peek.alongside.bind fun k => ?_
  split
  · refine B.name.bind fun _ => (B.isAt _).alongside.bind fun b => ?_
    split
    · exact (B.pure _).alongside
    refine B.bump.bind fun _ => B.peek.alongside.bind fun k => ?_
    split
    · exact (B.pure _).alongside
    · exact (B.pure _).alongside
    · exact (B.expect _).bind fun _ => (B.pure _).alongside
  · exact B.bump.bind fun _ => (B.pure _).alongside
  · exact (B.pure _).alongside

theorem parameterList : B.Alongside Production.parameterList Production.parameterList := by
  refine fun s t w => w.start fun _ _ _ _ ho w => w.expectOpener (fun h _ _ w => ?_) fun _ _ _ _ _ w => ?_
  · refine w.step (Alongside.loop (fun _ => B.parameterRound) ()) fun _ _ _ w => ?_
    exact w.closing h fun _ _ _ w => w.finish ho (by decide)
  · exact w.finish ho (by decide)

end

namespace Enters

variable (he : B.Enters enter enter')
include he

/-- A function after its keyword. -/
theorem functionBody {x y : Span} (w : B.Rows s t s t [] []) (h : B.Noted s t x y) :
    Both i j (Production.functionBody enter x) (Production.functionBody enter' y) s t
      fun a s' b t' => a = b ∧ B.Abreast s t s' t' [] [] := by
  refine w.start fun _ _ _ _ ho w => w.step B.parameterList fun _ _ _ w => w.step he.block fun _ _ _ w => ?_
  refine ((h.later w).expectClosing w.now _ _).bind fun _ _ _ _ ⟨_, w'⟩ => ?_
  exact (w.trans w').finish ho (by decide)

/-- A function whose keyword was read before. -/
theorem functionAfter {d e : Draft} {ds es : List Draft} {x y : Span} {f g : Unit → Parser α}
    {S : α → State → α → State → Prop} (w : B.Abreast s₀ t₀ s t (d :: ds) (e :: es))
    (h : B.Among ds es x y)
    (hf : ∀ s' t', B.Abreast s₀ t₀ s' t' (d :: ds) (e :: es) → Both i j (f ()) (g ()) s' t' S) :
    Both i j (Production.functionBody enter x >>= f) (Production.functionBody enter' y >>= g) s t S :=
  (he.functionBody w.now (w.noted h)).bind fun _ _ _ _ ⟨_, w'⟩ => hf _ _ (w.trans w')

theorem functionExpression :
    B.Builds (Production.functionExpression enter) (Production.functionExpression enter') :=
  (B.require _).builds fun _ _ _ w => w.start fun _ _ _ _ ho w => w.opener fun h _ _ w =>
    he.functionAfter w h fun _ _ w => w.node ho h.filled.cons (by decide)

/-! ## Tables -/

theorem positionalField :
    B.Alongside (Production.positionalField enter) (Production.positionalField enter') := by
  refine fun s t w => w.start fun o o' s₁ t₁ ho w => ?_
  refine (he.expression s₁ t₁ w.now).bind fun a s₂ b t₂ hr => ?_
  have w := w.trans hr.abreast
  match a, b, hr with
  | none, none, _ => exact (w.abandon ho).bind fun _ _ _ _ ⟨_, w⟩ => .pure ⟨rfl, w⟩
  | some _, some _, _ => exact (w.finish ho (by decide)).bind fun _ _ _ _ ⟨_, w⟩ => .pure ⟨rfl, w⟩

theorem field : B.Alongside (Production.field enter) (Production.field enter') := by
  refine fun s t w₀ => w₀.start fun o o' s₁ t₁ ho w => w.step B.peek.alongside fun k s₂ t₂ w => ?_
  split
  · refine w.step B.bump fun _ _ _ w => w.step (B.eat _) fun b _ _ w => ?_
    split
    · refine w.step he.expectExpression fun _ _ _ w => ?_
      exact (w.finish ho (by decide)).bind fun _ _ _ _ ⟨_, w⟩ => .pure ⟨rfl, w⟩
    · refine (w.rollback ho w₀).bind fun _ _ _ _ ⟨_, w⟩ => ?_
      exact w.abreast.last he.positionalField
  · refine w.opener fun h _ _ w => w.step he.expectExpression fun _ _ _ w => w.closing h fun _ _ _ w =>
      w.step (B.expect _) fun _ _ _ w => w.step he.expectExpression fun _ _ _ w => ?_
    exact (w.finish ho (by decide)).bind fun _ _ _ _ ⟨_, w⟩ => .pure ⟨rfl, w⟩
  · exact (w.abandon ho).bind fun _ _ _ _ ⟨_, w⟩ => w.last he.positionalField

omit he in
theorem fieldSeparator : B.Alongside Production.fieldSeparator Production.fieldSeparator := by
  refine (B.isAtOneOf _).alongside.bind fun b => ?_
  split
  · exact (B.pure _).alongside
  · exact (B.single .tableFieldSeparator (by decide)).bind fun _ _ => (B.pure _).alongside

theorem fieldRound : B.Alongside (Production.fieldRound enter) (Production.fieldRound enter') := by
  refine (B.isAt _).alongside.bind fun b => ?_
  split
  · exact (B.pure _).alongside
  refine (B.isAt _).alongside.bind fun b => ?_
  split
  · exact (B.pure _).alongside
  refine he.field.bind fun b => ?_
  split
  · refine (B.isAtOneOf _).alongside.bind fun b => ?_
    split
    · exact (B.pure _).alongside
    · exact (B.problem (by decide) _).alongside.bind fun _ => fieldSeparator
  · exact fieldSeparator

theorem table : B.Builds (Production.table enter) (Production.table enter') :=
  (B.require _).builds fun _ _ _ w => w.start fun _ _ _ _ ho w => w.opener fun h _ _ w =>
    w.step (Alongside.loop (fun _ => he.fieldRound) ()) fun _ _ _ w => w.closing h fun _ _ _ w =>
      w.node ho h.filled.cons (by decide)

end Enters

/-! ## Chains -/

theorem atArguments_both (w : B.Rows s t s t [] []) :
    Both i j Production.atArguments Production.atArguments s t fun a s' b t' =>
      a = b ∧ (a = true → Production.beginsArguments s.next) ∧ B.Rows s t s' t' [] [] := by
  refine Both.bind (p := Parser.peek) (q := Parser.peek) (peekAt_both w 0) ?_
  rintro k s' _ t' ⟨rfl, hk, w'⟩
  have hk : k = s.next := hk.trans (by rw [State.next, List.head?_eq_getElem?])
  split
  · exact .pure ⟨rfl, fun _ => .inl hk.symm, w'⟩
  · exact .pure ⟨rfl, fun _ => .inr (.inl hk.symm), w'⟩
  · exact .pure ⟨rfl, fun h => .inr (.inr (hk ▸ KindSet.mem_iff_contains.2 h)), w'⟩

theorem atArguments (B : Bond i j) : B.Beside Production.atArguments Production.atArguments := fun _ _ w =>
  (atArguments_both w).mono fun _ _ _ _ ⟨h, _, w'⟩ => ⟨h, w'⟩

/-- What a round about a finished node leaves: a finished node, and the same decision. -/
def Grown (B : Bond i j) (s₀ t₀ s t : State) : Round Closed Closed → Round Closed Closed → Prop
  | .again x, .again y => B.Finished s₀ t₀ s t x y
  | .done x, .done y => B.Finished s₀ t₀ s t x y
  | _, _ => False

/-- A loop about a finished node. -/
theorem Finished.loop {x y : Closed} {round round' : Closed → Parser (Round Closed Closed)}
    (w : B.Finished s₀ t₀ s t x y) (hround : ∀ x s y t, B.Finished s₀ t₀ s t x y →
      Both i j (round x) (round' y) s t fun r s' r' t' => B.Grown s₀ t₀ s' t' r r') :
    Both i j (Parser.loop x round) (Parser.loop y round') s t fun x s' y t' =>
      B.Finished s₀ t₀ s' t' x y := by
  refine Both.loop (I := fun x s y t => B.Finished s₀ t₀ s t x y) w fun x s y t w => ?_
  refine (hround x s y t w).mono fun r s' r' t' h => ?_
  match r, r', h with
  | .again _, .again _, h => exact h
  | .done _, .done _, h => exact h

namespace Enters

variable (he : B.Enters enter enter')
include he

/-- Arguments, where some begin. -/
theorem arguments (w : B.Rows s t s t [] []) (hbegins : Production.beginsArguments s.next) :
    Both i j (Production.arguments enter) (Production.arguments enter') s t
      fun a s' b t' => a = b ∧ B.Abreast s t s' t' [] [] := by
  refine w.open fun o o' s₁ t₁ ho w₁ => Both.bind (p := Parser.peek) (q := Parser.peek) (peekAt_both w₁.now 0) ?_
  rintro k s₂ _ t₂ ⟨rfl, hk, w₂⟩
  have hnext : s₂.next = s.next := State.next_of_ahead (w₁.left.ahead.trans w₂.left.ahead).symm
  have hk : k = s.next := by
    have hfirst : s₁.next = s.next := State.next_of_ahead w₁.left.ahead.symm
    rw [hk, ← hfirst, State.next, List.head?_eq_getElem?]
  have w : B.Abreast s t s₂ t₂ [.blank] [.blank] := ⟨[], [], w₁.trans w₂⟩
  split
  · exact w.build he.table fun _ _ _ _ w => w.finish ho (by decide)
  split
  · exact w.build (B.single .stringLiteral (by decide)) fun _ _ _ _ w => w.finish ho (by decide)
  rename_i hbrace hstring
  have hparen : s₂.next = .parenOpen :=
    hnext.trans (hbegins.resolve_right (hk ▸ not_or.2 ⟨hbrace, hstring⟩))
  refine w.expectOpener (fun h _ _ w => w.step (B.isAt _).alongside fun b _ _ w => ?_) fun hmissing =>
    absurd hparen hmissing
  split
  · exact w.step he.expressionList fun _ _ _ w => w.closing h fun _ _ _ w => w.finish ho (by decide)
  · exact w.closing h fun _ _ _ w => w.finish ho (by decide)

theorem paren : B.Builds (Production.paren enter) (Production.paren enter') := fun _ _ w =>
  w.start fun _ _ _ _ ho w => w.opener fun h _ _ w => w.step he.expectExpression fun _ _ _ w =>
    w.closing h fun _ _ _ w => w.node ho h.filled.cons (by decide)

theorem suffixRound {x y : Closed} (w : B.Finished s₀ t₀ s t x y) :
    Both i j (Production.suffixRound enter x) (Production.suffixRound enter' y) s t
      fun r s' r' t' => B.Grown s₀ t₀ s' t' r r' := by
  refine w.step B.peek fun k s₁ t₁ w => ?_
  split
  · refine w.precede fun _ _ _ _ _ _ ho h w => w.step B.bump fun _ _ _ w => w.step (B.expect _)
      fun _ _ _ w => ?_
    exact (w.node ho h (by decide)).bind fun _ _ _ _ w => .pure w
  · refine w.precede fun _ _ _ _ _ _ ho h w => w.step B.bump fun _ _ _ w => w.step (B.expect _)
      fun named _ _ w => ?_
    refine (w.node ho h (by decide)).bind fun _ _ _ _ w => ?_
    split
    · refine w.step B.atArguments fun b _ _ w => ?_
      split
      · exact w.step (B.problem (by decide) _) fun _ _ _ w => .pure w
      · exact .pure w
    · exact .pure w
  · refine w.precede fun _ _ _ _ _ _ ho _ w => w.opener fun h _ _ w => w.step he.expectExpression
      fun _ _ _ w => w.closing h fun _ _ _ w => ?_
    exact (w.node ho h.filled.cons (by decide)).bind fun _ _ _ _ w => .pure w
  · refine (atArguments_both w.abreast.now).bind fun b s₂ _ t₂ ⟨hb, hbegins, w'⟩ => ?_
    subst hb
    have w := w.looked w'
    cases b with
    | false => exact .pure w
    | true =>
      refine w.wrap fun _ _ _ _ s₃ _ ho hfilled hlook w => ?_
      have hnext : s₃.next = s₁.next :=
        State.next_of_ahead ((congrArg Outlook.ahead hlook).trans w'.left.ahead.symm)
      refine (he.arguments w.now (hnext ▸ hbegins rfl)).bind fun _ _ _ _ ⟨_, w'⟩ => ?_
      exact ((w.trans w').node ho hfilled (by decide)).bind fun _ _ _ _ w => .pure w

/-- A chain, which is there if one begins here. -/
theorem chain_both (w : B.Rows s t s t [] []) :
    Both i j (Production.chain enter) (Production.chain enter') s t fun a s' b t' =>
      B.Result false s t s' t' a b ∧ (s.next ∈ [.ident, .parenOpen] → a.isSome = true) := by
  refine Both.bind (p := Parser.peek) (q := Parser.peek) (peekAt_both w 0) ?_
  rintro k s₁ _ t₁ ⟨rfl, hk, w'⟩
  have hk : k = s.next := hk.trans (by rw [State.next, List.head?_eq_getElem?])
  have hsuffixes {p q : Parser Closed} (h : B.Builds p q) : Both i j
      (do return some (← Parser.loop (← p) (Production.suffixRound enter)))
      (do return some (← Parser.loop (← q) (Production.suffixRound enter'))) s₁ t₁ fun a s' b t' =>
        B.Result false s t s' t' a b ∧ (s.next ∈ [.ident, .parenOpen] → a.isSome = true) :=
    (h _ _ w'.now).bind fun _ _ _ _ w₁ => ((w₁.after w').loop fun _ _ _ _ w => he.suffixRound w).bind
      fun _ _ _ _ w => .pure ⟨w, fun _ => rfl⟩
  split
  · exact hsuffixes B.nameRef
  · exact hsuffixes he.paren
  · rename_i hident hparen
    refine .pure ⟨.absent w'.abreast, fun h => ?_⟩
    rw [← hk, List.mem_cons, List.mem_singleton] at h
    exact (h.elim hident hparen).elim

theorem chain : B.Finds (Production.chain enter) (Production.chain enter') := fun _ _ w =>
  (he.chain_both w).mono fun _ _ _ _ h => h.1

/-! ## Operations -/

theorem atom : B.Finds (Production.atom enter) (Production.atom enter') := by
  refine B.peek.finds fun k => ?_
  split
  · exact (B.single _ (by decide)).finds
  · exact (B.single _ (by decide)).finds
  · exact (B.single _ (by decide)).finds
  · exact (B.single _ (by decide)).finds
  · exact he.table.finds
  · exact he.functionExpression.finds
  · split
    · exact (B.single _ (by decide)).finds
    split
    · exact (B.single _ (by decide)).finds
    · exact he.chain

theorem operandOf : B.Alongside (Production.operandOf enter .unary) (Production.operandOf enter' .unary) :=
  Finds.orProblem fun _ _ w => he _ _ _ _ _ _ (.unary w.operand)

theorem power {o o' : Option Closed} (h : B.Operand s₀ t₀ s t o o') :
    Both i j (Production.power enter o) (Production.power enter' o') s t
      fun a s' b t' => B.Result o.isSome s₀ t₀ s' t' a b := by
  have hpower {resumed : Bool} {s t : State} {x y : Closed} (w : B.Finished s₀ t₀ s t x y) :
      Both i j (Production.power enter (some x)) (Production.power enter' (some y)) s t
        fun a s' b t' => B.Result resumed s₀ t₀ s' t' a b := by
    refine Both.bind (Q := fun a s' b t' => some x = a ∧ s = s' ∧ some y = b ∧ t = t')
      (.pure ⟨rfl, rfl, rfl, rfl⟩) ?_
    rintro _ _ _ _ ⟨rfl, rfl, rfl, rfl⟩
    refine w.step (B.isAtOneOf _) fun b _ _ w => ?_
    split
    · exact .pure w
    refine w.precede fun _ _ _ _ _ _ ho h w => w.build (B.single .binaryOperator (by decide))
      fun _ _ _ _ w => w.step he.operandOf fun _ _ _ w => ?_
    exact (w.node ho h (by decide)).bind fun _ _ _ _ w => .pure w
  match o, o', h with
  | some _, some _, w => exact hpower w
  | none, none, ⟨hs, ht, w⟩ =>
    refine (he.atom _ _ w).bind fun a s' b t' h => ?_
    rw [← hs, ← ht] at h
    match a, b, h with
    | none, none, w => exact .pure w
    | some _, some _, w => exact hpower w

theorem unary {o o' : Option Closed} (h : B.Operand s₀ t₀ s t o o') :
    Both i j (Production.unary enter o) (Production.unary enter' o') s t
      fun a s' b t' => B.Result o.isSome s₀ t₀ s' t' a b := by
  match o, o', h with
  | some _, some _, h => exact he.power h
  | none, none, ⟨hs, ht, w⟩ =>
    rw [hs, ht]
    refine (B.isAtOneOf .unaryOperators).finds (fun b => ?_) s t w
    split
    · exact fun _ _ w => he.power w.operand
    refine fun s t w => w.start fun _ _ _ _ ho w => w.construct (B.single .unaryOperator (by decide))
      fun h _ _ _ _ w => w.step he.operandOf fun _ _ _ w => ?_
    exact (w.node ho h.cons (by decide)).bind fun _ _ _ _ w => .pure w

omit he in
theorem levelEnd {level : Level} {o o' : Opening} {d e : Branch} {entered : Bool} {s₁ t₁ : State}
    {rhs rhs' : Option Closed} (ho : Opened i j s₀ t₀ o o' (.wrapping d) (.wrapping e))
    (hfilled : Filled [Draft.wrapping d] [Draft.wrapping e])
    (w : B.Abreast s₀ t₀ s₁ t₁ [.wrapping d] [.wrapping e]) (h : B.Result entered s₁ t₁ s t rhs rhs') :
    Both i j (Production.levelEnd level o rhs) (Production.levelEnd level o' rhs') s t
      fun r s' r' t' => B.Grown s₀ t₀ s' t' r r' := by
  have hwhole (isLast : Bool) {s t : State} (w : B.Abreast s₀ t₀ s t [.wrapping d] [.wrapping e]) : Both i j (do
      let whole ← Parser.complete o .binaryExpression
      if isLast || level.assoc = .right then return Round.done whole
      return .again whole) (do
      let whole ← Parser.complete o' .binaryExpression
      if isLast || level.assoc = .right then return Round.done whole
      return .again whole) s t fun r s' r' t' => B.Grown s₀ t₀ s' t' r r' := by
    refine (w.node ho hfilled (by decide)).bind fun _ _ _ _ w => ?_
    split
    · exact .pure w
    · exact .pure w
  have w := w.trans h.abreast
  match rhs, rhs', h with
  | none, none, _ => exact w.step (B.problem (by decide) _).alongside fun _ _ _ w => hwhole true w
  | some _, some _, _ => exact hwhole false w

/-- One operator of a level and the operand on its right. -/
theorem levelRound {level : Level} {tighter : List Level} {x y : Closed} (w : B.Finished s₀ t₀ s t x y)
    (htighter : B.Finds (Production.operation enter tighter none) (Production.operation enter' tighter none)) :
    Both i j (Production.levelRound enter level tighter x) (Production.levelRound enter' level tighter y) s t
      fun r s' r' t' => B.Grown s₀ t₀ s' t' r r' := by
  rw [Production.levelRound_eq, Production.levelRound_eq]
  refine w.step (B.isAtOneOf _) fun b _ _ w => ?_
  split
  · exact .pure w
  refine w.precede fun o o' d e _ _ ho hfilled w => w.build (B.single .binaryOperator (by decide))
    fun _ _ s t w => ?_
  unfold Production.rightOperand
  split
  · exact (htighter s t w.now).bind fun _ _ _ _ h => levelEnd ho hfilled w h
  · exact (he _ _ _ _ _ _ (.operation _ w.now.operand)).bind fun _ _ _ _ h => levelEnd ho hfilled w h

theorem operation : ∀ (levels : List Level) {s₀ t₀ s t : State} {o o' : Option Closed},
    B.Operand s₀ t₀ s t o o' →
    Both i j (Production.operation enter levels o) (Production.operation enter' levels o') s t
      fun a s' b t' => B.Result o.isSome s₀ t₀ s' t' a b
  | [], _, _, _, _, _, _, h => he.unary h
  | level :: tighter, s₀, t₀, s, t, o, o', h => by
    rw [Production.operation_cons, Production.operation_cons]
    refine (operation tighter h).bind fun a s' b t' h => ?_
    match a, b, h with
    | none, none, w => exact .pure w
    | some x, some y, w =>
      refine (w.loop fun x s y t w => he.levelRound w fun _ _ w => ?_).bind fun _ _ _ _ w => .pure w
      exact operation tighter w.operand

end Enters

end LuaTree.Parser.Bond
