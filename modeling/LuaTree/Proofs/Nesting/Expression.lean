import LuaTree.Proofs.Nesting.Row
import LuaTree.Proofs.Reading.Operation

/-!
# Proofs/Nesting/Expression — how deep expressions go

What looks for an expression goes as deep as the one needs that it finds, and one level more where it is
entered (`Found`).  From that of the counted productions (`Enters`) follows that of all the others.
-/

namespace LuaTree.Parser.Nesting

open Grammar

variable {β : Type} {i : Input} {s s' s₀ s₁ : State} {x : Closed} {enter : Enter} {p : Parser (Option Closed)}
  {place entered : Bool} {N m : Nat}

/-- **What a search for an expression leaves**: an expression that needs the levels gone down, but for
its entry; or nothing, and the parser stands where it stood. -/
def Found (i : Input) (s s' : State) (entered : Bool) : Option Closed → Nat → Prop
  | some x, h => ∃ m, h = m + entered.toNat ∧ Built i s s' x m
  | none, h => h = entered.toNat ∧ Light i s s' True [] ∧ (s'.Clean → s'.next = s.next)

/-- A computation that looks for an expression. -/
def Finds (entered : Bool) (p : Parser (Option Closed)) : Prop :=
  ∀ (i : Input) (s : State), Ready i s → Costs 0 p i s fun a s' h => Found i s s' entered a h

/-- What is left where it is answered whether an expression was found, in a node of its own. -/
def Offered (i : Input) (s s' : State) : Bool → Nat → Prop
  | true, h => ∀ place, Row i s s' True [] place h
  | false, h => h = 1 ∧ Light i s s' True [] ∧ (s'.Clean → s'.next = s.next)

/-- A mark that something was reported is backed by a diagnostic. -/
def Unclaimed (s : State) : Prop := s.Clean → s.lastReported = none ∧ s.limitReached = false

/-- **How deep the counted productions go.** -/
structure Enters (enter : Enter) : Prop where
  operation : ∀ levels, levels <:+ Level.all → Finds true (enter (.operation levels none))
  unary : Finds true (enter .unary)
  statements : ∀ (i : Input) (s : State), Ready i s → Costs 0 (enter .statements) i s fun _ s' h =>
    ∃ m, h = m + 1 ∧ Row i s s' True [] false m
  claims : ∀ e, Keeps (fun s s' => Unclaimed s → Unclaimed s') (enter e)

section

variable {S : β → State → Nat → Prop} {Q : Closed → State → Nat → Prop}

theorem Finds.step {f : Option Closed → Parser β} (hp : Finds entered p) (hs : Ready i s)
    (hf : ∀ a s' h, Found i s s' entered a h → Costs (max N h) (f a) i s' S) :
    Costs N (p >>= f) i s S := by
  refine (hp i s hs).certain (fun a s' hdirty => ?_) hf
  cases a with
  | none => exact ⟨_, rfl, fun h => absurd h hdirty, fun h => absurd h hdirty⟩
  | some x => exact ⟨_, 0, rfl, fun h => absurd h hdirty⟩

theorem Offered.of_dirty (hs : ¬ s'.Clean) (b : Bool) : Offered i s s' b 1 := by
  cases b with
  | false => exact ⟨rfl, fun h => absurd h hs, fun h => absurd h hs⟩
  | true => exact fun _ h => absurd h hs

/-- After nothing that matters. -/
theorem Offered.behind {b : Bool} (h : Offered i s₁ s' b m) (hl : Light i s s₁ True [])
    (hnext : s₁.Clean → s₁.next = s.next) : Offered i s s' b m := by
  cases b with
  | false =>
    obtain ⟨hm, hl', hnext'⟩ := h
    refine ⟨hm, hl.trans hl', fun hclean => ?_⟩
    obtain ⟨-, -, _, hg, -⟩ := hl' hclean
    exact (hnext' hclean).trans (hnext (hg.clean_of_clean hclean))
  | true => exact fun place => by simpa [Draft.treesOfList] using (hl.row place).trans (h place)

/-- After a look. -/
theorem Looks.finds {p : Parser β} {f : β → Parser (Option Closed)} (hp : Looks p)
    (hf : ∀ a, Finds entered (f a)) : Finds entered (p >>= f) := by
  intro i s hs
  refine (hp i s hs).level fun a s₁ hr => ?_
  have hlight : Light i s s₁ True [] := (Light.refl hs).unchanged hr
  refine (hf a i s₁ hlight.ready).mono fun b s' h hclean hb => ?_
  cases b with
  | none =>
    obtain ⟨hh, hl, hnext⟩ := hb
    obtain ⟨-, -, _, hg, -⟩ := hl hclean
    exact ⟨hh, hlight.trans hl, fun _ => (hnext hclean).trans (hr (hg.clean_of_clean hclean)).2.next⟩
  | some x =>
    exact hb.imp fun m ⟨hh, hx⟩ => ⟨hh, hx.behind hr⟩

theorem Builds.finds {p : Parser Closed} (hp : Builds p) : Finds false (do return some (← p)) :=
  fun i s hs => (hp i s hs).bind fun _ _ M h => .pure fun hclean => ⟨M, rfl, (h hclean).2⟩

theorem Builds.after {p : Parser β} {f : β → Parser Closed} (hp : Looks p) (hf : ∀ a, Builds (f a)) :
    Builds (p >>= f) := fun i s hs =>
  (hp i s hs).level fun a s₁ hr => (hf a i s₁ ((Light.refl hs).unchanged hr).ready).mono
    fun _ _ _ _ hx => hx.behind hr

/-- What a round about an expression leaves: an expression. -/
def Rounded (i : Input) (s₀ : State) : Round Closed Closed → State → Nat → Prop
  | .again y, s', h => Built i s₀ s' y h
  | .done y, s', h => Built i s₀ s' y h

theorem Built.loop {round : Closed → Parser (Round Closed Closed)} (hx : Built i s₀ s x N)
    (hround : ∀ x s N, Built i s₀ s x N → Costs N (round x) i s (Rounded i s₀)) :
    Costs N (Parser.loop x round) i s fun y s' h => Built i s₀ s' y h := by
  refine Costs.loop (I := fun y s' h => Built i s₀ s' y h) (fun _ => hx) fun y s' N h => ?_
  refine (hround y s' N fun hclean => h hclean hclean).mono fun r s' h _ hr => ?_
  cases r with
  | again _ => exact hr
  | done _ => exact hr

/-! ## Lists and blocks -/

theorem name : Plain Production.name :=
  (Looks.require _).plain.bind fun _ => (single_plain (by decide)).bind fun _ => .pure _

theorem nameRef : Builds Production.nameRef := .after (.require _) fun _ => single_builds (by decide)

/-- What is missing is reported. -/
theorem Finds.orProblem (hp : Finds entered p) :
    Adds entered (do if (← p).isNone then Parser.problem .expectedExpression none) := by
  refine fun i s hs => hp.step hs fun a s₁ h ha => ?_
  match a, ha with
  | none, ⟨_, hl, _⟩ => exact .last (hl.ready.problem (by decide) fun s₂ hdirty => .pure fun h => absurd h hdirty)
  | some x, ⟨m, hh, hx⟩ => exact .pure fun _ => by simpa [hh] using hx.row entered

namespace Enters

variable (he : Enters enter)
include he

theorem expression : Finds true (Production.expression enter none) := he.operation _ List.suffix_rfl

theorem expectExpression : Adds true (Production.expectExpression enter) := he.expression.orProblem

theorem moreExpressions : Adds true (Production.moreExpressions enter) := by
  refine .loop (fun _ => (Plain.eat _).adds.bind fun b => ?_) ()
  split
  · exact he.expectExpression.bind fun _ => (Plain.pure _).adds
  · exact (Plain.pure _).adds

theorem expressionList (hs : Ready i s) :
    Costs 0 (Production.expressionList enter) i s fun b s' h => 1 ≤ h ∧ Offered i s s' b h := by
  refine hs.start fun o s₁ w => he.expression.step w.read.ready fun a s₂ h ha => ?_
  match a, ha with
  | none, ⟨hh, hl, hnext⟩ =>
    exact w.abandon hl hnext fun s₃ hl hnext => .pure fun _ =>
      ⟨by simp [hh], by simpa using hh, hl, hnext⟩
  | some x, ⟨m, hh, hx⟩ =>
    refine ((w.row true).trans (hx.row true)).step he.moreExpressions fun _ s₃ h' w => w.finish (by decide)
      fun s₄ w => .pure fun _ => ?_
    subst hh
    exact ⟨by simp, by simpa [Offered] using w⟩

theorem expectExpressionList : Adds place (Production.expectExpressionList enter) := by
  refine fun i s hs => (he.expressionList hs).certain (fun b s' h => ⟨1, le_refl 1, .of_dirty h b⟩)
    fun b s₁ h ⟨_, hb⟩ => ?_
  match b, hb with
  | false, ⟨_, hl, _⟩ =>
    exact .last (hl.ready.problem (by decide) fun s₂ hdirty => .pure fun h => absurd h hdirty)
  | true, w => exact .pure fun _ => by simpa using w place

theorem block : Adds place (Production.block enter) := by
  refine fun i s hs => hs.start fun outer s₁ w => w.read.ready.start fun list s₂ w' => ?_
  refine (he.statements i s₂ w'.read.ready).certain (fun _ s' hdirty => ⟨_, 0, rfl, fun h => absurd h hdirty⟩)
    fun _ s₃ h ⟨m, hh, hm⟩ => ?_
  refine ((w'.row false).trans hm).finish (by decide) fun s₄ hm => ?_
  refine ((w.row false).trans (hm false)).complete (k := .block) (by decide) fun x s₅ hx => .pure fun _ => ?_
  refine hx.row ?_
  rintro t - ⟨hkind, hneed⟩
  simp [hneed, hh, Tree.isEntered, hkind]

end Enters

/-! ## Functions -/

theorem parameterRound : Plain Production.parameterRound := by
  refine Looks.peek.plain.bind fun k => ?_
  split
  · refine name.bind fun _ => (Looks.isAt _).plain.bind fun b => ?_
    split
    · exact .pure _
    refine Plain.bump.bind fun _ => Looks.peek.plain.bind fun k => ?_
    split
    · exact .pure _
    · exact .pure _
    · exact (Plain.expect _).bind fun _ => .pure _
  · exact Plain.bump.bind fun _ => .pure _
  · exact .pure _

theorem parameterList : Adds place Production.parameterList := by
  refine fun i s hs => hs.start fun o s₁ w => (w.row false).look .currentSpan fun opened s₂ w =>
    w.plain (.expect _) fun b s₃ w => ?_
  split
  · exact w.plain (.loop (fun _ => parameterRound) ()) fun _ _ w => w.plain (.expectClosing _ _ _)
      fun _ _ w => w.finished (by decide) rfl
  · exact w.finished (by decide) rfl

namespace Enters

variable (he : Enters enter)
include he

theorem functionBody (keyword : Span) : Adds place (Production.functionBody enter keyword) :=
  fun _ _ hs => hs.start fun _ _ w => (w.row false).step parameterList fun _ _ _ w => w.step he.block
    fun _ _ _ w => w.plain (.expectClosing _ _ _) fun _ _ w => w.finished (by decide) rfl

theorem functionExpression : Builds (Production.functionExpression enter) :=
  .after (.require _) fun _ _ _ hs => hs.start fun _ _ w => (w.row false).look .currentSpan fun keyword _ w =>
    w.plain .bump fun _ _ w => w.step (he.functionBody keyword) fun _ _ _ w => w.built (by decide) rfl

/-! ## Tables -/

theorem positionalField (hs : Ready i s) :
    Costs 0 (Production.positionalField enter) i s fun b s' h => Offered i s s' b h := by
  refine hs.start fun o s₁ w => he.expression.step w.read.ready fun a s₂ h ha => ?_
  match a, ha with
  | none, ⟨hh, hl, hnext⟩ =>
    exact w.abandon hl hnext fun s₃ hl hnext => .pure fun _ => ⟨by simpa using hh, hl, hnext⟩
  | some x, ⟨m, hh, hx⟩ =>
    refine ((w.row true).trans (hx.row true)).finish (by decide) fun s₄ w => .pure fun _ => ?_
    subst hh
    simpa [Offered] using w

theorem field (hs : Ready i s) : Costs 0 (Production.field enter) i s fun b s' h => Offered i s s' b h := by
  rw [Congruence.field_eq]
  refine hs.tryName fun r s₁ hr => ?_
  obtain ⟨o, k, named⟩ := r
  cases named with
  | true =>
    exact (Light.blank hr true).step he.expectExpression fun _ _ _ w => w.finish (by decide)
      fun _ w => .pure fun _ => by simpa [Offered] using w
  | false =>
    rw [Tried] at hr
    dsimp only
    rw [if_neg Bool.false_ne_true]
    split
    · rw [if_pos ‹_›] at hr
      have hl : Light i s s₁ True [] := (Light.refl hs).unchanged hr
      exact (he.positionalField hl.ready).mono fun b s' h _ hb => hb.behind hl fun h => (hr h).2.next
    rw [if_neg ‹_›] at hr
    split
    · exact (hr.row true).look .currentSpan fun _ _ w => w.plain .bump fun _ _ w =>
        w.step he.expectExpression fun _ _ _ w => w.plain (.expectClosing _ _ _) fun _ _ w =>
        w.plain (.expect _) fun _ _ w => w.step he.expectExpression fun _ _ _ w => w.finish (by decide)
        fun _ w => .pure fun _ => by simpa [Offered] using w
    · exact hr.abandon (.refl hr.read.ready) (fun _ => rfl) fun t hl hnext =>
        (he.positionalField hl.ready).mono fun b s' h _ hb => hb.behind hl hnext

/-- What a round over the fields leaves: where neither a field nor the end of the table follows, the field
that was looked for is entered in vain, which is reported later. -/
def Fielded (i : Input) (s s' : State) : Round Unit Unit → Nat → Prop
  | .again _, h => Row i s s' True [] false h
  | .done _, h => Row i s s' True [] false h ∨ Ready i s' ∧ (s'.Clean → s'.next ≠ .braceClose)

omit he in
theorem fieldSeparator (w : Row i s₀ s True [] false N) :
    Costs N Production.fieldSeparator i s fun r s' h => Fielded i s₀ s' r h := by
  refine w.look (.isAtOneOf _) fun b s₁ w => ?_
  split
  · exact .pure fun _ => .inl w
  · exact w.plain (single_plain (by decide)) fun _ _ w => .pure fun _ => w

theorem fieldRound (w : Row i s₀ s True [] false N) :
    Costs N (Production.fieldRound enter) i s fun r s' h => Fielded i s₀ s' r h := by
  refine .isAt ?_
  by_cases hnext : s.next = .braceClose
  · rw [if_pos (beq_iff_eq.2 hnext)]
    exact .pure fun _ => .inl w.looked
  rw [if_neg (by simpa using hnext)]
  refine .isAt ?_
  split
  · exact .pure fun _ => .inl w.looked.looked
  refine (he.field w.looked.looked.ready).certain (fun b _ h => ⟨1, .of_dirty h b⟩) fun b s₁ h hb => ?_
  match b, hb with
  | true, hb => exact fieldSeparator (Row.trans w.looked.looked (hb false))
  | false, ⟨_, hl, hstill⟩ =>
    refine .isAtOneOf ?_
    split
    · refine .pure fun _ => .inr ⟨hl.looked.ready, fun hclean => ?_⟩
      rw [State.next_look, hstill hclean]
      exact hnext
    · exact hl.looked.ready.problem (by decide) fun s₂ hdirty => fieldSeparator fun h => absurd h hdirty

theorem table : Builds (Production.table enter) := by
  refine .after (.require _) fun _ i s hs => hs.start fun o s₁ w => (w.row false).look .currentSpan
    fun opened s₂ w => w.plain .bump fun _ s₃ w => ?_
  have hfields : Costs 0 (Parser.loop () fun _ => Production.fieldRound enter) i s₃ fun _ s' h =>
      Fielded i s₃ s' (.done ()) h := by
    refine Costs.loop (I := fun _ s' h => Fielded i s₃ s' (.again ()) h) (fun _ => .refl w.ready) fun _ s' N h => ?_
    refine (he.fieldRound (N := N) fun hclean => h hclean hclean).mono fun r s' h _ hr => ?_
    cases r with
    | again _ => exact hr
    | done _ => exact hr
  refine hfields.certain (fun _ _ hdirty => ⟨0, .inl fun h => absurd h hdirty⟩) fun _ s₄ h hr => ?_
  rcases hr with hr | ⟨hready, hnext⟩
  · exact (w.trans hr).plain (.expectClosing _ _ _) fun _ _ w => w.built (by decide) rfl
  · refine hready.unmet hnext fun _ s₅ hdirty => ?_
    have w' : Row i s s₅ (Opens i s o .blank) [.blank] false (max 0 h) := fun h => absurd h hdirty
    exact w'.built (by decide) rfl

/-! ## Chains -/

omit he in
theorem atArguments : Looks Production.atArguments := by
  refine .bind .peek fun k => ?_
  split
  · exact .pure _
  · exact .pure _
  · exact .pure _

theorem arguments : Adds false (Production.arguments enter) := by
  refine fun i s hs => hs.start fun o s₁ w => (w.row false).look .peek fun k s₂ w => ?_
  split
  · exact w.step he.table.adds fun _ _ _ w => w.finished (by decide) rfl
  split
  · exact w.step (single_builds (by decide)).adds fun _ _ _ w => w.finished (by decide) rfl
  refine w.look .currentSpan fun opened s₃ w => w.plain (.expect _) fun _ s₄ w => .isAt ?_
  by_cases hnext : s₄.next = .parenClose
  · rw [if_neg (by simp [hnext])]
    exact Row.plain w.looked (.expectClosing _ _ _) fun _ _ w => w.finished (by decide) rfl
  rw [if_pos (by simp [hnext])]
  refine (he.expressionList w.looked.ready).certain (fun b _ h => ⟨1, le_refl 1, .of_dirty h b⟩)
    fun b s₅ h ⟨_, hb⟩ => ?_
  match b, hb with
  | true, hb =>
    exact (Row.trans w.looked (hb false)).plain (.expectClosing _ _ _) fun _ _ w => w.finished (by decide) rfl
  | false, ⟨_, hl, hstill⟩ =>
    refine hl.ready.unmet (fun hclean => by rwa [hstill hclean]) fun _ s₆ hdirty => ?_
    have w' : Row i s s₆ (Opens i s o .blank) [.blank] false (max 0 h) := fun h => absurd h hdirty
    exact w'.finished (by decide) rfl

theorem paren : Builds (Production.paren enter) := fun _ _ hs =>
  hs.start fun _ _ w => (w.row true).look .currentSpan fun _ _ w => w.plain .bump fun _ _ w =>
    w.step he.expectExpression fun _ _ _ w => w.plain (.expectClosing _ _ _) fun _ _ w => w.built (by decide) rfl

theorem suffixRound (hx : Built i s₀ s x N) : Costs N (Production.suffixRound enter x) i s (Rounded i s₀) := by
  refine hx.look .peek fun k s₁ hx => ?_
  split
  · exact hx.precede fun o b _ w _ => (Leads.row w true).plain .bump fun _ _ w => w.plain (.expect _) fun _ _ w =>
      w.wrap (by decide) fun _ _ hx => .pure fun _ => hx
  · refine hx.precede fun o b _ w _ => (Leads.row w true).plain .bump fun _ _ w => w.plain (.expect _)
      fun named _ w => w.wrap (by decide) fun _ _ hx => ?_
    split
    · refine hx.look atArguments fun b _ hx => ?_
      split
      · exact hx.read.ready.problem (by decide) fun _ hdirty => .pure fun h => absurd h hdirty
      · exact .pure fun _ => hx
    · exact .pure fun _ => hx
  · exact hx.precede fun o b _ w _ => (Leads.row w true).look .currentSpan fun _ _ w => w.plain .bump fun _ _ w =>
      w.step he.expectExpression fun _ _ _ w => w.plain (.expectClosing _ _ _) fun _ _ w =>
      w.wrap (by decide) fun _ _ hx => .pure fun _ => hx
  · refine hx.look atArguments fun b _ hx => ?_
    split
    · exact hx.precede fun o b _ w _ => (Leads.row w false).step he.arguments fun _ _ _ w =>
        w.wrap (by decide) fun _ _ hx => .pure fun _ => hx
    · exact .pure fun _ => hx

theorem chain : Finds false (Production.chain enter) := by
  have hsuffixes {p : Parser Closed} (hp : Builds p) :
      Finds false (do return some (← Parser.loop (← p) (Production.suffixRound enter))) := fun i s hs =>
    (hp i s hs).bind fun x s₁ M hx => (Built.loop (fun hclean => (hx hclean).2 hclean) fun _ _ _ hx =>
      he.suffixRound hx).bind fun y s₂ M hy => .pure fun hclean => ⟨M, rfl, (hy hclean).2⟩
  refine Looks.peek.finds fun k => ?_
  split
  · exact hsuffixes nameRef
  · exact hsuffixes he.paren
  · exact fun i s hs => .pure fun _ => ⟨rfl, .refl hs, fun _ => rfl⟩

/-! ## Operations -/

theorem atom : Finds false (Production.atom enter) := by
  refine Looks.peek.finds fun k => ?_
  split
  · exact (single_builds (by decide)).finds
  · exact (single_builds (by decide)).finds
  · exact (single_builds (by decide)).finds
  · exact (single_builds (by decide)).finds
  · exact he.table.finds
  · exact he.functionExpression.finds
  · split
    · exact (single_builds (by decide)).finds
    split
    · exact (single_builds (by decide)).finds
    · exact he.chain

omit he in
/-- The node around a binary operator. -/
theorem operator_made {f : Closed → Parser β} {right : Bool} (hs : Ready i s)
    (hright : s.Clean → decide (s.next ∈ [.dotDot, .caret]) = right)
    (hf : ∀ x s', Made i s s' x (Tree.IsOperator right) → Costs N (f x) i s' S) :
    Costs N (Production.single .binaryOperator >>= f) i s S := by
  refine single_made hs (by decide) (fun hclean y us hus => ⟨⟨?_, show Kind.binaryOperator ∉ _ by decide⟩, ?_⟩) hf
  · rw [Tree.need_node (by decide), Tree.needOfList_leaf, Tree.needOfList_of_light fun u hu => (hus u hu).1]
  · have hnone : us.any (·.kind ∈ [.dotDot, .caret]) = false := by
      refine List.any_eq_false.2 fun u hu => ?_
      rw [(hus u hu).2]
      decide
    rw [Tree.groupsRight, List.any_cons, hnone, Bool.or_false]
    exact hright hclean

/-- What is read up to the operator of a binary expression. -/
abbrev Operated (i : Input) (s₀ s : State) (o : Opening) (b : Branch) (n : Nat) (right : Bool) : Prop :=
  Read i s₀ s (Leads i s₀ o b n) [.wrapping b] fun ts => ∃ t, ts = [t] ∧ t.IsOperator right

omit he in
/-- An expression behind the operator is the right operand. -/
theorem Operated.complete {f : Closed → Parser β} {o : Opening} {b : Branch} {n : Nat} {right : Bool}
    (w : Operated i s₀ s₁ o b n right) (hx : Built i s₁ s x m)
    (hf : ∀ x s', Built i s₀ s' x (max n (m + right.toNat)) → Costs N (f x) i s' S) :
    Costs N (Parser.complete o .binaryExpression >>= f) i s S := by
  have w : Read i s₀ s (Leads i s₀ o b n) [.wrapping b] fun ts => ∃ t u : Tree, ts = [t, u] ∧
      t.IsOperator right ∧ u.isLeaf = false ∧ u.kind ∈ expressionKinds ∧ u.need = m := by
    refine Read.trans w hx.read ?_
    rintro _ _ ⟨t, rfl, ht⟩ ⟨u, rfl, hu⟩
    exact ⟨t, u, rfl, ht, hu⟩
  refine Read.complete w Leads.opens (by decide) ?_ hf
  rintro _ hb ⟨t, u, rfl, ht, hleaf, hkind, rfl⟩
  refine ⟨show Kind.binaryExpression ∈ expressionKinds by decide, ?_⟩
  rw [← hb.need]
  exact Tree.need_binary_of_isOperator b.isLeaf_tree hb.kind ht hleaf hkind

omit he in
/-- An operator stands behind an expression. -/
theorem operator {f : Opening → Closed → Parser β} {right : Bool} (hx : Built i s₀ s x m)
    (hright : decide (s.next ∈ [.dotDot, .caret]) = right)
    (hf : ∀ o b y s', Operated i s₀ s' o b m right → Costs N (f o y) i s' S) : Costs N (do
      let o ← Parser.precede x
      let y ← Production.single .binaryOperator
      f o y) i s S := by
  refine hx.precede fun o b s₁ w hnext => ?_
  refine operator_made w.ready (fun hclean => (hnext hclean).symm ▸ hright)
    fun y s₂ hop => hf o b y s₂ (w.trans hop.read ?_)
  rintro _ _ rfl ⟨t, rfl, -, ht⟩
  exact ⟨t, rfl, ht⟩

omit he in
/-- **An operator goes on with an expression on its right**, which is entered where operators of its level
group to the right. -/
theorem Operated.step {rest : Option Closed → Parser β} {f : Option Closed → Closed → Parser β} {o : Opening}
    {b : Branch} {n : Nat} {right : Bool} (w : Operated i s₀ s o b n right) (hp : Finds right p)
    (hnone : rest none = do
      Parser.problem .expectedExpression none
      let y ← Parser.complete o .binaryExpression
      f none y)
    (hsome : ∀ y, rest (some y) = Parser.complete o .binaryExpression >>= f (some y))
    (hf : ∀ a y s' h, Built i s₀ s' y h → Costs h (f a y) i s' S) : Costs n (p >>= rest) i s S := by
  refine hp.step w.ready fun a s₁ h ha => ?_
  match a, ha with
  | none, ⟨hh, hl, _⟩ =>
    -- what is missing was reported, so nothing is asked of the node
    rw [hnone]
    refine hl.ready.problem (by decide) fun s₂ hdirty => ?_
    have w : Operated i s₀ s₂ o b n right := fun hclean => absurd hclean hdirty
    have hy : Built i s₂ s₂ ⟨0, .error, s₂.snapshot⟩ 0 := fun hclean => absurd hclean hdirty
    exact w.complete hy fun z s₃ hz => hf none z s₃ _ (by rwa [Nat.zero_add, ← hh] at hz)
  | some y, ⟨k, hh, hy⟩ =>
    subst hh
    rw [hsome]
    exact w.complete hy fun z s₂ hz => hf _ z s₂ _ hz

theorem power : Finds false (Production.power enter none) := by
  intro i s hs
  refine he.atom.step hs fun a s₁ h ha => ?_
  match a, ha with
  | none, ha => exact .pure fun _ => by simpa using ha
  | some x, ⟨m, hh, hx⟩ =>
    rw [Nat.zero_max, hh, Bool.toNat_false, Nat.add_zero]
    refine .isAtOneOf ?_
    by_cases hnext : KindSet.power.contains s₁.next
    · rw [if_neg (by simpa using hnext)]
      have hcaret : s₁.look.next = .caret := by simpa [KindSet.power] using hnext
      have hright : decide (s₁.look.next ∈ [.dotDot, .caret]) = true := by simp [hcaret]
      refine operator hx.looked hright fun o b _ s₂ w => .assoc ?_
      exact Operated.step (f := fun _ y => return some y) w he.unary rfl (fun _ => rfl)
        fun _ y s₃ h hy => .pure fun _ => ⟨h, rfl, hy⟩
    · rw [if_pos (by simpa using hnext)]
      exact .pure fun _ => ⟨m, rfl, hx.looked⟩

theorem unaries : Finds false (Production.unary enter none) := by
  rw [Production.unary, if_neg (by simp)]
  refine (Looks.isAtOneOf _).finds fun b => ?_
  split
  · exact he.power
  · refine fun i s hs => hs.start fun o s₁ w => (w.row true).plain (single_plain (by decide)) fun _ s₂ w =>
      w.step he.unary.orProblem fun _ s₃ h w => w.build (by decide) fun x s₄ hx => .pure fun _ => ?_
    exact ⟨_, rfl, by simpa using hx⟩

omit he in
/-- Concatenations are the only operations that group to the right. -/
theorem groupsRight_iff {level : Level} (hlevel : level ∈ Level.all) {k : Kind}
    (hk : level.operators.contains k) : decide (k ∈ [.dotDot, .caret]) = decide (level.assoc = .right) := by
  have h : ∀ level ∈ Level.all, ∀ k ∈ Kind.all, level.operators.contains k →
      decide (k ∈ [.dotDot, .caret]) = decide (level.assoc = .right) := by decide +kernel
  exact h level hlevel k (Kind.mem_all k) hk

theorem rightOperand {level : Level} {tighter : List Level} (hsuffix : level :: tighter <:+ Level.all)
    (htighter : Finds false (Production.operation enter tighter none)) :
    Finds (decide (level.assoc = .right)) (Production.rightOperand enter level tighter) := by
  unfold Production.rightOperand
  split
  next hassoc => rwa [hassoc]
  next hassoc =>
    rw [hassoc]
    exact he.operation _ hsuffix

theorem levelRound {level : Level} {tighter : List Level} (hsuffix : level :: tighter <:+ Level.all)
    (htighter : Finds false (Production.operation enter tighter none)) (hx : Built i s₀ s x m) :
    Costs m (Production.levelRound enter level tighter x) i s (Rounded i s₀) := by
  rw [Production.levelRound_eq]
  refine .isAtOneOf ?_
  by_cases hnext : level.operators.contains s.next
  · rw [if_neg (by simpa using hnext)]
    have hright := groupsRight_iff (hsuffix.subset List.mem_cons_self) hnext
    have hround (rhs : Option Closed) (y : Closed) (t : State) (h : Nat) (hy : Built i s₀ t y h) :
        Costs h (if rhs.isNone || level.assoc = .right then return .done y else return .again y) i t
          (Rounded i s₀) := by
      split
      · exact .pure fun _ => hy
      · exact .pure fun _ => hy
    refine operator hx.looked hright fun o b _ s₁ w => ?_
    exact w.step (he.rightOperand hsuffix htighter) rfl (fun _ => rfl) hround
  · rw [if_pos (by simpa using hnext)]
    exact .pure fun _ => hx.looked

theorem operations : ∀ levels : List Level, levels <:+ Level.all →
    Finds false (Production.operation enter levels none)
  | [], _ => he.unaries
  | level :: tighter, hsuffix => by
    have htighter := operations tighter ((List.suffix_cons level tighter).trans hsuffix)
    rw [Production.operation_cons]
    intro i s hs
    refine htighter.step hs fun a s₁ h ha => ?_
    match a, ha with
    | none, ha => exact .pure fun _ => by simpa using ha
    | some x, ⟨m, hh, hx⟩ =>
      rw [Nat.zero_max, hh, Bool.toNat_false, Nat.add_zero]
      refine (Built.loop hx fun lhs s₂ N hx => he.levelRound hsuffix htighter hx).bind fun y s₃ M hy =>
        .pure fun hclean => ⟨M, rfl, (hy hclean).2⟩

end Enters

end

end LuaTree.Parser.Nesting
