import LuaTree.Proofs.First
import LuaTree.Proofs.Moments
import LuaTree.Proofs.Patience

/-!
# Proofs/Onset — the next token tells whether a statement or an expression begins

The productions decide by looking at the next token, each at a few kinds; together these are the sets that are declared
for them.  Where something begins at least one token is consumed, and where nothing does all is as before, but for
the looks (`Onset`).  This holds in each state of a parse (`onset_of_reached`).
-/

namespace LuaTree.Production

open LuaTree.Parser Grammar

variable {i : Input} {n : Nat} {s t : State} {enter : Enter} {α : Type}

/-- **A production begins just where the next token is in a set**: then the cursor advances, else nothing but the
number of looks changes. -/
structure Onset (first : KindSet) (s : State) (begun : Bool) (t : State) : Prop where
  iff : begun = true ↔ s.next ∈ first
  advances : begun = true → s.position < t.position
  stays : begun = false → t.refresh = s.refresh

/-- Where fewer significant tokens are left, the cursor is further on. -/
theorem position_lt_of_remaining_lt (hs : s.Coherent i) (ht : t.Coherent i) (h : t.remaining < s.remaining) :
    s.position < t.position := by
  by_contra hle
  have hsuffix : s.rest <:+ t.rest := by
    rw [hs.rest, ht.rest, ← Nat.add_sub_cancel' (Nat.not_lt.1 hle), ← List.drop_drop]
    exact List.drop_suffix _ _
  have hle := (hsuffix.filter Token.isSignificant).length_le
  exact absurd h (Nat.not_lt.2 hle)

/-! ## Statements -/

/-- What is read as a statement begins with one of the tokens that statements begin with. -/
theorem statement_first : Yields (statement enter) i s fun b _ => b = true → s.next ∈ KindSet.statementFirst := by
  have hdone {p : Parser Unit} {k : Kind} (h : s.next = k) (hk : k ∈ KindSet.statementFirst) :
      Yields (do p; return true) i s.look fun b _ => b = true → s.next ∈ KindSet.statementFirst :=
    fun _ _ _ _ => h ▸ hk
  refine peek_yields.bind ?_
  rintro _ _ ⟨rfl, rfl⟩
  split <;> rename_i h <;> first | exact hdone h (by decide) | exact .pure nofun

/-- **Statements begin where they should**, as far as the parser may look. -/
theorem statement_onset (hs : s.Sound i) (hn : s.remaining ≤ n) (hlooks : 3 ≤ s.looks) :
    Ensures (statement (Production.enter n)) i s (Onset KindSet.statementFirst s) := by
  have hused : s.used + 2 < State.maxLooks := by
    rw [State.used, State.maxLooks]
    omega
  have hreads := statement_reads (enters_enter true i n) hn hused (.refl hs (Nat.le_refl _))
  refine (hreads.and (statement_first.ensures hreads)).mono ?_
  rintro (_ | _) t ⟨h, hfirst⟩
  · obtain ⟨rfl, hnot⟩ := h
    exact ⟨by simpa using hnot, by simp, fun _ => rfl⟩
  · exact ⟨⟨hfirst, fun _ => rfl⟩, fun _ => position_lt_of_remaining_lt hs.toCoherent h.1.sound.toCoherent h.2, by simp⟩

/-- However often the parser may look, a statement that is read was to begin. -/
theorem statement_yields_onset (hs : s.Sound i) (hn : s.remaining ≤ n) :
    Yields (statement (Production.enter n)) i s (Onset KindSet.statementFirst s) := by
  rcases Nat.lt_or_ge s.looks 3 with hfew | hmany
  · -- with all looks the same is read
    intro b t hrun
    obtain ⟨u, hrun', htu⟩ := patient_statement n i s _ (State.eased_refresh (by rw [State.maxLooks]; omega)) b t hrun
    have hrefresh := statement_onset (s := s.refresh) { hs with } hn (Nat.le_of_ble_eq_true rfl)
    have honset := Yields.of_ensures hrefresh b u hrun'
    have hposition : u.refresh.position = t.refresh.position := congrArg State.position htu.refresh_eq
    refine ⟨honset.iff, fun h => (honset.advances h).trans_eq hposition, fun h => ?_⟩
    exact htu.refresh_eq.symm.trans (honset.stays h)
  · exact .of_ensures (statement_onset hs hn hmany)

/-! ## Expressions -/

/-- An answer just where the next token is in a set; without one nothing but the looks has changed. -/
structure Answers (first : KindSet) (s : State) (a : Option Closed) (t : State) : Prop where
  iff : a.isSome = true ↔ s.next ∈ first
  stays : a = none → t.refresh = s.refresh

/-- A computation that answers with a node if it ends. -/
def Succeeds (p : Parser (Option Closed)) : Prop := ∀ i s, Yields p i s fun a _ => a.isSome = true

namespace Succeeds

theorem some (p : Parser Closed) : Succeeds (do return some (← p)) := fun _ _ =>
  Yields.bind (Q := fun _ _ => True) (fun _ _ _ => trivial) fun _ _ _ => .pure rfl

theorem after {p : Parser α} {f : α → Parser (Option Closed)} (hf : ∀ a, Succeeds (f a)) : Succeeds (p >>= f) :=
  fun i _ => Yields.bind (Q := fun _ _ => True) (fun _ _ _ => trivial) fun a s _ => hf a i s

theorem answers {p : Parser (Option Closed)} {first : KindSet} (hp : Succeeds p) (h : s.next ∈ first) :
    Yields p i t (Answers first s) :=
  (hp i t).mono fun _ _ ha => ⟨⟨fun _ => h, fun _ => ha⟩, fun hnone => by rw [hnone] at ha; cases ha⟩

end Succeeds

theorem chain_answers : Yields (chain enter) i s (Answers chainFirst s) := by
  refine peek_yields.bind ?_
  rintro _ _ ⟨rfl, rfl⟩
  split
  · rename_i h
    exact (Succeeds.after fun _ => .some _).answers (by rw [h]; decide)
  · rename_i h
    exact (Succeeds.after fun _ => .some _).answers (by rw [h]; decide)
  · rename_i hident hparen
    refine .pure ⟨⟨nofun, fun h => ?_⟩, fun _ => rfl⟩
    have hcases : s.next = .ident ∨ s.next = .parenOpen := by
      simpa [chainFirst, KindSet.mem_iff_contains] using h
    exact absurd hcases (not_or.2 ⟨hident, hparen⟩)

/-- What an operand without an operator begins with is a literal, a table, a function or a chain. -/
theorem atomFirst_cases : ∀ k ∈ Kind.all, k ∈ atomFirst → k ∈ [.kwNil, .kwTrue, .kwFalse, .ellipsis, .braceOpen,
    .kwFunction] ∨ k ∈ KindSet.numbers ∨ k ∈ KindSet.strings ∨ k ∈ chainFirst := by
  decide +kernel

theorem atom_answers : Yields (atom enter) i s (Answers atomFirst s) := by
  refine peek_yields.bind ?_
  rintro _ _ ⟨rfl, rfl⟩
  split
  iterate 6
    · rename_i h
      exact (Succeeds.some _).answers (by rw [h]; decide)
  rename_i hnil htrue hfalse hellipsis hbrace hfunction
  split
  · rename_i h
    exact (Succeeds.some _).answers (Within.mem (by decide +kernel) (show _ ∈ KindSet.numbers from h))
  split
  · rename_i h
    exact (Succeeds.some _).answers (Within.mem (by decide +kernel) (show _ ∈ KindSet.strings from h))
  rename_i hnumbers hstrings
  refine chain_answers.mono fun a t h => ⟨h.iff.trans ⟨Within.mem (by decide +kernel), fun hmem => ?_⟩, h.stays⟩
  rcases atomFirst_cases _ (Kind.mem_all _) hmem with hword | hnumber | hstring | hchain
  · simp_all
  · exact absurd hnumber hnumbers
  · exact absurd hstring hstrings
  · exact hchain

theorem power_answers : Yields (power enter none) i s (Answers atomFirst s) := by
  refine Yields.bind (p := atom enter) atom_answers ?_
  rintro (_ | lhs) t h
  · exact .pure h
  · have hsucceeds : Succeeds (do
        if !(← isAtOneOf .power) then return some lhs
        let o ← precede lhs
        let _ ← single .binaryOperator
        operandOf enter .unary
        return some (← complete o .binaryExpression)) := by
      refine .after fun b => ?_
      split
      · exact fun _ _ => .pure rfl
      · exact .after fun _ => .after fun _ => .after fun _ => .some _
    exact hsucceeds.answers (h.iff.1 rfl)

/-- An expression begins with an operator or with what an operand begins with. -/
theorem expressionFirst_iff : ∀ k ∈ Kind.all,
    k ∈ KindSet.expressionFirst ↔ k ∈ KindSet.unaryOperators ∨ k ∈ atomFirst := by
  decide +kernel

theorem unary_answers : Yields (unary enter none) i s (Answers KindSet.expressionFirst s) := by
  have hexpression := expressionFirst_iff s.next (Kind.mem_all _)
  rw [unary, if_neg (by decide)]
  refine Yields.bind (Q := fun b t => b = KindSet.unaryOperators.contains s.next ∧ t = s.look) ?_ ?_
  · refine peek_yields.bind ?_
    rintro _ _ ⟨rfl, rfl⟩
    exact .pure ⟨rfl, rfl⟩
  rintro _ _ ⟨rfl, rfl⟩
  split
  · rename_i h
    refine (power_answers (s := s.look)).mono fun a t ha => ⟨ha.iff.trans ?_, ha.stays⟩
    rw [hexpression]
    exact (or_iff_right (by simpa [KindSet.mem_iff_contains] using h)).symm
  · rename_i h
    have hoperator : s.next ∈ KindSet.unaryOperators := by simpa [KindSet.mem_iff_contains] using h
    have hsucceeds : Succeeds (do
        let o ← start
        let _ ← single .unaryOperator
        operandOf enter .unary
        return some (← complete o .unaryExpression)) := .after fun _ => .after fun _ => .after fun _ => .some _
    exact hsucceeds.answers (hexpression.2 (.inl hoperator))

/-- **What an operation begins with does not depend on its level.** -/
theorem operation_answers : ∀ levels : List Level, Yields (operation enter levels none) i s
    (Answers KindSet.expressionFirst s)
  | [] => unary_answers
  | level :: tighter => by
    rw [operation_cons]
    refine (operation_answers tighter).bind ?_
    rintro (_ | lhs) t h
    · exact .pure h
    · exact (Succeeds.some _).answers (h.iff.1 rfl)

/-- **Expressions begin where they should** while they may nest deeper. -/
theorem expression_onset (hs : s.Sound i) (hn : s.remaining < n) (hlimit : ∀ k ∈ i.settings.limit, s.depth < k) :
    Ensures (expression (Production.enter n) none) i s fun a t => Onset KindSet.expressionFirst s a.isSome t := by
  have hreads := (enters_enter true i n).operation (show 0 ≤ 10 from Nat.zero_le 10) hn hs (Nat.le_refl _)
  obtain ⟨m, rfl⟩ := Nat.exists_eq_add_of_lt hn
  have hanswers : Yields (expression (Production.enter (s.remaining + m + 1)) none) i s
      (Answers KindSet.expressionFirst s) := by
    refine (nested_yields (p := operation (Production.enter (s.remaining + m)) Level.all none)).mono ?_
    rintro a _ (⟨k, hk, hdeep, -⟩ | ⟨-, t, hrun, rfl⟩)
    · exact absurd (hlimit k hk) (Nat.not_lt.2 hdeep)
    · have h := operation_answers Level.all a t hrun
      refine ⟨h.iff, fun hnone => ?_⟩
      exact congrArg State.upper (h.stays hnone)
  refine (hreads.and (hanswers.ensures hreads)).mono fun a t ⟨⟨hr, hlt⟩, ha⟩ => ⟨ha.iff, fun h => ?_, fun h => ?_⟩
  · exact position_lt_of_remaining_lt hs.toCoherent hr.sound.toCoherent (hlt h)
  · exact ha.stays (by simpa using h)

/-! ## Every state of a parse -/

/-- The tokens of a source are sound. -/
theorem sound_ofSource (source : String) (settings : Settings) : (Input.ofSource source settings).Sound :=
  sound_ofTokens (tiles_lex source) fun _ => isToken_of_mem_lex

/-- There are more levels than any state of a parse needs. -/
theorem remaining_lt_bound {i : Input} (hs : s.Sound i) : s.remaining < i.bound :=
  (State.remaining_le_length hs.toCoherent).trans_lt hs.input.bound

/-- **The sets are exact.**  In each state of a parse a statement begins just where the next token is in the set for
statements, and, while the nesting limit is not reached, an expression just where it is in that for expressions.  With
more levels than significant tokens are left, an expression is always read to its end, and so is a statement when
three looks are left. -/
theorem onset_of_reached {source : String} {settings : Settings} (h : Reached (.ofSource source settings) s)
    (hn : s.remaining < n) :
    Yields (statement (Production.enter n)) (.ofSource source settings) s (Onset KindSet.statementFirst s) ∧
    (3 ≤ s.looks → Ensures (statement (Production.enter n)) (.ofSource source settings) s
      (Onset KindSet.statementFirst s)) ∧
    ((∀ k ∈ settings.limit, s.depth < k) → Ensures (expression (Production.enter n) none) (.ofSource source settings) s
      fun a t => Onset KindSet.expressionFirst s a.isSome t) := by
  have hs := h.sound (sound_ofSource source settings)
  exact ⟨statement_yields_onset hs hn.le, statement_onset hs hn.le, expression_onset hs hn⟩

/-- Where a name is next, a statement and an expression begin. -/
theorem onset_of_name : ∃ s, Reached (.ofSource "x" .standard) s ∧ s.next = .ident ∧
    s.remaining < (Input.ofSource "x" .standard).bound ∧
    Ensures (statement (Production.enter (Input.ofSource "x" .standard).bound)) (.ofSource "x" .standard) s
      (fun b t => b = true ∧ s.position < t.position) ∧
    Ensures (expression (Production.enter (Input.ofSource "x" .standard).bound) none) (.ofSource "x" .standard) s
      fun a t => a.isSome = true ∧ s.position < t.position := by
  have hrun : (prelude (.ofSource "x" .standard) (.initial (lex "x"))).toOption.map (fun r =>
      (r.2.next, r.2.looks, r.2.depth)) = some (.ident, 256, 0) := by decide +kernel
  cases hprelude : prelude (.ofSource "x" .standard) (.initial (lex "x")) with
  | error e =>
    rw [hprelude] at hrun
    cases hrun
  | ok r =>
  obtain ⟨o, s⟩ := r
  obtain ⟨hnext, hlooks, hdepth⟩ : s.next = .ident ∧ s.looks = 256 ∧ s.depth = 0 := by
    simpa [hprelude, Except.toOption] using hrun
  have hreached : Reached (.ofSource "x" .standard) s := ⟨o, s, hprelude, .refl s⟩
  have hbound := remaining_lt_bound (hreached.sound (sound_ofSource _ _))
  obtain ⟨-, hstatement, hexpression⟩ := onset_of_reached hreached hbound
  refine ⟨s, hreached, hnext, hbound, (hstatement (by omega)).mono fun b t h => ?_,
    (hexpression (by simp [Settings.standard, hdepth])).mono fun a t h => ?_⟩
  · have hb := h.iff.2 (by rw [hnext]; decide)
    exact ⟨hb, h.advances hb⟩
  · have ha := h.iff.2 (by rw [hnext]; decide)
    exact ⟨ha, h.advances ha⟩

end LuaTree.Production
