import Mathlib.Data.List.TakeWhile
import LuaTree.Proofs.Consuming
import LuaTree.Proofs.Logging
import LuaTree.Proofs.Replay

/-!
# Proofs/Outlook — what the rest of a run depends on

How the reading goes on and what it will report depends on few parts of a state: the tokens ahead that
are no trivia, and what has been reported.  They are the **outlook** of the state.  Every word of
`Parser/Basic` that consumes or reports is a function of outlooks: `Outlook.told` for a report,
`Outlook.settle` for the unknown characters in front, `Outlook.advance` for a token and `Outlook.bail`
for the nesting limit.  `Draws` says which drafts are recorded meanwhile.
-/

namespace LuaTree

open LuaTree.Parser

/-- **What the rest of a run depends on.** -/
structure Outlook where
  /-- The coming tokens that are no trivia, with their numbers. -/
  ahead : List (Token × Nat)
  diagnostics : List Diagnostic
  lastReported : Option Nat
  limitReached : Bool

/-- The outlook of a state. -/
def State.outlook (s : State) : Outlook :=
  ⟨s.ahead, s.diagnostics.toList, s.lastReported, s.limitReached⟩

namespace Outlook

/-- The coming tokens that the grammar sees. -/
def significant (a : Outlook) : List Token := (a.ahead.map Prod.fst).filter Token.isSignificant

/-- The span of the next of them, or the end of a source of `size` bytes. -/
def span (a : Outlook) (size : Nat) : Span := a.significant.head?.elim (.place size) Token.span

/-- After a report, which is kept unless its offset has one or the nesting limit has been reached. -/
def told (a : Outlook) (d : Diagnostic) : Outlook :=
  if a.limitReached || a.lastReported == some d.span.start then a
  else { a with lastReported := some d.span.start, diagnostics := a.diagnostics ++ [d] }

/-- After the unknown characters among `ls`, which lie ahead, up to the first token that is none. -/
def passed (a : Outlook) : List (Token × Nat) → Outlook
  | [] => { a with ahead := [] }
  | l :: ls =>
    if l.1.kind = .invalidChar then (a.told ⟨.unexpectedCharacter, l.1.span, none, []⟩).passed ls
    else { a with ahead := l :: ls }

/-- After the unknown characters in front. -/
def settle (a : Outlook) : Outlook := a.passed a.ahead

/-- After the tokens up to `ls` and a report, if the string `t` in front of them is unfinished. -/
def unquoted (a : Outlook) (t : Token) (ls : List (Token × Nat)) : Outlook :=
  if Token.closesString? t.kind t.text.toList = some false then
    { a with ahead := ls }.told ⟨.unfinishedString, t.span, none, []⟩
  else { a with ahead := ls }

/-- After the next token and the unknown characters behind it. -/
def advance (a : Outlook) : Outlook :=
  match a.ahead with
  | [] => a
  | l :: ls => (a.unquoted l.1 ls).settle

/-- After the nesting limit has been reached: all that lies ahead is given up. -/
def bail (a : Outlook) (limit size : Nat) : Outlook :=
  if a.limitReached then a
  else
    let start := (a.span size).start
    ⟨[], a.diagnostics ++ [⟨.recursionLimitExceeded, .ofLength start (size - start), some limit.repr, []⟩],
      some start, true⟩

/-- The drafts that the nesting limit leaves. -/
def aside (a : Outlook) : List Draft :=
  if a.limitReached then [] else [.grown (.node .error (Draft.row a.ahead))]

/-- No unknown character stands in front of the next significant token. -/
def Settled (a : Outlook) : Prop := ∀ l ∈ a.ahead.head?, l.1.kind ≠ .invalidChar

@[simp] theorem ahead_told (a : Outlook) (d : Diagnostic) : (a.told d).ahead = a.ahead := by
  rw [told]
  split <;> rfl

@[simp] theorem limitReached_told (a : Outlook) (d : Diagnostic) :
    (a.told d).limitReached = a.limitReached := by
  rw [told]
  split <;> rfl

@[simp] theorem limitReached_passed (a : Outlook) (ls : List (Token × Nat)) :
    (a.passed ls).limitReached = a.limitReached := by
  induction ls generalizing a with
  | nil => rfl
  | cons l ls ih =>
    rw [passed]
    split
    · rw [ih, limitReached_told]
    · rfl

@[simp] theorem ahead_unquoted (a : Outlook) (t : Token) (ls : List (Token × Nat)) :
    (a.unquoted t ls).ahead = ls := by
  rw [unquoted]
  split
  · rw [ahead_told]
  · rfl

@[simp] theorem limitReached_unquoted (a : Outlook) (t : Token) (ls : List (Token × Nat)) :
    (a.unquoted t ls).limitReached = a.limitReached := by
  rw [unquoted]
  split
  · rw [limitReached_told]
  · rfl

/-- What is not ahead yet does not matter to a report. -/
theorem told_ahead (a : Outlook) (d : Diagnostic) (ls : List (Token × Nat)) :
    { a with ahead := ls }.told d = { a.told d with ahead := ls } := by
  rw [told, told]
  split <;> rfl

theorem passed_ahead (a : Outlook) (ls ms : List (Token × Nat)) :
    { a with ahead := ls }.passed ms = a.passed ms := by
  induction ms generalizing a with
  | nil => rfl
  | cons m ms ih =>
    rw [passed, passed, told_ahead, ih]

@[simp] theorem ahead_passed (a : Outlook) (ls : List (Token × Nat)) :
    (a.passed ls).ahead = ls.dropWhile (·.1.kind = .invalidChar) := by
  induction ls generalizing a with
  | nil => rfl
  | cons l ls ih =>
    rw [passed, List.dropWhile_cons]
    by_cases h : l.1.kind = .invalidChar <;> simp [h, ih]

@[simp] theorem ahead_settle (a : Outlook) :
    a.settle.ahead = a.ahead.dropWhile (·.1.kind = .invalidChar) :=
  ahead_passed ..

@[simp] theorem limitReached_settle (a : Outlook) : a.settle.limitReached = a.limitReached :=
  limitReached_passed ..

@[simp] theorem limitReached_advance (a : Outlook) : a.advance.limitReached = a.limitReached := by
  rw [advance]
  split
  · rfl
  · rw [limitReached_settle, limitReached_unquoted]

/-- The grammar does not see unknown characters. -/
@[simp] theorem significant_settle (a : Outlook) : a.settle.significant = a.significant := by
  rw [significant, significant, ahead_settle]
  induction a.ahead with
  | nil => rfl
  | cons l ls ih =>
    rw [List.dropWhile_cons]
    by_cases h : l.1.kind = .invalidChar
    · simpa [h, Token.isSignificant, Kind.isSignificant] using ih
    · simp [h]

theorem ahead_advance {a : Outlook} {l : Token × Nat} {ls : List (Token × Nat)} (h : a.ahead = l :: ls) :
    a.advance.ahead = ls.dropWhile (·.1.kind = .invalidChar) := by
  rw [advance, h]
  change (settle _).ahead = _
  rw [ahead_settle, ahead_unquoted]

theorem significant_advance {a : Outlook} {l : Token × Nat} {ls : List (Token × Nat)}
    (h : a.ahead = l :: ls) : a.advance.significant = (ls.map Prod.fst).filter Token.isSignificant := by
  rw [advance, h]
  change (settle _).significant = _
  rw [significant_settle, significant, ahead_unquoted]

/-! ### What is reported meanwhile -/

/-- All that has been reported since is of some sort. -/
def Adds (P : Diagnostic → Prop) (a₀ a : Outlook) : Prop :=
  ∃ ds, a.diagnostics = a₀.diagnostics ++ ds ∧ ∀ d ∈ ds, P d

section

variable {P : Diagnostic → Prop} {a₀ a a' : Outlook}

theorem Adds.refl (a : Outlook) : a.Adds P a := ⟨[], (List.append_nil _).symm, nofun⟩

theorem Adds.trans (h : a₀.Adds P a) (h' : a.Adds P a') : a₀.Adds P a' := by
  obtain ⟨ds, hds, hP⟩ := h
  obtain ⟨es, hes, hP'⟩ := h'
  refine ⟨ds ++ es, by rw [hes, hds, List.append_assoc], fun d hd => ?_⟩
  exact (List.mem_append.1 hd).elim (hP d) (hP' d)

theorem Adds.mem (h : a₀.Adds P a) {d : Diagnostic} (hd : d ∈ a₀.diagnostics) : d ∈ a.diagnostics :=
  let ⟨_, hds, _⟩ := h
  hds ▸ List.mem_append_left _ hd

theorem adds_told (a : Outlook) {d : Diagnostic} (hd : P d) : a.Adds P (a.told d) := by
  rw [told]
  split
  · exact .refl a
  · exact ⟨[d], rfl, by simpa using hd⟩

theorem adds_passed (a : Outlook) {ls : List (Token × Nat)}
    (hP : ∀ l ∈ ls, l.1.kind = .invalidChar → P ⟨.unexpectedCharacter, l.1.span, none, []⟩) :
    a.Adds P (a.passed ls) := by
  induction ls generalizing a with
  | nil => exact .refl a
  | cons l ls ih =>
    rw [List.forall_mem_cons] at hP
    rw [passed]
    split
    · rename_i hl
      exact (adds_told a (hP.1 hl)).trans (ih _ hP.2)
    · exact .refl a

theorem adds_unquoted (a : Outlook) {t : Token} (ls : List (Token × Nat))
    (hP : P ⟨.unfinishedString, t.span, none, []⟩) : a.Adds P (a.unquoted t ls) := by
  rw [unquoted]
  split
  · exact adds_told { a with ahead := ls } hP
  · exact .refl a

theorem adds_advance (a : Outlook)
    (hP : ∀ l ∈ a.ahead, ∀ p ∈ [Problem.unexpectedCharacter, .unfinishedString], P ⟨p, l.1.span, none, []⟩) :
    a.Adds P a.advance := by
  rw [advance]
  split
  · exact .refl a
  · rename_i l ls hl
    rw [hl, List.forall_mem_cons] at hP
    refine (adds_unquoted a ls (hP.1 _ (by simp))).trans (adds_passed _ fun m hm _ => ?_)
    rw [ahead_unquoted] at hm
    exact hP.2 m hm _ (by simp)

end

theorem bail_of_limitReached {a : Outlook} (h : a.limitReached = true) (limit size : Nat) :
    a.bail limit size = a :=
  if_pos h

theorem limitReached_bail (a : Outlook) (limit size : Nat) : (a.bail limit size).limitReached = true := by
  rw [bail]
  split
  · assumption
  · rfl

end Outlook

theorem State.significant_outlook (s : State) : s.outlook.significant = s.significant :=
  s.significant_eq.symm

/-- The next token is one of those ahead. -/
theorem State.next_of_ahead {s s' : State} (h : s'.ahead = s.ahead) : s'.next = s.next := by
  rw [State.next, State.next, State.significant_eq, State.significant_eq, h]

theorem map_fst_solidFrom (n : Nat) (ts : List Token) :
    (solidFrom n ts).map Prod.fst = ts.filter fun t => !t.kind.isTrivia := by
  induction ts generalizing n with
  | nil => rfl
  | cons t ts ih =>
    rw [solidFrom]
    by_cases ht : t.kind.isTrivia <;> simp [ht, ih]

/-- What lies ahead is the end of an input. -/
def Outlook.Faces (a : Outlook) (i : Input) : Prop := a.ahead <:+ solidFrom 0 i.tokens

/-- The end of an input lies ahead, and a significant token comes first. -/
structure Outlook.Ready (a : Outlook) (i : Input) : Prop where
  faces : a.Faces i
  settled : a.Settled

theorem Outlook.Faces.mem {a : Outlook} {i : Input} {l : Token × Nat} (h : a.Faces i) (hl : l ∈ a.ahead) :
    l.1 ∈ i.tokens ∧ l.1.kind.isTrivia = false := by
  have hmem : l.1 ∈ (solidFrom 0 i.tokens).map Prod.fst := List.mem_map_of_mem (h.subset hl)
  rw [map_fst_solidFrom, List.mem_filter] at hmem
  exact ⟨hmem.1, by simpa using hmem.2⟩

theorem Input.Sound.start_lt_stop {i : Input} (hi : i.Sound) {t : Token} (ht : t ∈ i.tokens) :
    t.start < t.stop := by
  have hpos : t.text.utf8ByteSize ≠ 0 := by simpa using hi.filled t ht
  rw [Token.stop]
  omega

theorem Input.Sound.pairwise_start {i : Input} (hi : i.Sound) :
    i.tokens.Pairwise fun t u => t.start < u.start :=
  hi.ordered.imp_of_mem fun ht _ h => (hi.start_lt_stop ht).trans_le h

theorem Outlook.Faces.pairwise_start {a : Outlook} {i : Input} (h : a.Faces i) (hi : i.Sound) :
    a.ahead.Pairwise fun l m => l.1.start < m.1.start := by
  refine List.Pairwise.sublist h.sublist (List.Pairwise.of_map (S := fun t u => t.start < u.start) Prod.fst
    (fun _ _ => id) ?_)
  rw [map_fst_solidFrom]
  exact hi.pairwise_start.sublist List.filter_sublist

/-- The token in front is significant. -/
theorem Outlook.Ready.isSignificant {a : Outlook} {i : Input} {l : Token × Nat} {ls : List (Token × Nat)}
    (h : a.Ready i) (hl : a.ahead = l :: ls) : l.1.isSignificant = true := by
  have hsolid := (h.faces.mem (l := l) (by simp [hl])).2
  have hknown := h.settled l (by simp [hl])
  simp [Token.isSignificant, Kind.isSignificant, hsolid, hknown]

theorem Outlook.Ready.significant {a : Outlook} {i : Input} {l : Token × Nat} {ls : List (Token × Nat)}
    (h : a.Ready i) (hl : a.ahead = l :: ls) : a.significant = l.1 :: a.advance.significant := by
  rw [significant_advance hl, Outlook.significant, hl, List.map_cons,
    List.filter_cons_of_pos (h.isSignificant hl)]

theorem Outlook.Ready.start_span {a : Outlook} {i : Input} (h : a.Ready i) (size : Nat) :
    (a.span size).start = a.ahead.head?.elim size (·.1.start) := by
  rw [Outlook.span]
  cases hl : a.ahead with
  | nil =>
    rw [Outlook.significant, hl]
    rfl
  | cons l ls =>
    rw [h.significant hl]
    rfl

theorem Outlook.Ready.span_eq {a : Outlook} {i : Input} {l : Token × Nat} {ls : List (Token × Nat)}
    (h : a.Ready i) (hl : a.ahead = l :: ls) (size : Nat) : a.span size = l.1.span := by
  rw [Outlook.span, h.significant hl]
  rfl

/-- **The span of a token that was read before.** -/
def Outlook.Past (a : Outlook) (i : Input) (x : Span) : Prop :=
  ∃ ls l, ls ++ a.ahead = solidFrom 0 i.tokens ∧ l ∈ ls ∧ x = l.1.span

/-- What was read between two moments is past in the second one. -/
theorem Outlook.Faces.past {a₀ a : Outlook} {i : Input} {ls : List (Token × Nat)} {l : Token × Nat}
    (h : a₀.Faces i) (ha : a₀.ahead = ls ++ a.ahead) (hl : l ∈ ls) : a.Past i l.1.span := by
  obtain ⟨ms, hms⟩ := h
  exact ⟨ms ++ ls, l, by rw [List.append_assoc, ← ha, hms], List.mem_append_right _ hl, rfl⟩

theorem Outlook.Past.later {a₀ a : Outlook} {i : Input} {x : Span} {ls : List (Token × Nat)}
    (h : a₀.Past i x) (ha : a₀.ahead = ls ++ a.ahead) : a.Past i x := by
  obtain ⟨ms, l, hms, hl, hx⟩ := h
  exact ⟨ms ++ ls, l, by rw [List.append_assoc, ← ha, hms], List.mem_append_left _ hl, hx⟩

/-- What the grammar reports about tokens that it has read. -/
def Problem.retrospective : List Problem := [.bareExpression, .invalidAssignmentTarget]

/-- **The span of the tokens that were read last**, from a significant one on. -/
def Outlook.Behind (a : Outlook) (i : Input) (x : Span) : Prop :=
  ∃ ms l ls m, ms ++ l :: ls ++ a.ahead = solidFrom 0 i.tokens ∧ l.1.isSignificant = true ∧
    (l :: ls).getLast? = some m ∧ x.start = l.1.start ∧ x.stop = m.1.stop

/-- What a report is about: the next token, but for those about tokens that were read.  What it notes was read
before. -/
structure Outlook.Recalls (a : Outlook) (i : Input) (d : Diagnostic) : Prop where
  notes : ∀ n ∈ d.notes, a.Past i n.span ∧ d.span = a.span i.size
  next : d.problem ∉ Problem.retrospective → d.span = a.span i.size
  behind : d.problem ∈ Problem.retrospective → a.Behind i d.span

/-- **A snapshot that tells what was read since a state.** -/
structure Snapshot.Marks (m : Snapshot) (i : Input) (s : State) : Prop where
  rest : m.rest = i.tokens.drop m.position
  position_le : m.position ≤ i.tokens.length
  ahead : solidFrom m.position m.rest = s.ahead

namespace Parser

variable {i : Input} {s s' s₀ s₁ s₂ : State} {F F' : List Draft} {α β : Type}

/-- **The drafts that were recorded between two states**, each node of a kind of its own. -/
structure Draws (i : Input) (s s' : State) (F : List Draft) : Prop extends Grows i s s' F where
  named : Tree.NamedInList (Draft.treesOfList F)

namespace Draws

theorem refl (h : s.Coherent i) : Draws i s s [] := ⟨.refl h, trivial⟩

theorem trans (h₁ : Draws i s s₁ F) (h₂ : Draws i s₁ s₂ F') : Draws i s s₂ (F ++ F') := by
  refine ⟨h₁.toGrows.trans h₂.toGrows, ?_⟩
  rw [Draft.treesOfList_append]
  exact Tree.everywhereInList_append.2 ⟨h₁.named, h₂.named⟩

end Draws

/-! ## Looking -/

theorem peekAt_yields (n : Nat) : Yields (peekAt n) i s fun k s' =>
    s' = s.look ∧ k = s.significant[n]?.elim .error Token.kind := by
  refine .get ?_
  split
  · exact .exhausted
  · rename_i looks hl
    refine .setting (.pure ⟨?_, ?_⟩)
    · rw [State.look, hl]
      rfl
    · rw [Token.nthSignificant?_eq]
      rfl

theorem peek_yields : Yields peek i s fun k s' => k = s.next ∧ s' = s.look :=
  (peekAt_yields 0).mono fun _ _ h => ⟨by rw [h.2, State.next, List.head?_eq_getElem?], h.1⟩

theorem isAt_yields (k : Kind) : Yields (isAt k) i s fun b s' => b = (s.next == k) ∧ s' = s.look := by
  refine peek_yields.bind ?_
  rintro _ _ ⟨rfl, rfl⟩
  exact .pure ⟨rfl, rfl⟩

/-! ## Words that record events only -/

theorem amend_outlook (event : Nat) (change : Kind → Option Nat → Event) :
    Yields (amend event change) i s fun _ s' => s'.outlook = s.outlook := by
  refine .get ?_
  split
  · exact .last (.setting (.pure rfl))
  · exact .exhausted

theorem complete_outlook (o : Opening) (k : Kind) :
    Yields (complete o k) i s fun _ s' => s'.outlook = s.outlook :=
  (amend_outlook _ _).bind fun _ _ h => .modifying (.pure h)

theorem precede_outlook (x : Closed) : Yields (precede x) i s fun _ s' => s'.outlook = s.outlook :=
  Yields.bind (p := start) (Q := fun _ s' => s'.outlook = s.outlook) (.get (.modifying (.pure rfl)))
    fun _ _ h => (amend_outlook _ _).bind fun _ _ h' => .pure (h'.trans h)

theorem abandon_outlook (o : Opening) : Yields (abandon o) i s fun _ s' => s'.outlook = s.outlook := by
  refine .last (.modifying (.pure ?_))
  split <;> rfl

/-! ## Reporting -/

theorem report_outlook {d : Diagnostic} (hs : s.Coherent i) : Ensures (report d) i s fun _ s' =>
    Draws i s s' [] ∧ s.Stays s' ∧ s'.outlook = s.outlook.told d := by
  have hlog : Ensures (report d) i s fun _ s' => s'.outlook = s.outlook.told d := by
    refine .assoc (.get ?_)
    by_cases h : s.limitReached || s.lastReported == some d.span.start
    · rw [if_pos h]
      exact .pure (if_pos h).symm
    · rw [if_neg h]
      refine Ensures.modify ((if_neg h).trans ?_).symm
      simp [State.outlook, State.ahead]
  refine ((Ensures.report hs).and hlog).mono ?_
  rintro _ s' ⟨⟨hg, -, hstays⟩, hlook⟩
  exact ⟨⟨hg, trivial⟩, hstays, hlook⟩

/-! ## Spans -/

theorem solidFrom_append (n : Nat) (ts us : List Token) :
    solidFrom n (ts ++ us) = solidFrom n ts ++ solidFrom (n + ts.length) us := by
  induction ts generalizing n with
  | nil => rfl
  | cons t ts ih =>
    rw [List.cons_append, solidFrom, solidFrom, ih, List.length_cons, Nat.add_right_comm, Nat.add_assoc]
    split <;> rfl

theorem faces_of_coherent (hs : s.Coherent i) : s.outlook.Faces i := by
  refine ⟨solidFrom 0 (i.tokens.take s.position), ?_⟩
  have hlength : 0 + (i.tokens.take s.position).length = s.position := by
    rw [List.length_take, Nat.min_eq_left hs.position_le, Nat.zero_add]
  change _ ++ solidFrom s.position s.rest = _
  rw [hs.rest]
  conv => rhs; rw [← List.take_append_drop s.position i.tokens, solidFrom_append, hlength]

theorem marks_snapshot (hs : s.Coherent i) : s.snapshot.Marks i s := ⟨hs.rest, hs.position_le, rfl⟩

/-- The tokens since a snapshot are those of the drafts. -/
theorem Grows.consumed {m : Snapshot} (h : Grows i s₀ s F) (hm : m.Marks i s₀) :
    (m.rest.take (s.position - m.position)).filter (fun t => !t.kind.isTrivia) =
      (Draft.leavesOfList F).map Prod.fst := by
  have hahead : solidFrom m.position (i.tokens.drop m.position) =
      Draft.leavesOfList F ++ solidFrom s.position (i.tokens.drop s.position) := by
    rw [← hm.rest, ← h.coherent.rest]
    exact hm.ahead.trans h.ahead
  -- the tokens between two numbers stand in front of those from the second one on
  have hsplit {p q : Nat} (hpq : p ≤ q) (hq : q ≤ i.tokens.length) :
      solidFrom p (i.tokens.drop p) =
        solidFrom p ((i.tokens.drop p).take (q - p)) ++ solidFrom q (i.tokens.drop q) := by
    conv => lhs; rw [← List.take_append_drop (q - p) (i.tokens.drop p)]
    rw [solidFrom_append, List.drop_drop, List.length_take, List.length_drop,
      Nat.min_eq_left (by omega), Nat.add_sub_cancel' hpq]
  rw [← map_fst_solidFrom m.position, hm.rest]
  rcases Nat.le_total m.position s.position with hle | hle
  · rw [hsplit hle h.coherent.position_le, List.append_cancel_right_eq] at hahead
    rw [hahead]
  · rw [hsplit hle hm.position_le, ← List.append_assoc] at hahead
    have hnil := List.append_eq_nil_iff.1 (List.self_eq_append_left.1 hahead)
    rw [hnil.1, Nat.sub_eq_zero_of_le hle]
    rfl

/-- **The span of tokens that were consumed**; the place of the next token when there are none. -/
def SpanOf (a : Outlook) (size : Nat) (ls : List (Token × Nat)) (x : Span) : Prop :=
  (∃ l m, ls.head? = some l ∧ ls.getLast? = some m ∧ x.start = l.1.start ∧ x.stop = m.1.stop) ∨
    ls = [] ∧ x = .place (a.span size).start

theorem currentSpan_eq : currentSpan i s = .ok (s.outlook.span i.size, s) := by
  have h : s.rest.find? Token.isSignificant = s.outlook.significant.head? := by
    rw [s.significant_outlook, State.significant, List.head?_filter]
  change Except.ok ((s.rest.find? Token.isSignificant).elim _ _, s) = _
  rw [h]
  rfl

theorem spanSince_outlook {m : Snapshot} (hg : Grows i s₀ s F) (hm : m.Marks i s₀) :
    Yields (spanSince m) i s fun x s' =>
      s' = s ∧ SpanOf s.outlook i.size (Draft.leavesOfList F) x := by
  refine .get ?_
  dsimp only
  rw [hg.consumed hm]
  split
  · rename_i first last hfirst hlast
    rw [List.head?_map, Option.map_eq_some_iff] at hfirst
    rw [List.getLast?_map, Option.map_eq_some_iff] at hlast
    obtain ⟨l, hl, rfl⟩ := hfirst
    obtain ⟨m, hm, rfl⟩ := hlast
    rw [spanBetween, Span.between?]
    split
    · rename_i x hx
      split at hx
      · cases hx
        exact .pure ⟨rfl, .inl ⟨l, m, hl, hm, rfl, rfl⟩⟩
      · cases hx
    · exact .exhausted
  · rename_i hnone
    have hnil : Draft.leavesOfList F = [] := by
      by_contra hne
      obtain ⟨l, ls, hls⟩ := List.exists_cons_of_ne_nil hne
      refine hnone _ _ (List.head?_eq_some_head (by simp [hls])) (List.getLast?_eq_some_getLast (by simp [hls]))
    refine Yields.bind (Q := fun x s' => x = s.outlook.span i.size ∧ s' = s) (fun x s' h => ?_) ?_
    · rw [currentSpan_eq] at h
      cases h
      exact ⟨rfl, rfl⟩
    · rintro _ _ ⟨rfl, rfl⟩
      exact .pure ⟨rfl, .inr ⟨hnil, rfl⟩⟩

/-! ## Unknown characters -/

/-- The nodes around the unknown characters in front. -/
def unknownNodes : List (Token × Nat) → List Draft
  | [] => []
  | l :: ls =>
    if l.1.kind = .invalidChar then .grown (.node .error [.leaf l.2 l.1]) :: unknownNodes ls else []

theorem error_ne_tombstone : Kind.error ≠ .tombstone := by decide

/-- The span since the opening in front of one token is that of the token. -/
theorem spanSince_leaf {t : Token} {index : Nat} (hs : s₀.Coherent i)
    (hg : Grows i s₀ s [.blank, .leaf index t]) :
    Ensures (spanSince s₀.snapshot) i s fun x s' => s' = s ∧ x = t.span := by
  have hruns : Ensures (spanSince s₀.snapshot) i s fun _ _ => True :=
    .last (.spanSince hg.coherent (opens_start hs).snapshot fun _ => .pure trivial)
  refine ((spanSince_outlook hg (marks_snapshot hs)).ensures hruns).mono ?_
  rintro x _ ⟨rfl, ⟨l, m, hl, hm, hstart, hstop⟩ | ⟨hnil, -⟩⟩
  · obtain rfl : (t, index) = l := by simpa [Draft.leavesOfList, Draft.leaves] using hl
    obtain rfl : (t, index) = m := by simpa [Draft.leavesOfList, Draft.leaves] using hm
    refine ⟨rfl, ?_⟩
    cases x
    subst hstart hstop
    rfl
  · simp [Draft.leavesOfList, Draft.leaves] at hnil

theorem wrapUnknownFrom_outlook : ∀ (ts : List Token) {index : Nat} {s : State}, s.Coherent i →
    i.tokens.drop index = ts → s.ahead = solidFrom index ts →
    Ensures (wrapUnknownFrom index ts) i s fun _ s' =>
      Draws i s s' (unknownNodes s.ahead) ∧ s'.outlook = s.outlook.settle
  | [], index, s, hs, hts, ha => by
    have ha : s.ahead = [] := ha
    refine .pure ?_
    rw [ha]
    refine ⟨.refl hs, ?_⟩
    rw [Outlook.settle, State.outlook, ha]
    rfl
  | t :: ts, index, s, hs, hts, ha => by
    have hdrop : i.tokens.drop (index + 1) = ts := by
      rw [← List.drop_drop, hts, List.drop_one, List.tail_cons]
    by_cases htrivia : t.kind.isTrivia = true
    · rw [wrapUnknownFrom, if_pos htrivia]
      exact wrapUnknownFrom_outlook ts hs hdrop (by rw [ha, solidFrom, if_pos htrivia])
    rw [solidFrom, if_neg htrivia] at ha
    by_cases hunknown : t.kind = .invalidChar
    swap
    · rw [wrapUnknownFrom, if_neg htrivia, if_neg hunknown]
      refine .pure ⟨?_, ?_⟩
      · rw [ha, unknownNodes, if_neg hunknown]
        exact .refl hs
      · rw [Outlook.settle, State.outlook, ha, Outlook.passed, if_neg hunknown]
    refine .wrap hs hts ha hunknown ?_
    intro s₁ hs₁ hg₁
    refine (spanSince_leaf hs hg₁).bind ?_
    rintro _ _ ⟨rfl, rfl⟩
    refine (report_outlook hg₁.coherent).bind ?_
    rintro _ s₂ ⟨hg₂, hstays, hlook₂⟩
    have hcomplete := Grows.complete (k := .error) (opens_start hs) (hg₁.trans hg₂.toGrows)
    refine (hcomplete.and ((complete_outlook _ _).ensures hcomplete)).bind ?_
    rintro x s₃ ⟨⟨⟨hg₃, -⟩, hstill⟩, hlook₃⟩
    have ha₃ : s₃.ahead = solidFrom (index + 1) ts := by
      rw [hstill.ahead, hstays.ahead, hs₁]
      rfl
    have hlook : s₃.outlook = { s.outlook.told ⟨.unexpectedCharacter, t.span, none, []⟩ with
        ahead := solidFrom (index + 1) ts } := by
      rw [hlook₃, hlook₂, ← Outlook.told_ahead, hs₁]
      rfl
    refine (wrapUnknownFrom_outlook ts hg₃.coherent hdrop ha₃).mono ?_
    rintro _ s' ⟨hg', hlook'⟩
    have hnamed : Tree.NamedInList (Draft.treesOfList [.grown (.node .error [.leaf index t])]) :=
      ⟨⟨error_ne_tombstone, trivial, trivial⟩, trivial⟩
    rw [ha, unknownNodes, if_pos hunknown]
    refine ⟨(Draws.mk hg₃ hnamed).trans (ha₃ ▸ hg'), ?_⟩
    rw [hlook', Outlook.settle, hlook, Outlook.passed_ahead, Outlook.settle]
    change _ = s.outlook.passed s.ahead
    rw [ha, Outlook.passed, if_pos hunknown]

theorem wrapUnknown_outlook (hs : s.Coherent i) : Ensures wrapUnknown i s fun _ s' =>
    Draws i s s' (unknownNodes s.ahead) ∧ s'.outlook = s.outlook.settle ∧ s'.Settled :=
  (Ensures.get (f := fun s => wrapUnknownFrom s.position s.rest)
    (wrapUnknownFrom_outlook s.rest hs hs.rest.symm rfl)).and (wrapUnknown_reads true hs) |>.mono
      fun _ _ ⟨⟨hg, h⟩, hr⟩ => ⟨hg, h, hr.1.settled⟩

/-! ## Consuming a token -/

theorem closesString?_of_not_mem {k : Kind} (hk : k ∉ KindSet.strings) (cs : List Char) :
    Token.closesString? k cs = some true := by
  have h : ∀ k ∈ Kind.all, k ∉ KindSet.strings → k.isQuoted = false ∧ k ≠ .longString := by decide +kernel
  obtain ⟨h₁, h₂⟩ := h k (Kind.mem_all k) hk
  simp [Token.closesString?, h₁, h₂]

theorem reportUnfinished_outlook {t : Token} {ls : List (Token × Nat)} {a : Outlook} (hs : s.Coherent i)
    (ha : s.outlook = { a with ahead := ls }) : Yields (reportUnfinished t) i s fun _ s' =>
      Draws i s s' [] ∧ s'.outlook = a.unquoted t ls := by
  rw [reportUnfinished, Outlook.unquoted]
  split
  · split
    · rename_i h
      rw [h, if_neg (by simp)]
      exact .pure ⟨.refl hs, ha⟩
    · rename_i h
      rw [h, if_pos rfl, ← ha]
      exact (Yields.of_ensures (report_outlook hs)).mono fun _ _ h => ⟨h.1, h.2.2⟩
    · exact .exhausted
  · rename_i h
    rw [closesString?_of_not_mem h, if_neg (by simp)]
    exact .pure ⟨.refl hs, ha⟩

theorem bump_outlook (hs : s.Sound i) : Yields bump i s fun _ s' => ∃ l ls, s.ahead = l :: ls ∧
    Draws i s s' (.leaf l.2 l.1 :: unknownNodes ls) ∧ s'.outlook = s.outlook.advance ∧ s'.Settled := by
  cases hsignificant : s.significant with
  | nil =>
    refine (Yields.of_ensures (wrapUnknown_settled hs)).bind fun _ s₀ hs₀ => .get ?_
    have hdrop : s₀.rest.dropWhile (fun t => !t.isSignificant) = [] := by
      rw [hs₀, List.dropWhile_eq_nil_iff]
      simpa [State.significant] using hsignificant
    rw [hdrop]
    exact .exhausted
  | cons t ts =>
  obtain ⟨trivia, us, hrest, htrivia, hsig, -, ha⟩ := eq_append_of_significant hs hsignificant
  have hskip : ∀ u ∈ trivia, (!u.isSignificant) = true := fun u hu => by
    simp [Token.isSignificant, Kind.isSignificant, htrivia u hu]
  have hdropWhile : s.rest.dropWhile (fun u => !u.isSignificant) = t :: us := by
    rw [hrest, List.dropWhile_append_of_pos hskip, List.dropWhile_cons_of_neg (by simp [hsig])]
  have htakeWhile : s.rest.takeWhile (fun u => !u.isSignificant) = trivia := by
    rw [hrest, List.takeWhile_append_of_pos hskip, List.takeWhile_cons_of_neg (by simp [hsig]),
      List.append_nil]
  have hsolid : t.kind.isTrivia = false := by
    simp only [Token.isSignificant, Kind.isSignificant, Bool.and_eq_true, Bool.not_eq_true'] at hsig
    exact hsig.1
  have hdrop : i.tokens.drop (s.position + trivia.length) = t :: us := by
    rw [← List.drop_drop, ← hs.rest, hrest, List.drop_left]
  have hleaf : Grows i s _ [.leaf (s.position + trivia.length) t] :=
    .leaf hs.toCoherent hdrop (by rw [ha, solidFrom, if_neg (by simp [hsolid])]) hsolid
  refine (Yields.of_ensures (wrapUnknown_settled hs)).bind fun _ s₀ hs₀ => .get ?_
  rw [hs₀, hdropWhile, htakeWhile]
  refine .setting ?_
  let s₁ := State.refresh (s.consume (s.position + trivia.length) us)
  change Yields _ i s₁ _
  have hg₁ : Draws i s s₁ [.leaf (s.position + trivia.length) t] := ⟨hleaf.refresh, trivial, trivial⟩
  refine Yields.bind (reportUnfinished_outlook (a := s₁.outlook) hg₁.coherent rfl) ?_
  rintro _ s₂ ⟨hg₂, hlook₂⟩
  have ha₂ : s₂.ahead = s₁.ahead := (congrArg Outlook.ahead hlook₂).trans (Outlook.ahead_unquoted ..)
  refine (Yields.of_ensures (wrapUnknown_outlook hg₂.coherent)).mono ?_
  rintro _ s' ⟨hg', hlook', hsettled⟩
  rw [ha₂] at hg'
  refine ⟨_, _, ha, (hg₁.trans hg₂).trans hg', ?_, hsettled⟩
  rw [hlook', hlook₂, Outlook.advance]
  change _ = match s.ahead with | [] => _ | l :: ls => _
  rw [ha]
  rfl

/-! ## Nesting -/

theorem bailOut_outlook {limit : Nat} (hs : s.Sound i) : Yields (bailOut limit) i s fun _ s' =>
    Draws i s s' s.outlook.aside ∧ s'.outlook = s.outlook.bail limit i.size ∧ s'.Settled := by
  refine .get ?_
  by_cases hlimit : s.limitReached = true
  · have hlook : s.outlook.bail limit i.size = s.outlook := if_pos hlimit
    have haside : s.outlook.aside = [] := if_pos hlimit
    rw [if_pos hlimit, haside]
    exact .pure ⟨.refl hs.toCoherent, hlook.symm, hs.settled⟩
  have hlook : s.outlook.bail limit i.size = _ := if_neg hlimit
  have haside : s.outlook.aside = [.grown (.node .error (Draft.row s.ahead))] := if_neg hlimit
  rw [if_neg hlimit, haside, hlook]
  refine Yields.bind (Q := fun x s' => x = s.outlook.span i.size ∧ s' = s) (fun x s' h => ?_) ?_
  · rw [currentSpan_eq] at h
    cases h
    exact ⟨rfl, rfl⟩
  rintro _ s₁ ⟨rfl, hs₁⟩
  refine .read ?_
  rw [spanBetween, Span.between?, hs₁]
  split
  swap
  · exact .exhausted
  rename_i span hspan
  split at hspan
  swap
  · cases hspan
  rename_i hle
  obtain rfl : Span.ofLength (s.outlook.span i.size).start (i.size - (s.outlook.span i.size).start) =
      span := by
    cases hspan
    simp [Span.ofLength, Nat.add_sub_cancel' hle]
  refine .last (.modifying (.pure ?_))
  change Draws i s (bailed s ⟨.recursionLimitExceeded, _, some limit.repr, []⟩) _ ∧ _ ∧
    State.Settled (bailed s _)
  refine ⟨⟨.bailed hs.toCoherent _, ⟨error_ne_tombstone, ?_⟩, trivial⟩, ?_, by simp [State.Settled, ahead_bailed]⟩
  · rw [Draft.treesOfList_row, Tree.everywhereInList_iff]
    intro t ht
    obtain ⟨l, -, rfl⟩ := List.mem_map.1 ht
    trivial
  · simp [State.outlook, State.ahead, solidFrom, Span.ofLength]

end Parser

end LuaTree
