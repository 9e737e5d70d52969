import LuaTree.Proofs.Trait

/-!
# Proofs/Emission — in which order diagnostics are reported

What the words of the parser do to the outlook are small steps: a report, an unknown character that is passed over, a
token that is consumed, and giving up all that lies ahead (`Outlook.Step`).  A step reports what is the next token now
or was it just before, so the reports are in the order of the source (`Outlook.Ordered`).  Only two problems are about
tokens that have been read for longer; these end just in front of the cursor when they are reported.  A parse is a run
of such steps (`Trait.emission`), which starts from the unfinished comments (`emission_of_parse`).
-/

namespace LuaTree

open LuaTree.Parser Relation

/-- What is not reported in the order of the source: unfinished comments come first, and two problems are about tokens
that were read before. -/
def Problem.unordered : List Problem := .unfinishedComment :: Problem.retrospective

namespace Outlook

variable {i : Input} {a a₀ b c : Outlook} {d : Diagnostic}

/-! ## Steps -/

/-- **One step of a parse.** -/
inductive Step (i : Input) : Outlook → Outlook → Prop
  /-- A report about the next token, or the end of the source. -/
  | next {a : Outlook} {d : Diagnostic} (ha : a.Ready i) (hd : d.span = a.span i.size)
    (hproblem : d.problem ∉ Problem.unordered) : Step i a (a.told d)
  /-- A report about the tokens that were read last. -/
  | behind {a : Outlook} {d : Diagnostic} (ha : a.Ready i) (hd : a.Behind i d.span)
    (hproblem : d.problem ∈ Problem.retrospective) : Step i a (a.told d)
  /-- An unknown character is passed over and reported. -/
  | skip {a : Outlook} {l : Token × Nat} {ls : List (Token × Nat)} (ha : a.Faces i) (hl : a.ahead = l :: ls)
    (hkind : l.1.kind = .invalidChar) :
    Step i a ({ a with ahead := ls }.told ⟨.unexpectedCharacter, l.1.span, none, []⟩)
  /-- A token is consumed, and reported if it is an unfinished string. -/
  | consume {a : Outlook} {l : Token × Nat} {ls : List (Token × Nat)} (ha : a.Ready i) (hl : a.ahead = l :: ls) :
    Step i a (a.unquoted l.1 ls)
  /-- All that lies ahead is given up, and the nesting limit reported. -/
  | bail {a : Outlook} (limit : Nat) (ha : a.Ready i) : Step i a (a.bail limit i.size)

/-- **Runs of steps.** -/
abbrev Steps (i : Input) : Outlook → Outlook → Prop := ReflTransGen (Step i)

theorem Faces.of_cons {l : Token × Nat} {ls : List (Token × Nat)} (h : a.Faces i) (hl : a.ahead = l :: ls)
    (hb : b.ahead = ls) : b.Faces i := by
  rw [Faces, hb]
  exact (List.suffix_cons l ls).trans (hl ▸ h)

/-- Unknown characters are passed over one by one. -/
theorem steps_settle (ha : a.Faces i) : Steps i a a.settle := by
  induction hl : a.ahead generalizing a with
  | nil =>
    have hsettle : a.settle = a := by
      rw [settle, hl, passed, ← hl]
    rw [hsettle]
  | cons l ls ih =>
    by_cases hkind : l.1.kind = .invalidChar
    · let b : Outlook := { a with ahead := ls }.told ⟨.unexpectedCharacter, l.1.span, none, []⟩
      have hb : b.ahead = ls := ahead_told ..
      have hsettle : b.settle = a.settle := by
        rw [settle, settle, hb, hl, passed, if_pos hkind]
        change (told _ _).passed ls = _
        rw [told_ahead, passed_ahead]
      exact .head (.skip ha hl hkind) (hsettle ▸ ih (ha.of_cons hl hb) hb)
    · have hsettle : a.settle = a := by
        rw [settle, hl, passed, if_neg hkind, ← hl]
      rw [hsettle]

theorem steps_advance {l : Token × Nat} {ls : List (Token × Nat)} (ha : a.Ready i) (hl : a.ahead = l :: ls) :
    Steps i a a.advance := by
  have hadvance : a.advance = (a.unquoted l.1 ls).settle := by
    rw [advance, hl]
  rw [hadvance]
  exact .head (.consume ha hl) (steps_settle (ha.faces.of_cons hl (ahead_unquoted ..)))

/-! ## What one step reports -/

/-- **A step reports one diagnostic or none**, no comment, and what is about tokens that were read before only when
these have been read last. -/
theorem Step.reports (h : Step i a b) : b.diagnostics = a.diagnostics ∨ ∃ d, b.diagnostics = a.diagnostics ++ [d] ∧
    d.problem ≠ .unfinishedComment ∧ (d.problem ∈ Problem.retrospective → a.Behind i d.span ∧ b = a.told d) := by
  have htold {a : Outlook} (d : Diagnostic) : (a.told d).diagnostics = a.diagnostics ∨
      (a.told d).diagnostics = a.diagnostics ++ [d] := by
    rw [told]
    split
    · exact .inl rfl
    · exact .inr rfl
  cases h with
  | next ha hd hproblem =>
    simp only [Problem.unordered, List.mem_cons, not_or] at hproblem
    exact (htold _).imp_right fun h => ⟨_, h, hproblem.1, fun hmem => absurd hmem hproblem.2⟩
  | behind ha hd hproblem =>
    refine (htold _).imp_right fun h => ⟨_, h, fun hcomment => ?_, fun _ => ⟨hd, rfl⟩⟩
    rw [hcomment] at hproblem
    exact absurd hproblem (by decide)
  | skip => exact (htold _).imp_right fun h => ⟨_, h, by simp, by simp [Problem.retrospective]⟩
  | consume =>
    rw [unquoted]
    split
    · exact (htold _).imp_right fun h => ⟨_, h, by simp, by simp [Problem.retrospective]⟩
    · exact .inl rfl
  | bail limit =>
    rw [Outlook.bail]
    split
    · exact .inl rfl
    · exact .inr ⟨_, rfl, by simp, by simp [Problem.retrospective]⟩

/-- **Each diagnostic has its moment**: the step that reports it, behind all that stand in front of it. -/
theorem Steps.moment (h : Steps i a₀ a) {ds es : List Diagnostic} (hds : a.diagnostics = ds ++ d :: es)
    (hd : d ∉ a₀.diagnostics) : ∃ b c, Steps i a₀ b ∧ b.diagnostics = ds ∧ Step i b c ∧
      c.diagnostics = ds ++ [d] ∧ Steps i c a := by
  induction h generalizing es with
  | refl => exact absurd (hds ▸ List.mem_append_right _ List.mem_cons_self) hd
  | @tail b c hrun hstep ih =>
    have hearlier {fs : List Diagnostic} (hb : b.diagnostics = ds ++ d :: fs) : ∃ b' c', Steps i a₀ b' ∧
        b'.diagnostics = ds ∧ Step i b' c' ∧ c'.diagnostics = ds ++ [d] ∧ Steps i c' c := by
      obtain ⟨b', c', hb', hds', hstep', hc', hafter⟩ := ih hb
      exact ⟨b', c', hb', hds', hstep', hc', hafter.tail hstep⟩
    rcases hstep.reports with hsame | ⟨e, hmore, -⟩
    · exact hearlier (hsame.symm.trans hds)
    · rw [hmore] at hds
      rcases List.eq_nil_or_concat es with rfl | ⟨fs, f, rfl⟩
      · -- it is the last one
        obtain ⟨hb, he⟩ := List.append_inj' hds rfl
        cases he
        exact ⟨b, c, hrun, hb, hstep, hb ▸ hmore, .refl⟩
      · rw [List.concat_eq_append, ← List.cons_append, ← List.append_assoc] at hds
        exact hearlier (List.append_inj' hds rfl).1

/-- What is about tokens that were read before is reported when these have been read last. -/
theorem Steps.behind (h : Steps i a₀ a) {ds es : List Diagnostic} (hds : a.diagnostics = ds ++ d :: es)
    (hd : d ∉ a₀.diagnostics) (hproblem : d.problem ∈ Problem.retrospective) : ∃ b, Steps i a₀ b ∧
      b.diagnostics = ds ∧ b.Behind i d.span ∧ (b.told d).diagnostics = ds ++ [d] ∧ Steps i (b.told d) a := by
  obtain ⟨b, c, hbefore, hb, hstep, hc, hafter⟩ := h.moment hds hd
  rcases hstep.reports with hsame | ⟨e, hmore, -, hbehind⟩
  · rw [hsame, hb] at hc
    simp at hc
  · rw [hc, hb] at hmore
    obtain rfl : d = e := by simpa using hmore
    obtain ⟨hspan, rfl⟩ := hbehind hproblem
    exact ⟨b, hbefore, hb, hspan, hc, hafter⟩

/-! ## The order of the reports -/

/-- **The reports are in the order of the source**, but for the unordered ones, and none of them is about what comes
later than the next token. -/
structure Ordered (i : Input) (a : Outlook) : Prop where
  pairwise : (a.diagnostics.filter (·.problem ∉ Problem.unordered)).Pairwise fun d e => d.span.start ≤ e.span.start
  ahead : ∀ d ∈ a.diagnostics, d.problem ∉ Problem.unordered → ∀ l ∈ a.ahead, d.span.start ≤ l.1.start
  size : ∀ d ∈ a.diagnostics, d.problem ∉ Problem.unordered → d.span.start ≤ i.size

namespace Ordered

/-- The outlook after a report. -/
theorem add {ls : List (Token × Nat)} {x : Option Nat} {limitReached : Bool} (h : a.Ordered i)
    (hls : ∀ l ∈ ls, l ∈ a.ahead) (hd : d.problem ∉ Problem.unordered →
      (∀ e ∈ a.diagnostics, e.problem ∉ Problem.unordered → e.span.start ≤ d.span.start) ∧
      (∀ l ∈ ls, d.span.start ≤ l.1.start) ∧ d.span.start ≤ i.size) :
    Outlook.Ordered i ⟨ls, a.diagnostics ++ [d], x, limitReached⟩ := by
  refine ⟨?_, fun e he hproblem l hl => ?_, fun e he hproblem => ?_⟩
  · rw [List.filter_append, List.pairwise_append]
    refine ⟨h.pairwise, ?_, fun e he f hf => ?_⟩
    · exact (List.pairwise_singleton _ d).sublist List.filter_sublist
    · simp only [List.mem_filter, List.mem_singleton, decide_eq_true_eq] at he hf
      obtain ⟨rfl, hproblem⟩ := hf
      exact (hd hproblem).1 e he.1 he.2
  · rcases List.mem_append.1 he with he | he
    · exact h.ahead e he hproblem l (hls l hl)
    · obtain rfl := List.mem_singleton.1 he
      exact (hd hproblem).2.1 l hl
  · rcases List.mem_append.1 he with he | he
    · exact h.size e he hproblem
    · obtain rfl := List.mem_singleton.1 he
      exact (hd hproblem).2.2

/-- Less may lie ahead. -/
theorem drop {ls : List (Token × Nat)} (h : a.Ordered i) (hls : ∀ l ∈ ls, l ∈ a.ahead) :
    Outlook.Ordered i { a with ahead := ls } :=
  ⟨h.pairwise, fun d hd hproblem l hl => h.ahead d hd hproblem l (hls l hl), h.size⟩

theorem told {ls : List (Token × Nat)} (h : a.Ordered i) (hls : ∀ l ∈ ls, l ∈ a.ahead)
    (hd : d.problem ∉ Problem.unordered →
      (∀ e ∈ a.diagnostics, e.problem ∉ Problem.unordered → e.span.start ≤ d.span.start) ∧
      (∀ l ∈ ls, d.span.start ≤ l.1.start) ∧ d.span.start ≤ i.size) :
    ({ a with ahead := ls }.told d).Ordered i := by
  rw [Outlook.told]
  split
  · exact h.drop hls
  · exact h.add hls hd

/-- The token in front has its place in the order, also once it has been consumed. -/
theorem first (hi : i.Sound) {l : Token × Nat} {ls : List (Token × Nat)} (h : a.Ordered i) (ha : a.Faces i)
    (hl : a.ahead = l :: ls) :
    (∀ e ∈ a.diagnostics, e.problem ∉ Problem.unordered → e.span.start ≤ l.1.start) ∧
      (∀ m ∈ ls, l.1.start ≤ m.1.start) ∧ l.1.start ≤ i.size := by
  have hordered := ha.pairwise_start hi
  rw [hl, List.pairwise_cons] at hordered
  have hmem := (ha.mem (l := l) (by simp [hl])).1
  exact ⟨fun e he hproblem => h.ahead e he hproblem l (by simp [hl]), fun m hm => (hordered.1 m hm).le,
    (hi.start_lt_stop hmem).le.trans (hi.within _ hmem)⟩

/-- So has what is next, which may be the end. -/
theorem next (hi : i.Sound) (h : a.Ordered i) (ha : a.Ready i) :
    (∀ e ∈ a.diagnostics, e.problem ∉ Problem.unordered → e.span.start ≤ (a.span i.size).start) ∧
      (∀ l ∈ a.ahead, (a.span i.size).start ≤ l.1.start) ∧ (a.span i.size).start ≤ i.size := by
  rw [ha.start_span]
  cases hl : a.ahead with
  | nil => exact ⟨h.size, by simp, Nat.le_refl _⟩
  | cons l ls =>
    obtain ⟨hbefore, hbehind, hsize⟩ := h.first hi ha.faces hl
    exact ⟨hbefore, List.forall_mem_cons.2 ⟨Nat.le_refl _, hbehind⟩, hsize⟩

/-- **Each step keeps the order.** -/
theorem step (hi : i.Sound) (h : a.Ordered i) (hstep : Step i a b) : b.Ordered i := by
  cases hstep with
  | next ha hd => exact h.told (fun _ => id) fun _ => hd ▸ h.next hi ha
  | behind ha hd hproblem => exact h.told (fun _ => id) fun hnot => absurd (List.mem_cons_of_mem _ hproblem) hnot
  | skip ha hl => exact h.told (fun m hm => hl ▸ List.mem_cons_of_mem _ hm) fun _ => h.first hi ha hl
  | consume ha hl =>
    rw [unquoted]
    split
    · exact h.told (fun m hm => hl ▸ List.mem_cons_of_mem _ hm) fun _ => h.first hi ha.faces hl
    · exact h.drop fun m hm => hl ▸ List.mem_cons_of_mem _ hm
  | bail limit ha =>
    rw [Outlook.bail]
    split
    · exact h
    · obtain ⟨hbefore, -, hsize⟩ := h.next hi ha
      exact h.add (by simp) fun _ => ⟨hbefore, by simp, hsize⟩

/-- **So does each run.** -/
theorem steps (hi : i.Sound) (h : a.Ordered i) (hrun : Steps i a b) : b.Ordered i := by
  induction hrun with
  | refl => exact h
  | tail _ hstep ih => exact ih.step hi hstep

end Ordered

theorem Begins.ordered (h : a.Begins i) : a.Ordered i := by
  have hnone {d : Diagnostic} (hd : d ∈ a.diagnostics) : d.problem ∈ Problem.unordered := by
    rw [h.problem d hd]
    exact List.mem_cons_self
  have hfilter : a.diagnostics.filter (·.problem ∉ Problem.unordered) = [] :=
    List.filter_eq_nil_iff.2 fun d hd => by simpa using hnone hd
  exact ⟨hfilter ▸ .nil, fun d hd hnot => absurd (hnone hd) hnot, fun d hd hnot => absurd (hnone hd) hnot⟩

/-- Unfinished comments are not reported later. -/
theorem Steps.adds (h : Steps i a b) : a.Adds (·.problem ≠ .unfinishedComment) b := by
  induction h with
  | refl => exact .refl _
  | tail _ hstep ih =>
    refine ih.trans ?_
    rcases hstep.reports with hsame | ⟨d, hmore, hproblem, -⟩
    · exact ⟨[], by simp [hsame], nofun⟩
    · exact ⟨[d], hmore, List.forall_mem_singleton.2 hproblem⟩

end Outlook

/-! ## Parses -/

/-- **That a run is made of such steps is kept by every word.** -/
def Parser.Trait.emission (i : Input) : Trait i where
  Holds a₀ a _ := Outlook.Steps i a₀ a
  Spans _ := True
  now _ := .refl
  trans := .trans
  blank := .rfl
  wrapping := id
  close h _ _ _ := h
  span _ := trivial
  spanOf _ _ _ _ := trivial
  told {a₀ a F d} h ha _ hrecalls hproblem := by
    by_cases hretrospective : d.problem ∈ Problem.retrospective
    · exact h.tail (.behind ha (hrecalls.behind hretrospective) hretrospective)
    · refine h.tail (.next ha (hrecalls.next hretrospective) fun hmem => ?_)
      rcases List.mem_cons.1 hmem with hcomment | hmem
      · exact hproblem (hcomment ▸ by decide)
      · exact hretrospective hmem
  settle _ ha := Outlook.steps_settle ha
  advance _ ha hl := Outlook.steps_advance ha hl
  bail limit _ ha := .single (.bail limit ha)

/-- **In which order the diagnostics of a parse are reported.**  The parse is a run of steps from the outlook that has
only the unfinished comments to the end of the source.  All other diagnostics come later, and these are in the order of
their starts, but for two problems: what is reported as such begins with a significant token that has been read by
then, and ends with the token that was read last. -/
theorem emission_of_parse (source : String) (settings : Settings) : ∃ p a₀ a, parse source settings = .ok p ∧
    a₀.Begins (.ofSource source settings) ∧ Outlook.Steps (.ofSource source settings) a₀ a ∧
    a.ahead = [] ∧ p.diagnostics = a.diagnostics ∧
    (∃ ds, p.diagnostics = Token.unfinishedComments (lex source) ++ ds ∧ ∀ d ∈ ds, d.problem ≠ .unfinishedComment) ∧
    (p.diagnostics.filter (·.problem ∉ Problem.unordered)).Pairwise (fun d e => d.span.start ≤ e.span.start) ∧
    ∀ ds d es, p.diagnostics = ds ++ d :: es → d.problem ∈ Problem.retrospective →
      ∃ b, Outlook.Steps (.ofSource source settings) a₀ b ∧ b.diagnostics = ds ∧
        b.Behind (.ofSource source settings) d.span ∧ (b.told d).diagnostics = ds ++ [d] ∧
        Outlook.Steps (.ofSource source settings) (b.told d) a := by
  have hi : (Input.ofSource source settings).Sound := sound_ofTokens (tiles_lex source)
    fun _ => isToken_of_mem_lex
  obtain ⟨p, hp, -⟩ := parse_conforms source settings
  obtain ⟨a₀, a, F, ha₀, hrun, hF⟩ := (Trait.emission (.ofSource source settings)).parses (fun _ _ => .refl) hp
  have hordered := ha₀.ordered.steps hi hrun
  refine ⟨p, a₀, a, hp, ha₀, hrun, hF.ends, hF.diagnostics, ?_, hF.diagnostics ▸ hordered.pairwise, ?_⟩
  · obtain ⟨ds, hds, hproblem⟩ := hrun.adds
    exact ⟨ds, by rw [hF.diagnostics, hds, ha₀.comments]; rfl, hproblem⟩
  · intro ds d es hds hproblem
    refine hrun.behind (hF.diagnostics.symm.trans hds) (fun hmem => ?_) hproblem
    rw [ha₀.problem d hmem] at hproblem
    exact absurd hproblem (by decide)

/-- An expression is known to be bare only behind the unknown character that follows it. -/
example : ((parse "x @ x" .standard).toOption.map fun p => p.diagnostics.map fun d => (d.problem, d.span.start)) =
    some [(.unexpectedCharacter, 2), (.bareExpression, 0), (.bareExpression, 4)] := by decide +kernel

end LuaTree
