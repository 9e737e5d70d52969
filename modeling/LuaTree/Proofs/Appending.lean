import LuaTree.Proofs.Policy

/-!
# Proofs/Appending — a run on a longer source

As long as a semicolon lies ahead, with known tokens in front of it, no word sees what comes behind it.  So
up to the last semicolon of a source a run in which nothing is reported is the same on every longer source
(`Appends`): it consumes the same tokens, records the same events and answers the same.  Whether the
semicolon still lies ahead is read off the end of a run, as what lies ahead only dwindles.
-/

namespace LuaTree

open LuaTree.Parser Nesting

namespace State

/-- The state with more tokens behind those that are left, where `ds` have been reported. -/
def onto (s : State) (behind : List Token) (ds : Array Diagnostic) : State :=
  { s with rest := s.rest ++ behind, diagnostics := ds }

/-- All tokens that are left are known. -/
def Known (s : State) : Prop := ∀ t ∈ s.rest, t.kind ≠ .invalidChar

/-- Nothing has been reported, and a semicolon is the last token that is left. -/
structure Pending (s : State) : Prop where
  clean : s.Clean
  semicolon : ∃ t ∈ s.rest.getLast?, t.kind = .semicolon

/-- What a run does not take back. -/
structure Later (s s' : State) : Prop where
  diagnostics : s.diagnostics.toList <+: s'.diagnostics.toList
  unclaimed : Unclaimed s → Unclaimed s'
  rest : s'.rest <:+ s.rest

variable {s s' : State} {behind : List Token} {ds : Array Diagnostic}

theorem Later.known (h : s.Later s') (hs : s.Known) : s'.Known := fun t ht => hs t (h.rest.subset ht)

theorem Later.pending (h : s.Later s') (hs' : s'.Pending) : s.Pending := by
  obtain ⟨t, hlast, ht⟩ := hs'.semicolon
  obtain ⟨us, hus⟩ := h.rest
  refine ⟨State.clean_of_prefix h.diagnostics hs'.clean, t, ?_, ht⟩
  rw [← hus, List.getLast?_append, show s'.rest.getLast? = some t from hlast]
  rfl

theorem significant_onto (s : State) (behind : List Token) (ds : Array Diagnostic) :
    (s.onto behind ds).significant = s.significant ++ behind.filter Token.isSignificant :=
  List.filter_append ..

namespace Pending

/-- The semicolon is significant. -/
theorem significant (h : s.Pending) : ∃ ts t, s.significant = ts ++ [t] ∧ t.kind = .semicolon := by
  obtain ⟨t, hlast, ht⟩ := h.semicolon
  obtain ⟨ts, hts⟩ := List.getLast?_eq_some_iff.1 hlast
  refine ⟨ts.filter Token.isSignificant, t, ?_, ht⟩
  rw [State.significant, hts, List.filter_append, List.filter_cons_of_pos (by rw [Token.isSignificant, ht]; rfl)]
  rfl

theorem next_onto (h : s.Pending) : (s.onto behind ds).next = s.next := by
  obtain ⟨ts, t, hts, -⟩ := h.significant
  rw [State.next, State.next, significant_onto, hts]
  cases ts <;> rfl

/-- What stands in front of a semicolon is not the last token. -/
theorem one_lt (h : s.Pending) (hnext : s.next ≠ .semicolon) : 1 < s.significant.length := by
  obtain ⟨ts, t, hts, ht⟩ := h.significant
  cases ts with
  | nil =>
    rw [State.next, hts] at hnext
    exact absurd ht hnext
  | cons u ts => simp [hts]

/-- The next token, and what stands before and behind it. -/
theorem exists_rest (h : s.Pending) : ∃ trivia t us, s.rest = trivia ++ t :: us ∧
    (∀ u ∈ trivia, u.isSignificant = false) ∧ t.isSignificant = true ∧ t.kind = s.next ∧
    (s.next ≠ .semicolon → ∃ u ∈ us.getLast?, u.kind = .semicolon) := by
  obtain ⟨ts, u, hts, -⟩ := h.significant
  obtain ⟨t, ts, hts⟩ := List.exists_cons_of_ne_nil (hts ▸ List.append_ne_nil_of_right_ne_nil ts
    (List.cons_ne_nil u []) : s.significant ≠ [])
  have hnext : s.next = t.kind := by rw [State.next, hts]; rfl
  obtain ⟨trivia, us, hrest, htrivia, ht, -⟩ := List.filter_eq_cons_iff.1 hts
  refine ⟨trivia, t, us, hrest, by simpa using htrivia, ht, hnext.symm, fun hne => ?_⟩
  obtain ⟨u, hlast, hu⟩ := h.semicolon
  rw [hrest, List.getLast?_append, List.getLast?_cons] at hlast
  cases hus : us.getLast? with
  | none =>
    rw [hus] at hlast
    obtain rfl : t = u := by simpa using hlast
    exact absurd (hnext.trans hu) hne
  | some v =>
    rw [hus] at hlast
    obtain rfl : v = u := by simpa using hlast
    exact ⟨v, rfl, hu⟩

end Pending

end State

namespace Parser

variable {α β σ : Type} {i j : Input} {s s' : State} {p q : Parser α} {f g : α → Parser β}

/-! ## What lies ahead dwindles -/

theorem Motionless.reportUnfinished (t : Token) : Motionless (reportUnfinished t) := by
  rw [Parser.reportUnfinished]
  split
  · split
    · exact .pure _
    · exact .report _
    · exact fun _ _ => .exhausted
  · exact .pure _

/-- A computation that gives nothing back. -/
def Dwindles (p : Parser α) : Prop := Keeps (fun s s' => s'.rest <:+ s.rest) p

namespace Dwindles

theorem of_motionless (hp : Motionless p) : Dwindles p := fun i s =>
  (hp i s).mono fun _ _ h => ⟨[], h⟩

theorem bind (hp : Dwindles p) (hf : ∀ a, Dwindles (f a)) : Dwindles (p >>= f) := fun i s =>
  (hp i s).bind fun a s' h => (hf a i s').mono fun _ _ h' => h'.trans h

theorem peekAt (n : Nat) : Dwindles (peekAt n) := fun _ _ =>
  (peekAt_yields n).mono fun _ _ h => h.1 ▸ List.suffix_rfl

theorem wrapUnknownFrom : ∀ (ts : List Token) (index : Nat) {s : State}, ts <:+ s.rest →
    Yields (wrapUnknownFrom index ts) i s fun _ s' => s'.rest <:+ s.rest
  | [], _, _, _ => .pure List.suffix_rfl
  | t :: ts, index, s, hts => by
    have htail := (List.suffix_cons t ts).trans hts
    rw [Parser.wrapUnknownFrom]
    split
    · exact wrapUnknownFrom ts _ htail
    split
    · refine (Motionless.start i s).bind fun o s₀ _ => Yields.bind (p := record _) (Q := fun _ _ => True)
        (fun _ _ _ => trivial) fun _ s₁ _ => .modifying ?_
      refine (Motionless.spanSince _ i _).bind fun _ s₂ h₂ => (Motionless.report _ i s₂).bind
        fun _ s₃ h₃ => (Motionless.recording.complete o .error i s₃).bind fun _ s₄ h₄ => ?_
      have hrest : s₄.rest = ts := h₄.trans (h₃.trans h₂)
      exact (wrapUnknownFrom ts _ (hrest ▸ List.suffix_rfl)).mono fun _ _ h => h.trans (hrest ▸ htail)
    · exact .pure List.suffix_rfl

theorem wrapUnknown : Dwindles wrapUnknown := fun _ s => .get (wrapUnknownFrom s.rest s.position List.suffix_rfl)

theorem bump : Dwindles bump := by
  refine wrapUnknown.bind fun _ i s => .get ?_
  split
  · exact .exhausted
  · rename_i t ts hts
    have hsuffix : ts <:+ s.rest := (List.suffix_cons t ts).trans (hts ▸ List.dropWhile_suffix _)
    refine .setting ((Motionless.reportUnfinished t i _).bind fun _ s' h => (wrapUnknown i s').mono fun _ _ h' => ?_)
    exact h'.trans (h ▸ hsuffix)

theorem composes : Composes fun _ p => Dwindles p := ⟨fun a => of_motionless (.pure a), bind⟩

/-- What is given back is not more than was taken. -/
theorem tryName : Dwindles tryName := by
  intro i s
  refine Yields.bind (p := start) (Q := fun o s' => o.snapshot.rest = s.rest ∧ s'.rest = s.rest)
    (.get (.modifying (.pure ⟨rfl, rfl⟩))) fun o s₁ ⟨ho, h₁⟩ => ?_
  refine (peekAt 0 i s₁).bind fun k s₂ h₂ => ?_
  have h₂ : s₂.rest <:+ s.rest := h₁ ▸ h₂
  split
  · have heat := composes.eat (peekAt 0) bump .equals
    refine (bump i s₂).bind fun _ s₃ h₃ => (heat i s₃).bind fun b s₄ h₄ => ?_
    split
    · exact .pure (h₄.trans (h₃.trans h₂))
    · exact .modifying (.pure ⟨[], ho⟩)
  · exact .pure h₂

theorem bailOut (limit : Nat) : Dwindles (bailOut limit) := by
  refine fun i s => .get ?_
  split
  · exact .pure List.suffix_rfl
  refine Yields.bind (Q := fun _ _ => True) (fun _ _ _ => trivial) fun span s₁ _ => .read ?_
  refine Yields.bind (Q := fun _ _ => True) (fun _ _ _ => trivial) fun x s₂ _ => ?_
  exact .last (.modifying (.pure List.nil_suffix))

theorem nested {p : Parser (Option Closed)} (hp : Dwindles p) : Dwindles (nested p) := fun i s =>
  nested_yields.mono fun a s' h => by
    rcases h with ⟨k, -, -, hbail, -⟩ | ⟨-, t, hrun, rfl⟩
    · exact bailOut k i s () s' hbail
    · exact hp i s.deeper a t hrun

theorem compositional : Compositional fun _ p => Dwindles p where
  pure a := of_motionless (.pure a)
  bind := bind
  fault e := fun _ _ => .exhausted
  bound hf i s := .read (hf _ i s)
  peekAt := peekAt
  currentSpan := of_motionless fun _ _ => .get (.read (.pure rfl))
  spanSince old := of_motionless (.spanSince old)
  report d _ := of_motionless (.report d)
  start := of_motionless .start
  complete o k := of_motionless (Motionless.recording.complete o k)
  abandon o := of_motionless fun _ _ => .last (.modifying (.pure (by split <;> rfl)))
  precede c := of_motionless (Motionless.recording.precede c)
  wrapUnknown := wrapUnknown
  bump := bump
  nested := nested
  tryName := tryName

end Dwindles

/-- A computation that takes back neither what it reports nor what it consumes. -/
def Retains (p : Parser α) : Prop :=
  Keeps (fun s s' => s.diagnostics.toList <+: s'.diagnostics.toList ∧ (Unclaimed s → Unclaimed s')) p ∧ Dwindles p

theorem Retains.later {a : α} (hp : Retains p) (hrun : p i s = .ok (a, s')) : s.Later s' :=
  ⟨(hp.1 i s a s' hrun).1, (hp.1 i s a s' hrun).2, hp.2 i s a s' hrun⟩

theorem retains : Compositional fun _ p => Retains p :=
  ((Logs.prefixed.and logs_unclaimed).compositional fun limit i s a s' hrun =>
    ⟨prefixed_bailOut limit i s a s' hrun, unclaimed_bailOut limit i s a s' hrun⟩).and Dwindles.compositional

/-! ## Runs on two sources -/

section

variable (i j : Input) (behind : List Token) (ds : Array Diagnostic)

/-- **A computation that does not see what comes behind the last semicolon**: where nothing is reported and
the semicolon is left, it is the same with more tokens behind. -/
structure Appends [Answer α] (p q : Parser α) : Prop where
  retains : Retains p
  same : ∀ s, Unclaimed s → s.Known → s.Pending → Both i j p q s (s.onto behind ds) fun a s' b t' =>
    s'.Pending → Alike a b ∧ t' = s'.onto behind ds

end

namespace Appends

variable {behind : List Token} {ds : Array Diagnostic} [Answer α] [Answer β]

theorem bind (hp : Appends i j behind ds p q)
    (hf : ∀ a b, Alike a b → Appends i j behind ds (f a) (g b)) : Appends i j behind ds (p >>= f) (q >>= g) where
  retains := Parser.retains.bind hp.retains fun a => (hf a a (Answer.refl a)).retains
  same s hs hknown hpending b s' b' t' hrun hrun' hs' := by
    obtain ⟨a, s₁, hp₁, hf₁⟩ := run_bind hrun
    obtain ⟨a', t₁, hq₁, hg₁⟩ := run_bind hrun'
    have hlater := hp.retains.later hp₁
    have hs₁ := ((hf a a (Answer.refl a)).retains.later hf₁).pending hs'
    obtain ⟨ha, rfl⟩ := hp.same s hs hknown hpending a s₁ a' t₁ hp₁ hq₁ hs₁
    exact (hf a a' ha).same s₁ (hlater.unclaimed hs) (hlater.known hknown) hs₁ b s' b' t' hf₁ hg₁ hs'

theorem pure {a b : α} (h : Alike a b) : Appends i j behind ds (Pure.pure a) (Pure.pure b) :=
  ⟨Parser.retains.pure a, fun _ _ _ _ => .pure fun _ => ⟨h, rfl⟩⟩

theorem fault (e : Fault) (q : Parser α) : Appends i j behind ds (throw e) q :=
  ⟨Parser.retains.fault e, nofun⟩

theorem rounds [Answer σ] {f g : σ → Parser (Round σ α)}
    (h : ∀ x y, Alike x y → Appends i j behind ds (f x) (g y)) : ∀ (n m : Nat) {x y : σ}, Alike x y →
      Appends i j behind ds (Parser.rounds f n x) (Parser.rounds g m y)
  | 0, _, _, _, _ => fault _ _
  | n + 1, 0, x, _, _ => ⟨Parser.retains.rounds (fun x => (h x x (Answer.refl x)).retains) (n + 1) x, nofun⟩
  | n + 1, m + 1, _, _, hxy => (h _ _ hxy).bind fun r r' hr =>
    match r, r', hr with
    | _, _, .again h' => rounds h n m h'
    | _, _, .done h' => pure h'

theorem loop [Answer σ] {f g : σ → Parser (Round σ α)} {x y : σ}
    (h : ∀ x y, Alike x y → Appends i j behind ds (f x) (g y)) (hxy : Alike x y) :
    Appends i j behind ds (Parser.loop x f) (Parser.loop y g) where
  retains := Parser.retains.bound fun n => Parser.retains.rounds (fun x => (h x x (Answer.refl x)).retains) n x
  same s hs hknown hpending := .read ((rounds h i.bound j.bound hxy).same s hs hknown hpending)

/-! ### Looking -/

theorem peekAt_same {n : Nat} (hn : n < s.significant.length) :
    Both i j (peekAt n) (peekAt n) s (s.onto behind ds) fun k s' k' t' => k = k' ∧ t' = s'.onto behind ds := by
  refine (Both.of_yields (peekAt_yields n) (peekAt_yields n)).mono ?_
  rintro _ _ _ _ ⟨⟨rfl, rfl⟩, rfl, rfl⟩
  rw [State.significant_onto, List.getElem?_append_left hn]
  exact ⟨rfl, rfl⟩

theorem peek : Appends i j behind ds peek peek :=
  ⟨Parser.retains.peekAt 0, fun s _ _ hs => (peekAt_same (by
    obtain ⟨ts, t, hts, -⟩ := hs.significant
    simp [hts])).mono fun _ _ _ _ h _ => h⟩

theorem isAt (k : Kind) : Appends i j behind ds (isAt k) (isAt k) := by
  refine peek.bind ?_
  rintro k _ rfl
  exact pure rfl

/-- Behind a name there is still the semicolon. -/
theorem peekBehindName : Appends i j behind ds peekBehindName peekBehindName where
  retains := Parser.retains.congruence.peekBehindName
  same s _ _ hs := by
    refine (Both.of_yields (isAt_yields .ident) (isAt_yields .ident)).bind ?_
    rintro _ _ _ _ ⟨⟨rfl, rfl⟩, rfl, rfl⟩
    rw [hs.next_onto]
    by_cases hnext : s.next = .ident
    · rw [if_pos (beq_iff_eq.2 hnext)]
      refine (peekAt_same (s := s.look) (hs.one_lt (by simp [hnext]))).bind ?_
      rintro k s' _ _ ⟨rfl, rfl⟩
      exact .pure fun _ => ⟨rfl, rfl⟩
    · rw [if_neg (mt beq_iff_eq.1 hnext)]
      exact .pure fun _ => ⟨rfl, rfl⟩

theorem currentSpan : Appends i j behind ds currentSpan currentSpan where
  retains := Parser.retains.currentSpan
  same s _ _ hs := by
    obtain ⟨trivia, t, us, hrest, htrivia, ht, -⟩ := hs.exists_rest
    have hfind (vs : List Token) : (s.rest ++ vs).find? Token.isSignificant = some t := by
      rw [hrest, List.append_assoc, List.find?_append, List.find?_eq_none.2 (by simpa using htrivia)]
      simp [ht]
    have hspan (i : Input) {s : State} (hfind : s.rest.find? Token.isSignificant = some t) :
        Yields Parser.currentSpan i s fun x s' => x = t.span ∧ s' = s :=
      .get (.read (by rw [hfind]; exact .pure ⟨rfl, rfl⟩))
    refine (Both.of_yields (hspan i (List.append_nil s.rest ▸ hfind [])) (hspan j (hfind behind))).mono ?_
    rintro _ _ _ _ ⟨⟨rfl, rfl⟩, rfl, rfl⟩ _
    exact ⟨rfl, rfl⟩

/-! ### Reporting -/

/-- A report puts an end to what is claimed. -/
theorem report (d : Diagnostic) (hd : d.problem ∉ [.recursionLimitExceeded, .unfinishedComment]) :
    Appends i j behind ds (report d) (report d) :=
  ⟨Parser.retains.report d hd, fun _ hs _ _ a s' _ _ hrun _ hs' =>
    absurd hs'.clean (report_dirty hs d a s' hrun)⟩

theorem reportSince (p : Problem) (old old' : Snapshot) (hp : p ∉ [.recursionLimitExceeded, .unfinishedComment]) :
    Appends i j behind ds (reportSince p old) (reportSince p old') where
  retains := Parser.retains.bind (Parser.retains.spanSince old) fun _ => Parser.retains.report _ hp
  same s hs _ _ a s' _ _ hrun _ hs' := by
    obtain ⟨x, s₁, hspan, hreport⟩ := run_bind hrun
    obtain rfl := spanSince_yields old x s₁ hspan
    exact absurd hs'.clean (report_dirty hs _ a s' hreport)

/-! ### Opening and closing -/

theorem start : Appends i j behind ds start start :=
  ⟨Parser.retains.start, fun s _ _ _ o s' o' t' hrun hrun' _ => by
    cases hrun
    cases hrun'
    exact ⟨rfl, rfl⟩⟩

theorem amend_same (event : Nat) (change : Kind → Option Nat → Event) : Both i j (amend event change)
    (amend event change) s (s.onto behind ds) fun _ s' _ t' => t' = s'.onto behind ds := by
  have hamend (i : Input) (s : State) : Yields (amend event change) i s fun _ s' => ∃ k w,
      s.events[event]? = some (.opening k w) ∧ s' = { s with events := s.events.setIfInBounds event (change k w) } := by
    refine .get ?_
    split
    · rename_i k w h
      exact .last (.setting (.pure ⟨k, w, h, rfl⟩))
    · exact .exhausted
  refine (Both.of_yields (hamend i s) (hamend j _)).mono ?_
  rintro _ _ _ _ ⟨⟨k, w, h, rfl⟩, k', w', h', rfl⟩
  obtain ⟨rfl, rfl⟩ : k = k' ∧ w = w' := by simpa [h] using (show s.events[event]? = _ from h')
  rfl

theorem complete {o o' : Opening} (kind : Kind) (ho : Alike o o') :
    Appends i j behind ds (complete o kind) (complete o' kind) where
  retains := Parser.retains.complete o kind
  same s _ _ _ := by
    rw [Parser.complete, Parser.complete, ← show o.event = o'.event from ho]
    refine (amend_same _ _).bind ?_
    rintro _ s₁ _ _ rfl _ _ _ _ hrun hrun' _
    cases hrun
    cases hrun'
    exact ⟨⟨rfl, rfl⟩, rfl⟩

theorem abandon {o o' : Opening} (ho : Alike o o') : Appends i j behind ds (abandon o) (abandon o') where
  retains := Parser.retains.abandon o
  same s _ _ _ _ _ _ _ hrun hrun' _ := by
    cases hrun
    cases hrun'
    rw [← show o.event = o'.event from ho]
    refine ⟨rfl, ?_⟩
    change (if s.events.size = o.event + 1 then _ else _) = State.onto (if _ then _ else _) _ _
    split <;> rfl

theorem precede {c c' : Closed} (hc : Alike c c') : Appends i j behind ds (precede c) (precede c') where
  retains := Parser.retains.precede c
  same s _ _ _ := by
    rw [Parser.precede, Parser.precede, ← hc.1]
    refine Both.bind (Q := fun o s' o' t' => o.event = o'.event ∧ t' = s'.onto behind ds)
      (fun _ _ _ _ hrun hrun' => ?_) ?_
    · cases hrun
      cases hrun'
      exact ⟨rfl, rfl⟩
    rintro o s₁ o' _ ⟨ho, rfl⟩
    rw [← ho]
    refine (amend_same _ _).bind ?_
    rintro _ s₂ _ _ rfl
    exact .pure fun _ => ⟨rfl, rfl⟩

/-! ### Consuming -/

theorem wrapUnknownFrom_known (ts us : List Token) (index : Nat) (hknown : ∀ t ∈ ts, t.kind ≠ .invalidChar)
    (h : us = [] ∨ ∃ t ∈ ts, t.kind.isTrivia = false) : wrapUnknownFrom index (ts ++ us) = Pure.pure () := by
  induction ts generalizing index with
  | nil =>
    obtain rfl : us = [] := h.resolve_right (by simp)
    rfl
  | cons t ts ih =>
    rw [List.forall_mem_cons] at hknown
    rw [List.cons_append, wrapUnknownFrom]
    by_cases ht : t.kind.isTrivia = true
    · rw [if_pos ht]
      refine ih _ hknown.2 ?_
      simpa [ht] using h
    · rw [if_neg ht, if_neg hknown.1]

/-- No unknown character stands in front. -/
theorem wrapUnknown_known (hknown : s.Known) : Parser.wrapUnknown i s = .ok ((), s) := by
  change wrapUnknownFrom s.position s.rest i s = _
  rw [← List.append_nil s.rest, wrapUnknownFrom_known _ _ _ hknown (.inl rfl)]
  rfl

/-- Nor does one with more tokens behind. -/
theorem wrapUnknown_onto (hknown : s.Known) (hs : s.Pending) (behind : List Token) (ds : Array Diagnostic) :
    Parser.wrapUnknown j (s.onto behind ds) = .ok ((), s.onto behind ds) := by
  obtain ⟨trivia, t, us, hrest, -, ht, -⟩ := hs.exists_rest
  have hsolid : t.kind.isTrivia = false := by
    simp only [Token.isSignificant, Kind.isSignificant, Bool.and_eq_true, Bool.not_eq_true'] at ht
    exact ht.1
  change wrapUnknownFrom s.position (s.rest ++ behind) j _ = _
  rw [wrapUnknownFrom_known _ _ _ hknown (.inr ⟨t, by simp [hrest], hsolid⟩)]
  rfl

theorem wrapUnknown : Appends i j behind ds wrapUnknown wrapUnknown where
  retains := Parser.retains.wrapUnknown
  same s _ hknown hs _ _ _ _ hrun hrun' _ := by
    cases (wrapUnknown_known hknown).symm.trans hrun
    cases (wrapUnknown_onto hknown hs behind ds).symm.trans hrun'
    exact ⟨rfl, rfl⟩

theorem reportUnfinished (t : Token) : Appends i j behind ds (reportUnfinished t) (reportUnfinished t) := by
  rw [Parser.reportUnfinished]
  split
  · split
    · exact pure rfl
    · exact report _ (by simp)
    · exact fault _ _
  · exact pure rfl

/-- Where no unknown character stands in front, the next token is consumed first. -/
theorem bump_eq {t : Token} {trivia us : List Token} (hwrap : Parser.wrapUnknown i s = .ok ((), s))
    (hrest : s.rest = trivia ++ t :: us) (htrivia : ∀ u ∈ trivia, u.isSignificant = false)
    (ht : t.isSignificant = true) : Parser.bump i s = (do
      Parser.reportUnfinished t
      Parser.wrapUnknown) i (s.consume (s.position + trivia.length) us).refresh := by
  have hdrop : s.rest.dropWhile (fun u => !u.isSignificant) = t :: us := by
    rw [hrest, List.dropWhile_append_of_pos (by simpa using htrivia), List.dropWhile_cons_of_neg (by simp [ht])]
  have htake : s.rest.takeWhile (fun u => !u.isSignificant) = trivia := by
    rw [hrest, List.takeWhile_append_of_pos (by simpa using htrivia), List.takeWhile_cons_of_neg (by simp [ht]),
      List.append_nil]
  have hget (f : State → Parser Unit) : (Parser.wrapUnknown >>= fun _ => get >>= f) i s = f s i s := by
    change (Parser.wrapUnknown i s >>= fun r => _) = _
    rw [hwrap]
    rfl
  rw [Parser.bump, hget, hdrop, htake]
  rfl

theorem bump : Appends i j behind ds bump bump where
  retains := Parser.retains.bump
  same s hs hknown hpending a s' b t' hrun hrun' hs' := by
    obtain ⟨trivia, t, us, hrest, htrivia, ht, -⟩ := hpending.exists_rest
    have hrest' : (s.onto behind ds).rest = trivia ++ t :: (us ++ behind) := by simp [State.onto, hrest]
    rw [bump_eq (wrapUnknown_known hknown) hrest htrivia ht] at hrun
    rw [bump_eq (wrapUnknown_onto hknown hpending behind ds) hrest' htrivia ht] at hrun'
    let s₁ := (s.consume (s.position + trivia.length) us).refresh
    have hfinish : Appends i j behind ds (do Parser.reportUnfinished t; Parser.wrapUnknown)
        (do Parser.reportUnfinished t; Parser.wrapUnknown) := (reportUnfinished t).bind fun _ _ _ => wrapUnknown
    have hknown₁ : s₁.Known := fun u hu => hknown u (by simp [hrest, show u ∈ us from hu])
    exact hfinish.same s₁ hs hknown₁ ((hfinish.retains.later hrun).pending hs') a s' b t' hrun hrun' hs'

/-- What is neither a string nor a semicolon is consumed without ado. -/
theorem bump_pending (hknown : s.Known) (hs : s.Pending) (hnext : s.next ∉ KindSet.strings)
    (hne : s.next ≠ .semicolon) : Yields Parser.bump i s fun _ s' => s'.Pending := by
  obtain ⟨trivia, t, us, hrest, htrivia, ht, hkind, hlast⟩ := hs.exists_rest
  have hs₁ : (s.consume (s.position + trivia.length) us).refresh.Pending := ⟨hs.clean, hlast hne⟩
  have hknown₁ : (s.consume (s.position + trivia.length) us).refresh.Known := fun u hu =>
    hknown u (by simp [hrest, show u ∈ us from hu])
  intro a s' hrun
  rw [bump_eq (wrapUnknown_known hknown) hrest htrivia ht,
    Parser.reportUnfinished, if_neg (hkind ▸ hnext)] at hrun
  cases (wrapUnknown_known hknown₁).symm.trans hrun
  exact hs₁

theorem eat (k : Kind) : Appends i j behind ds (eat k) (eat k) := by
  refine (isAt k).bind ?_
  rintro b _ rfl
  split
  · exact bump.bind fun _ _ _ => pure rfl
  · exact pure rfl

/-- Neither a name nor a `=` is the last token, and what is given back is the same as before. -/
theorem tryName : Appends i j behind ds tryName tryName where
  retains := Parser.retains.tryName
  same s hs hknown hpending := by
    refine Both.bind (Q := fun o s₁ o' t₁ => o = ⟨s.events.size, s.snapshot⟩ ∧
      o' = ⟨s.events.size, (s.onto behind ds).snapshot⟩ ∧ s₁ = { s with events := s.events.push .blank } ∧
      t₁ = s₁.onto behind ds) (fun _ _ _ _ hrun hrun' => ?_) ?_
    · cases hrun
      cases hrun'
      exact ⟨rfl, rfl, rfl, rfl⟩
    rintro _ s₁ _ _ ⟨rfl, rfl, hs₁, rfl⟩
    have hpending₁ : s₁.Pending := by rw [hs₁]; exact { hpending with }
    have hunclaimed₁ : Unclaimed s₁ := by rw [hs₁]; exact hs
    have hknown₁ : s₁.Known := by rw [hs₁]; exact hknown
    refine (Both.of_yields peek_yields peek_yields).bind ?_
    rintro _ _ _ _ ⟨⟨rfl, rfl⟩, rfl, rfl⟩
    rw [hpending₁.next_onto]
    by_cases hname : s₁.next = .ident
    case neg =>
      rw [if_neg hname, if_neg hname]
      exact .pure fun _ => ⟨⟨rfl, rfl⟩, rfl⟩
    rw [if_pos hname, if_pos hname]
    -- the name is consumed, and the semicolon is left
    refine Both.bind (Q := fun _ s₃ _ t₃ => s₃.Pending ∧ s₁.look.Later s₃ ∧ t₃ = s₃.onto behind ds)
      (fun _ s₃ _ t₃ hrun hrun' => ?_) ?_
    · have hpending₃ := bump_pending (s := s₁.look) hknown₁ { hpending₁ with } (by
        rw [State.next_look, hname]
        decide) (by simp [hname]) _ s₃ hrun
      exact ⟨hpending₃, Parser.retains.bump.later hrun,
        (bump.same s₁.look hunclaimed₁ hknown₁ { hpending₁ with } _ s₃ _ t₃ hrun hrun' hpending₃).2⟩
    rintro _ s₃ _ _ ⟨hpending₃, hlater, rfl⟩
    refine .assoc ((Both.of_yields (isAt_yields .equals) (isAt_yields .equals)).bind ?_)
    rintro _ _ _ _ ⟨⟨rfl, rfl⟩, rfl, rfl⟩
    rw [hpending₃.next_onto]
    by_cases hequals : s₃.next = .equals
    · rw [if_pos (beq_iff_eq.2 hequals)]
      refine .assoc ((bump.bind fun _ _ _ => pure ?_).same s₃.look (hlater.unclaimed hunclaimed₁)
        (hlater.known hknown₁) { hpending₃ with })
      exact ⟨rfl, rfl⟩
    · rw [if_neg (mt beq_iff_eq.1 hequals)]
      intro _ _ _ _ hrun hrun' _
      cases hrun
      cases hrun'
      refine ⟨⟨rfl, rfl⟩, ?_⟩
      simp [State.restore, State.onto, State.snapshot, State.look]

theorem nested (hsettings : i.settings = j.settings) {p q : Parser (Option Closed)} (hp : Appends i j behind ds p q) :
    Appends i j behind ds (nested p) (nested q) where
  retains := Parser.retains.nested hp.retains
  same s hs hknown hpending a s' b t' hrun hrun' hs' := by
    rcases nested_yields a s' hrun with ⟨k, -, -, hbail, -⟩ | ⟨hdepth, s₁, hp₁, rfl⟩
    · exact absurd hs'.clean (bailOut_dirty (fun h => (hs h).2) k () s' hbail)
    rcases nested_yields b t' hrun' with ⟨k, hk, hle, -⟩ | ⟨-, t₁, hq₁, rfl⟩
    · exact absurd (hdepth k (hsettings ▸ hk)) (Nat.not_lt.2 hle)
    obtain ⟨ha, rfl⟩ := hp.same s.deeper hs hknown { hpending with } a s₁ b t₁ hp₁ hq₁ { hs' with }
    exact ⟨ha, rfl⟩

/-- **No word sees what comes behind the last semicolon.** -/
theorem congruence (hsettings : i.settings = j.settings) :
    Congruence fun _ _ p q => Appends i j behind ds p q where
  pure := pure
  seq := bind
  fault := fault
  loop := loop
  peek := peek
  peekBehindName := peekBehindName
  currentSpan := currentSpan
  report := report
  reportSince := reportSince
  start := start
  complete := complete
  abandon := abandon
  precede := precede
  bump := bump
  nested := nested hsettings
  tryName := tryName

theorem bare (hsettings : i.settings = j.settings) {f g : BareExpressions → Parser Unit}
    (h : ∀ b, Appends i j behind ds (f b) (g b)) :
    Appends i j behind ds (do f (← read).settings.bare) (do g (← read).settings.bare) where
  retains := ⟨fun i s => .read ((h _).retains.1 i s), fun i s => .read ((h _).retains.2 i s)⟩
  same s hs hknown hpending := .read (by
    rw [← hsettings]
    exact (h i.settings.bare).same s hs hknown hpending)

theorem chainStatement (hsettings : i.settings = j.settings) {enter enter' : Enter}
    (he : Congruence.Enters (fun _ _ p q => Appends i j behind ds p q) enter enter') :
    Appends i j behind ds (Production.chainStatement enter) (Production.chainStatement enter') :=
  (congruence hsettings).chainStatement he ((congruence hsettings).afterChain he (bare hsettings))

/-- **A round of a list of statements does not see what comes behind the last semicolon.** -/
theorem statementRound (hsettings : i.settings = j.settings) (n k : Nat) : Appends i j behind ds
    (Production.statementRound (Production.enter n)) (Production.statementRound (Production.enter (n + k))) :=
  (congruence hsettings).statementRound (chainStatement hsettings)
    ((congruence hsettings).entered (chainStatement hsettings) k n)

end Appends

end Parser

end LuaTree
