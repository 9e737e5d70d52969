import LuaTree.Proofs.Abreast.Parse
import LuaTree.Proofs.Nesting.Row
import LuaTree.Proofs.Speculation

/-!
# Proofs/Moments — the states that a parse goes through

Behind the characters in front of a source the grammar takes over, which is written in a few words.  What these words
lead to, and giving up what was read since a node was opened, are the states of a parse (`Reached`).  It is not
asked in which order the grammar uses them, so there may be more such states than parses have; each parse
goes through such states only (`reached_of_whole`).  All of them are sound (`Reached.sound`).
-/

namespace LuaTree.Parser

variable {α β : Type} {i : Input} {s t u : State} {p : Parser α} {f : α → Parser β}

/-- **The words of the grammar.** -/
inductive Word : {α : Type} → Parser α → Prop
  | look (n : Nat) : Word (peekAt n)
  | report (d : Diagnostic) : Word (report d)
  | bump : Word bump
  | start : Word start
  | complete (o : Opening) (kind : Kind) : Word (complete o kind)
  | abandon (o : Opening) : Word (abandon o)
  | precede (c : Closed) : Word (precede c)
  | descend : Word descend
  | ascend : Word ascend

/-- **What the words lead to**, one after the other.  What was done since a node was opened may be given up. -/
inductive Leads (i : Input) : State → State → Prop
  | refl (s : State) : Leads i s s
  | word {s t t' : State} {α : Type} {p : Parser α} {a : α} (h : Leads i s t) (hp : Word p)
    (hrun : p i t = .ok (a, t')) : Leads i s t'
  | rollback {s t t' u u' : State} {o : Opening} (h : Leads i s t) (hstart : start i t = .ok (o, t'))
    (hsince : Leads i t' u) (hrun : rollback o i u = .ok ((), u')) : Leads i s u'

/-- What is done before the grammar takes over. -/
def prelude : Parser Opening := do
  reportUnfinishedComments (← read).tokens
  let o ← start
  wrapUnknown
  return o

/-- **A state that a parse goes through.** -/
def Reached (i : Input) (s : State) : Prop :=
  ∃ o s₀, prelude i (.initial i.tokens) = .ok (o, s₀) ∧ Leads i s₀ s

theorem Leads.trans (h : Leads i s t) (h' : Leads i t u) : Leads i s u := by
  induction h' with
  | refl => exact h
  | word _ hp hrun ih => exact .word (ih h) hp hrun
  | rollback _ hstart hsince hrun ih => exact .rollback (ih h) hstart hsince hrun

/-! ## Sound states -/

/-- Another state at the same place with the same reports. -/
theorem sound_of_same (hs : s.Sound i) (hrest : t.rest = s.rest) (hposition : t.position = s.position)
    (hmute : s.Mute t) : t.Sound i where
  input := hs.input
  rest := by rw [hrest, hposition, hs.rest]
  position_le := hposition ▸ hs.position_le
  reported h := by
    rw [hmute.lastReported, hmute.limitReached]
    exact hs.reported (by rwa [State.Clean, ← hmute.diagnostics])
  settled := by
    have hahead : t.ahead = s.ahead := by rw [State.ahead, hrest, hposition, State.ahead]
    rw [State.Settled, hahead]
    exact hs.settled

/-- What a word does to a sound state: it stays sound, and no report is taken back. -/
structure Advances (i : Input) (s t : State) : Prop where
  sound : t.Sound i
  diagnostics : s.diagnostics.toList <+: t.diagnostics.toList

theorem Advances.of_same (hs : s.Sound i) (hrest : t.rest = s.rest) (hposition : t.position = s.position)
    (hmute : s.Mute t) : Advances i s t :=
  ⟨sound_of_same hs hrest hposition hmute, hmute.diagnostics ▸ List.prefix_rfl⟩

theorem Advances.of_draws {F : List Draft} (h : Draws i s t F) (ht : t.Settled) : Advances i s t :=
  ⟨{ h.coherent with settled := ht }, h.diagnostics⟩

/-- A computation that does no more than change events. -/
def Records (p : Parser α) : Prop := ∀ i s, Yields p i s fun _ t => ∃ events, t = { s with events }

namespace Records

theorem bind (hp : Records p) (hf : ∀ a, Records (f a)) : Records (p >>= f) := fun i s => by
  refine (hp i s).bind ?_
  rintro a _ ⟨events, rfl⟩
  exact hf a i _

theorem pure (a : α) : Records (Pure.pure a : Parser α) := fun _ _ => .pure ⟨_, rfl⟩

theorem record (e : Event) : Records (record e) := fun _ _ => .last (.modifying (.pure ⟨_, rfl⟩))

theorem start : Records start := fun _ _ => .get (.modifying (.pure ⟨_, rfl⟩))

theorem amend (event : Nat) (change : Kind → Option Nat → Event) : Records (amend event change) := by
  refine fun _ _ => .get ?_
  split
  · exact .last (.setting (.pure ⟨_, rfl⟩))
  · exact .exhausted

theorem recording : Recording fun _ p => Records p where
  pure := pure
  bind := bind
  record := record
  start := start
  amend := amend

theorem abandon (o : Opening) : Records (abandon o) := by
  refine fun _ _ => .last (.modifying (.pure ?_))
  split <;> exact ⟨_, rfl⟩

theorem advances (hp : Records p) (hs : s.Sound i) : Yields p i s fun _ t => Advances i s t :=
  (hp i s).mono fun _ _ ⟨_, ht⟩ => ht ▸ .of_same hs rfl rfl ⟨rfl, rfl, rfl⟩

end Records

theorem descend_advances (hs : s.Sound i) : Yields descend i s fun _ t => Advances i s t := by
  have henter : Yields (do
      modify fun s' => { s' with depth := s.depth + 1, looks := State.maxLooks }
      return true : Parser Bool) i s fun _ t => Advances i s t :=
    .modifying (.pure (.of_same hs rfl rfl ⟨rfl, rfl, rfl⟩))
  refine .get (.read ?_)
  split
  · split
    · exact (bailOut_outlook hs).bind fun _ t ⟨hg, _, ht⟩ => .pure (.of_draws hg ht)
    · exact henter
  · exact henter

/-- **Each word leads from sound states to sound states.** -/
theorem Word.advances (hp : Word p) (hs : s.Sound i) : Yields p i s fun _ t => Advances i s t := by
  cases hp with
  | look n =>
    refine (peekAt_yields n).mono ?_
    rintro _ _ ⟨rfl, -⟩
    exact .of_same hs rfl rfl ⟨rfl, rfl, rfl⟩
  | report d =>
    refine (Yields.of_ensures (report_outlook hs.toCoherent)).mono fun _ t ⟨hg, hstays, _⟩ => ?_
    exact .of_draws hg (hstays.settled hs.settled)
  | bump => exact (bump_outlook hs).mono fun _ t ⟨l, ls, _, hg, _, ht⟩ => .of_draws hg ht
  | start => exact Records.start.advances hs
  | complete o kind => exact (Records.recording.complete o kind).advances hs
  | abandon o => exact (Records.abandon o).advances hs
  | precede c => exact (Records.recording.precede c).advances hs
  | descend => exact descend_advances hs
  | ascend => exact .last (.modifying (.pure (.of_same hs rfl rfl ⟨rfl, rfl, rfl⟩)))

/-- **What is given up is given back**: the place and the reports are what they were. -/
theorem restore_same {o : Opening} {t' : State} (hstart : start i t = .ok (o, t'))
    (hsince : t'.diagnostics.toList <+: u.diagnostics.toList) :
    (u.restore o.snapshot).rest = t.rest ∧ (u.restore o.snapshot).position = t.position ∧
      t.Mute (u.restore o.snapshot) := by
  cases hstart
  exact ⟨rfl, rfl, take_of_prefix hsince, rfl, rfl⟩

theorem Leads.advances (h : Leads i s t) (hs : s.Sound i) : Advances i s t := by
  induction h with
  | refl => exact ⟨hs, List.prefix_rfl⟩
  | word _ hp hrun ih =>
    have hbefore := ih hs
    have hword := hp.advances hbefore.sound _ _ hrun
    exact ⟨hword.sound, hbefore.diagnostics.trans hword.diagnostics⟩
  | rollback _ hstart _ hrun ih ihsince =>
    have hbefore := ih hs
    have hsince := ihsince (Word.start.advances hbefore.sound _ _ hstart).sound
    cases hrun
    obtain ⟨hrest, hposition, hmute⟩ := restore_same hstart hsince.diagnostics
    have hback := Advances.of_same hbefore.sound hrest hposition hmute
    exact ⟨hback.sound, hbefore.diagnostics.trans hback.diagnostics⟩

/-- What is done before the grammar takes over leaves it in front of a significant token. -/
theorem prelude_sound (hi : i.Sound) : Yields prelude i (.initial i.tokens) fun _ s => s.Sound i := by
  refine .read ((reportUnfinishedComments_eq i.tokens _).bind ?_)
  rintro _ _ rfl
  refine Yields.bind (Records.start i _) ?_
  rintro o _ ⟨events, rfl⟩
  have hcoherent : State.Coherent i { State.initial i.tokens with
      events, diagnostics := #[] ++ (Token.unfinishedComments i.tokens).toArray } :=
    { coherent_initial hi with reported := fun _ => ⟨rfl, rfl⟩ }
  refine (Yields.of_ensures (wrapUnknown_outlook hcoherent)).bind fun _ s ⟨hg, _, hs⟩ => .pure ?_
  exact { hg.coherent with settled := hs }

/-- **All states of a parse are sound.** -/
theorem Reached.sound (hi : i.Sound) (h : Reached i s) : s.Sound i := by
  obtain ⟨o, s₀, hbegin, hleads⟩ := h
  exact (hleads.advances (prelude_sound hi o s₀ hbegin)).sound

/-! ## The states of a parse -/

/-- A computation that is made of words. -/
def Traverses (p : Parser α) : Prop := ∀ i s, s.Sound i → Yields p i s fun _ t => Leads i s t

namespace Traverses

theorem of_word (hp : Word p) : Traverses p := fun _ s _ _ _ hrun => .word (.refl s) hp hrun

theorem of_same (h : ∀ i s, Yields p i s fun _ t => t = s) : Traverses p := fun i s _ => by
  refine (h i s).mono ?_
  rintro _ _ rfl
  exact .refl _

theorem pure (a : α) : Traverses (Pure.pure a : Parser α) := of_same fun _ _ => .pure rfl

theorem bind (hp : Traverses p) (hf : ∀ a, Traverses (f a)) : Traverses (p >>= f) := fun i s hs =>
  (hp i s hs).bind fun a t ht => (hf a i t (ht.advances hs).sound).mono fun _ _ => ht.trans

theorem wrapUnknown : Traverses wrapUnknown := fun _ _ hs => by
  refine (Yields.of_ensures (wrapUnknown_settled hs)).mono ?_
  rintro _ _ rfl
  exact .refl _

theorem nested {p : Parser (Option Closed)} (hp : Traverses p) : Traverses (nested p) := by
  rw [nested_eq]
  refine (of_word .descend).bind fun entered => ?_
  split
  · exact hp.bind fun _ => (of_word .ascend).bind fun _ => pure _
  · exact pure _

theorem composes : Composes fun _ p => Traverses p := ⟨pure, bind⟩

/-- A name may be given back. -/
theorem tryName : Traverses tryName := by
  intro i s hs
  refine Yields.bind (p := start) (Q := fun o t => start i s = .ok (o, t)) (fun _ _ h => h) fun o t hstart => ?_
  have ht : Leads i s t := .word (.refl s) .start hstart
  refine (of_word (.look 0) i t (ht.advances hs).sound).bind fun k t₁ h₁ => ?_
  split
  · refine (of_word .bump i t₁ (h₁.advances (ht.advances hs).sound).sound).bind fun _ t₂ h₂ => ?_
    have hsince := h₁.trans h₂
    have heat := composes.eat (of_word (.look 0)) (of_word .bump) .equals
    refine (heat i t₂ (hsince.advances (ht.advances hs).sound).sound).bind fun b t₃ h₃ => ?_
    split
    · exact .pure (ht.trans (hsince.trans h₃))
    · refine Yields.bind (p := Parser.rollback o) (fun _ u hrun => ?_) fun _ u hu => .pure hu
      exact .rollback (.refl s) hstart (hsince.trans h₃) hrun
  · exact .pure (ht.trans h₁)

theorem compositional : Compositional fun _ p => Traverses p where
  pure := pure
  bind := bind
  fault _ := fun _ _ _ => .exhausted
  bound hf i s hs := .read (hf _ i s hs)
  peekAt n := of_word (.look n)
  currentSpan := of_same fun _ _ => .get (.read (.pure rfl))
  spanSince old := of_same fun _ _ => spanSince_yields old
  report d _ := of_word (.report d)
  start := of_word .start
  complete o kind := of_word (.complete o kind)
  abandon o := of_word (.abandon o)
  precede c := of_word (.precede c)
  wrapUnknown := wrapUnknown
  bump := of_word .bump
  nested := nested
  tryName := tryName

theorem chainStatement {enter enter' : Enter} (he : Congruence.Enters (fun _ _ p _ => Traverses p) enter enter') :
    Traverses (Production.chainStatement enter) :=
  compositional.chainStatement (fun hf i s hs => .read (hf _ i s hs)) he

/-- What a whole source is read with, once the grammar has taken over. -/
theorem chunk {n : Nat} (o : Opening) : Traverses (do
    Production.block (Production.enter n)
    if !(← isAtEnd) then Production.garbage (Production.enter n)
    Production.finish o .chunk) := by
  have hwords := compositional.congruence
  have he := Compositional.enters (compositional.entered chainStatement n)
  have hfinish : Traverses (Production.finish o .chunk) := hwords.finish (Answer.refl o) _
  refine (hwords.block he).bind fun _ => hwords.isAtEnd.bind fun b => ?_
  split
  · exact (hwords.garbage chainStatement he).bind fun _ => hfinish
  · exact hfinish

end Traverses

/-- **A parse goes through such states only**, and ends in one. -/
theorem reached_of_whole (hi : i.Sound) : Yields whole i (.initial i.tokens) fun _ s => Reached i s := by
  refine .read (Yields.bind (Q := fun _ s₁ => reportUnfinishedComments i.tokens i (.initial i.tokens) = .ok ((), s₁))
    (fun _ _ h => h) fun _ s₁ h₁ => .read ?_)
  refine Yields.bind (p := start) (Q := fun o s₂ => start i s₁ = .ok (o, s₂)) (fun _ _ h => h) fun o s₂ h₂ => ?_
  refine Yields.bind (p := wrapUnknown) (Q := fun _ s₃ => wrapUnknown i s₂ = .ok ((), s₃)) (fun _ _ h => h)
    fun _ s₃ h₃ => ?_
  have hprelude : prelude i (.initial i.tokens) = .ok (o, s₃) := by
    refine (run_of_ok (p := MonadReader.read) rfl).trans ?_
    exact (run_of_ok h₁).trans ((run_of_ok h₂).trans (run_of_ok h₃))
  refine (Traverses.chunk o i s₃ (prelude_sound hi o s₃ hprelude)).mono fun _ s hleads => ?_
  exact ⟨o, s₃, hprelude, hleads⟩

end LuaTree.Parser
