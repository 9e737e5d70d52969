import LuaTree.Proofs.Logging
import LuaTree.Proofs.Parse

/-!
# Proofs/Limit — the nesting limit changes nothing until it is reached

Two parses of one source under different limits go on alike until the lower limit is reached.  From
then on the one that reached it reports nothing more, and the other one takes nothing back, so what the
first one had reported by then is a prefix of what the second one reports (`limit_transparent`).
-/

namespace LuaTree

open LuaTree.Parser

/-- The input under another nesting limit. -/
def Input.limited (i : Input) (limit : Option Nat) : Input :=
  { i with settings := { i.settings with limit } }

/-- The nesting limit has not been reached. -/
structure State.Below (s : State) : Prop where
  reached : s.limitReached = false
  problems : ∀ d ∈ s.diagnostics.toList, d.problem ≠ .recursionLimitExceeded

/-- Where nothing was reported, the limit was not reached. -/
theorem State.Coherent.below {i : Input} {s : State} (h : s.Coherent i) (hclean : s.Clean) : s.Below :=
  ⟨(h.reported hclean).2, by simp [show s.diagnostics = #[] from hclean]⟩

/-- In the first state the nesting limit was reached, and what was reported before that was reported in
the second one as well. -/
structure State.Cut (s t : State) : Prop where
  reached : s.limitReached = true
  diagnostics : ∃ ds d, s.diagnostics.toList = ds ++ [d] ∧ d.problem = .recursionLimitExceeded ∧
    (∀ e ∈ ds, e.problem ≠ .recursionLimitExceeded) ∧ ds <+: t.diagnostics.toList

/-- After the limit was reached in one of two runs, they may go on differently. -/
theorem State.Cut.mono {s t s' t' : State} (h : s.Cut t)
    (hs : s'.limitReached = true ∧ s'.diagnostics = s.diagnostics)
    (ht : t.diagnostics.toList <+: t'.diagnostics.toList) : s'.Cut t' := by
  obtain ⟨-, ds, d, hds, hd, hne, hprefix⟩ := h
  exact ⟨hs.1, ds, d, hs.2 ▸ hds, hd, hne, hprefix.trans ht⟩

namespace Parser

variable {α β : Type} {i : Input} {s s' t t' : State} {p : Parser α} {f : α → Parser β}

/-! ## Computations that do not see the settings -/

/-- A computation that does not look at the settings. -/
def Impartial (p : Parser α) : Prop := ∀ i settings s, p { i with settings } s = p i s

namespace Impartial

theorem bind (hp : Impartial p) (hf : ∀ a, Impartial (f a)) : Impartial (p >>= f) := by
  intro i settings s
  change (p _ s >>= fun r => f r.1 _ r.2) = (p i s >>= fun r => f r.1 i r.2)
  rw [hp]
  exact congrArg (p i s >>= ·) (funext fun r => hf r.1 i settings r.2)

theorem limited (hp : Impartial p) (i : Input) (limit : Option Nat) (s : State) :
    p (i.limited limit) s = p i s :=
  hp i _ s

theorem get {f : State → Parser β} (hf : ∀ s, Impartial (f s)) : Impartial (MonadState.get >>= f) :=
  fun i settings s => hf s i settings s

theorem pure (a : α) : Impartial (Pure.pure a) := fun _ _ _ => rfl

theorem fault (e : Fault) : Impartial (throw e : Parser α) := fun _ _ _ => rfl

theorem modify (g : State → State) : Impartial (modify g) := fun _ _ _ => rfl

theorem peekAt (n : Nat) : Impartial (peekAt n) := by
  refine get fun s => ?_
  split
  · exact fault _
  · exact bind (fun _ _ _ => rfl) fun _ => pure _

theorem currentSpan : Impartial currentSpan := fun _ _ _ => rfl

theorem spanSince (old : Snapshot) : Impartial (spanSince old) := by
  refine get fun s => ?_
  dsimp only
  split
  · rw [spanBetween]
    split
    · exact pure _
    · exact fault _
  · exact currentSpan.bind fun _ => pure _

theorem report (d : Diagnostic) : Impartial (report d) := by
  have hclaim : Impartial (claim d.span.start) := by
    refine get fun s => ?_
    split
    · exact pure _
    · exact bind (fun _ _ _ => rfl) fun _ => pure _
  refine hclaim.bind fun b => ?_
  split
  · exact modify _
  · exact pure _

theorem start : Impartial start := fun _ _ _ => rfl

theorem amend (event : Nat) (change : Kind → Option Nat → Event) : Impartial (amend event change) := by
  refine get fun s => ?_
  split
  · exact fun _ _ _ => rfl
  · exact fault _

theorem stepwise : Stepwise fun _ p => Impartial p where
  pure := pure
  bind := bind
  fault := fault
  spanSince := spanSince
  report d _ := report d
  record _ := modify _
  start := start
  amend := amend
  move _ _ := modify _

theorem wrapUnknown : Impartial wrapUnknown := get fun s => stepwise.wrapUnknownFrom s.rest s.position

theorem bump : Impartial bump := by
  refine wrapUnknown.bind fun _ => get fun s => ?_
  split
  · exact fault _
  · exact bind (fun _ _ _ => rfl) fun _ => (stepwise.reportUnfinished _).bind fun _ => wrapUnknown

theorem tryName : Impartial tryName := by
  refine start.bind fun o => (peekAt 0).bind fun k => ?_
  split
  · refine bump.bind fun _ => (stepwise.eat (peekAt 0) bump _).bind fun b => ?_
    split
    · exact pure _
    · exact bind (modify _) fun _ => pure _
  · exact pure _

theorem reportUnfinishedComments : ∀ ts : List Token, Impartial (reportUnfinishedComments ts)
  | [] => pure _
  | t :: ts => by
    have ih := reportUnfinishedComments ts
    rw [Parser.reportUnfinishedComments]
    split
    · exact ih
    · exact bind (modify _) fun _ => ih
    · exact fault _

end Impartial

/-! ## Words -/

/-- **A computation that does not look at the settings** and reports no nesting limit. -/
structure Neutral (p : Parser α) : Prop where
  impartial : Impartial p
  keeps : ∀ {R : State → State → Prop}, Logs R → Keeps R p

namespace Neutral

theorem pure (a : α) : Neutral (Pure.pure a) := ⟨.pure a, fun h => h.pure a⟩

theorem fault (e : Fault) : Neutral (throw e : Parser α) := ⟨.fault e, fun _ => Logs.fault e⟩

theorem peekAt (n : Nat) : Neutral (peekAt n) := ⟨.peekAt n, fun h => h.peekAt n⟩

theorem currentSpan : Neutral currentSpan := ⟨.currentSpan, fun h => h.currentSpan⟩

theorem spanSince (old : Snapshot) : Neutral (spanSince old) := ⟨.spanSince old, fun h => h.spanSince old⟩

theorem report {d : Diagnostic} (hd : d.problem ∉ [.recursionLimitExceeded, .unfinishedComment]) :
    Neutral (report d) := ⟨.report d, fun h => h.report hd⟩

theorem start : Neutral start := ⟨.start, fun h => h.start⟩

theorem complete (o : Opening) (kind : Kind) : Neutral (complete o kind) :=
  ⟨Impartial.stepwise.complete o kind, fun h => h.stepwise.complete o kind⟩

theorem abandon (o : Opening) : Neutral (abandon o) := ⟨.modify _, fun h => h.abandon o⟩

theorem precede (c : Closed) : Neutral (precede c) :=
  ⟨Impartial.stepwise.precede c, fun h => h.stepwise.precede c⟩

theorem wrapUnknown : Neutral wrapUnknown := ⟨.wrapUnknown, fun h => h.wrapUnknown⟩

theorem bump : Neutral bump := ⟨.bump, fun h => h.bump⟩

theorem tryName : Neutral tryName := ⟨.tryName, fun h => h.tryName⟩

/-- **Only counted productions are more than words**: what every word has, and they and composition keep, is had by
all computations made of them. -/
theorem compositional {P : (α : Type) → Parser α → Prop}
    (hword : ∀ {α : Type} {p : Parser α}, Neutral p → P α p)
    (hbind : ∀ {α β : Type} {p : Parser α} {f : α → Parser β}, P α p → (∀ a, P β (f a)) → P β (p >>= f))
    (hbound : ∀ {α : Type} {f : Nat → Parser α}, (∀ n, P α (f n)) → P α (do f (← read).bound))
    (hnested : ∀ {p : Parser (Option Closed)}, P (Option Closed) p → P (Option Closed) (nested p)) :
    Compositional P where
  pure a := hword (pure a)
  bind := hbind
  fault e := hword (fault e)
  bound := hbound
  peekAt n := hword (peekAt n)
  currentSpan := hword currentSpan
  spanSince old := hword (spanSince old)
  report _ hd := hword (report hd)
  start := hword start
  complete o kind := hword (complete o kind)
  abandon o := hword (abandon o)
  precede c := hword (precede c)
  wrapUnknown := hword wrapUnknown
  bump := hword bump
  nested := hnested
  tryName := hword tryName

end Neutral

/-! ## Reaching the limit -/

theorem logs_below : Logs fun s s' => s.Below → s'.Below where
  mute hmute hs := ⟨hmute.limitReached.trans hs.reached, hmute.diagnostics ▸ hs.problems⟩
  trans h h' hs := h' (h hs)
  log {s d} hd _ _ hs := by
    refine ⟨hs.reached, fun e he => ?_⟩
    have he : e ∈ s.diagnostics.toList ∨ e = d := by simpa [State.log] using he
    rcases he with he | rfl
    · exact hs.problems e he
    · exact fun heq => hd (by simp [heq])

/-- Once the limit is reached, nothing is reported. -/
theorem logs_quiet : Logs fun s s' => s.limitReached = true →
    s'.limitReached = true ∧ s'.diagnostics = s.diagnostics where
  mute hmute hs := ⟨hmute.limitReached.trans hs, hmute.diagnostics⟩
  trans h h' hs := ⟨(h' (h hs).1).1, (h' (h hs).1).2.trans (h hs).2⟩
  log _ hs _ hs' := absurd hs' (by simp [hs])

/-! ## Two runs -/

/-- **Two runs under different limits** from a state where the limit has not been reached: they are the
same, or the one with the lower limit has reached it. -/
def Agrees (p : Parser α) : Prop :=
  ∀ (i : Input) (n : Nat) (m : Option Nat), (∀ k ∈ m, n ≤ k) → ∀ s, s.Below → ∀ a s' b t',
    p (i.limited (some n)) s = .ok (a, s') → p (i.limited m) s = .ok (b, t') →
      a = b ∧ s' = t' ∧ s'.Below ∨ s'.Cut t'

/-- What is kept by all computations under two limits. -/
structure Transparent (p : Parser α) : Prop where
  quiet : Keeps (fun s s' => s.limitReached = true →
    s'.limitReached = true ∧ s'.diagnostics = s.diagnostics) p
  prefixed : Keeps (fun s s' => s.diagnostics.toList <+: s'.diagnostics.toList) p
  agrees : Agrees p

theorem Agrees.of_impartial (hp : Impartial p) (hbelow : Keeps (fun s s' => s.Below → s'.Below) p) :
    Agrees p := by
  intro i n m _ s hs a s' b t' hrun hrun'
  rw [hp.limited] at hrun hrun'
  obtain ⟨rfl, rfl⟩ : a = b ∧ s' = t' := by simpa using hrun.symm.trans hrun'
  exact .inl ⟨rfl, rfl, hbelow i s a s' hrun hs⟩

theorem Transparent.bind (hp : Transparent p) (hf : ∀ a, Transparent (f a)) : Transparent (p >>= f) where
  quiet := logs_quiet.bind hp.quiet fun a => (hf a).quiet
  prefixed := Logs.prefixed.bind hp.prefixed fun a => (hf a).prefixed
  agrees i n m hnm s hs b s' b' t' hrun hrun' := by
    obtain ⟨a, s₁, hp₁, hf₁⟩ := run_bind hrun
    obtain ⟨a', t₁, hp₂, hf₂⟩ := run_bind hrun'
    rcases hp.agrees i n m hnm s hs a s₁ a' t₁ hp₁ hp₂ with ⟨rfl, rfl, hs₁⟩ | hcut
    · exact (hf a).agrees i n m hnm s₁ hs₁ b s' b' t' hf₁ hf₂
    · exact .inr (hcut.mono ((hf a).quiet _ s₁ b s' hf₁ hcut.reached) ((hf a').prefixed _ t₁ b' t' hf₂))

/-- A word is transparent, because it does not see the settings. -/
theorem Transparent.word (hp : Neutral p) : Transparent p :=
  ⟨hp.keeps logs_quiet, hp.keeps Logs.prefixed, .of_impartial hp.impartial (hp.keeps logs_below)⟩

theorem quiet_bailOut (limit : Nat) : Keeps (fun s s' => s.limitReached = true →
    s'.limitReached = true ∧ s'.diagnostics = s.diagnostics) (bailOut limit) := fun i s =>
  (Logs.bailOut_yields limit).mono fun _ s' h hs => by
    rw [h.1 hs]
    exact ⟨hs, rfl⟩

theorem prefixed_bailOut (limit : Nat) :
    Keeps (fun s s' => s.diagnostics.toList <+: s'.diagnostics.toList) (bailOut limit) := fun i s =>
  (Logs.bailOut_yields limit).mono fun _ s' h => by
    cases hs : s.limitReached with
    | true => rw [h.1 hs]
    | false =>
      obtain ⟨-, d, hd, -⟩ := h.2 hs
      simp [hd]

/-- **A counted production is the only thing that sees the limit.** -/
theorem Transparent.nested {p : Parser (Option Closed)} (hp : Transparent p) : Transparent (nested p) where
  quiet := logs_quiet.nested quiet_bailOut hp.quiet
  prefixed := Logs.prefixed.nested prefixed_bailOut hp.prefixed
  agrees i n m hnm s hs a s' b t' hrun hrun' := by
    have hgrows := Logs.prefixed.nested prefixed_bailOut hp.prefixed _ s b t' hrun'
    rcases nested_yields a s' hrun with ⟨k, -, -, hbail, -⟩ | ⟨hdepth, s₁, hp₁, rfl⟩
    -- the lower limit is reached here; what the other run goes on to report comes later
    · obtain ⟨hreached, d, hd, hproblem, -⟩ := (Logs.bailOut_yields k () s' hbail).2 hs.reached
      exact .inr ⟨hreached, _, d, by rw [hd, Array.toList_push], hproblem, hs.problems, hgrows⟩
    -- where the lower limit is not reached, the higher one is not either
    rcases nested_yields b t' hrun' with ⟨k, hk, hle, -⟩ | ⟨-, t₁, hp₂, rfl⟩
    · exact absurd (hdepth n rfl) (by have := hnm k hk; omega)
    rcases hp.agrees i n m hnm s.deeper ⟨hs.reached, hs.problems⟩ a s₁ b t₁ hp₁ hp₂ with
      ⟨rfl, rfl, h⟩ | hcut
    · exact .inl ⟨rfl, rfl, h.reached, h.problems⟩
    · exact .inr (hcut.mono ⟨hcut.reached, rfl⟩ List.prefix_rfl)

theorem transparent : Compositional fun _ p => Transparent p :=
  Neutral.compositional .word .bind (fun hf => ⟨fun i s => .read ((hf _).quiet i s),
    fun i s => .read ((hf _).prefixed i s),
    fun i n m hnm s hs a s' b t' hrun hrun' => (hf i.bound).agrees i n m hnm s hs a s' b t' hrun hrun'⟩) .nested

theorem Transparent.chainStatement {enter enter' : Enter}
    (he : Congruence.Enters (fun _ _ p _ => Transparent p) enter enter') :
    Transparent (Production.chainStatement enter) :=
  transparent.chainStatement (fun hf => ⟨fun i s => .read ((hf _).quiet i s), fun i s => .read ((hf _).prefixed i s),
    fun i n m hnm s hs a s' b t' hrun hrun' =>
      (hf i.settings.bare).agrees i n m hnm s hs a s' b t' hrun hrun'⟩) he

/-! ## Two parses -/

/-- Unfinished comments are reported before the nesting can have reached anything. -/
theorem below_of_comments : ∀ (ts : List Token) {s : State}, s.Below →
    Yields (reportUnfinishedComments ts) i s fun _ s' => s'.Below
  | [], _, hs => .pure hs
  | t :: ts, s, hs => by
    rw [reportUnfinishedComments]
    split
    · exact below_of_comments ts hs
    · refine .modifying (below_of_comments ts ⟨hs.reached, fun d hd => ?_⟩)
      have hd : d ∈ s.diagnostics.toList ∨ d = ⟨.unfinishedComment, t.span, none, []⟩ := by simpa using hd
      rcases hd with hd | rfl
      · exact hs.problems d hd
      · simp
    · exact .exhausted

theorem agrees_whole {n : Nat} {m : Option Nat} (hnm : ∀ k ∈ m, n ≤ k)
    (hrun : whole (i.limited (some n)) (.initial i.tokens) = .ok ((), s))
    (hrun' : whole (i.limited m) (.initial i.tokens) = .ok ((), t)) : s = t ∧ s.Below ∨ s.Cut t := by
  obtain ⟨_, s₁, hp₁, hf₁⟩ := run_bind (p := reportUnfinishedComments i.tokens) (f := fun _ =>
    Production.chunk) hrun
  obtain ⟨_, t₁, hp₂, hf₂⟩ := run_bind (p := reportUnfinishedComments i.tokens) (f := fun _ =>
    Production.chunk) hrun'
  rw [(Impartial.reportUnfinishedComments i.tokens).limited] at hp₁ hp₂
  obtain rfl : s₁ = t₁ := by simpa using hp₁.symm.trans hp₂
  have hbelow := below_of_comments i.tokens ⟨rfl, by simp [State.initial]⟩ () s₁ hp₁
  have hagrees := (transparent.chunk Transparent.chainStatement).agrees i n m hnm s₁ hbelow _ s _ t hf₁ hf₂
  exact hagrees.imp_left fun h => h.2

end Parser

/-- **The nesting limit changes nothing until it is reached**: under a higher limit, or none, the parse
is the same, or the limit was reached, and what was reported before that is reported first under the
higher limit as well. -/
theorem limit_transparent (source : String) (bare : BareExpressions) (n : Nat) (m : Option Nat)
    (h : ∀ k ∈ m, n ≤ k) : ∃ p q, parse source ⟨some n, bare⟩ = .ok p ∧ parse source ⟨m, bare⟩ = .ok q ∧
      ((∀ d ∈ p.diagnostics, d.problem ≠ .recursionLimitExceeded) → q = p) ∧
      ((∃ d ∈ p.diagnostics, d.problem = .recursionLimitExceeded) → ∃ ds d,
        p.diagnostics = ds ++ [d] ∧ d.problem = .recursionLimitExceeded ∧
          (∀ e ∈ ds, e.problem ≠ .recursionLimitExceeded) ∧ ds <+: q.diagnostics) := by
  obtain ⟨p, hp, -⟩ := parse_conforms source ⟨some n, bare⟩
  obtain ⟨q, hq, -⟩ := parse_conforms source ⟨m, bare⟩
  obtain ⟨s, hs, htree, hdiagnostics⟩ := run_of_parseTokens hp
  obtain ⟨t, ht, htree', hdiagnostics'⟩ := run_of_parseTokens hq
  refine ⟨p, q, hp, hq, ?_⟩
  rw [hdiagnostics, hdiagnostics']
  rcases agrees_whole (i := .ofTokens (lex source) source.utf8ByteSize ⟨m, bare⟩) h hs ht with
    ⟨rfl, hbelow⟩ | ⟨-, ds, d, hds, hproblem, hne, hprefix⟩
  · refine ⟨fun _ => ?_, fun ⟨d, hd, hproblem⟩ => absurd hproblem (hbelow.problems d hd)⟩
    have htrees : q.tree = p.tree := by simpa [htree] using htree'.symm
    cases p
    cases q
    simp_all
  · refine ⟨fun hnone => absurd hproblem (hnone d (by simp [hds])), fun _ => ?_⟩
    exact ⟨ds, d, hds, hproblem, hne, hprefix⟩

/-- Without any nesting, and without a limit. -/
theorem limit_transparent_of_call : ∃ p q, parse "f(1)" ⟨some 0, .keep⟩ = .ok p ∧
    parse "f(1)" ⟨none, .keep⟩ = .ok q ∧
      ((∀ d ∈ p.diagnostics, d.problem ≠ .recursionLimitExceeded) → q = p) ∧
      ((∃ d ∈ p.diagnostics, d.problem = .recursionLimitExceeded) → ∃ ds d,
        p.diagnostics = ds ++ [d] ∧ d.problem = .recursionLimitExceeded ∧
          (∀ e ∈ ds, e.problem ≠ .recursionLimitExceeded) ∧ ds <+: q.diagnostics) :=
  limit_transparent "f(1)" .keep 0 none (by simp)

end LuaTree
