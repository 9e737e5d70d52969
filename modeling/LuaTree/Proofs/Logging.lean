import LuaTree.Proofs.Composition.Production
import LuaTree.Proofs.Consuming

/-!
# Proofs/Logging — what happens to the diagnostics in a run

Only two things touch the diagnostics: a report, and the nesting limit.  So a relation between states
which ignores everything else, is transitive and holds between the states before and after a kept report
holds between the states before and after every word (`Logs`); if the nesting limit respects it too, it
holds between those of a whole run (`Logs.chunk`).
-/

namespace LuaTree

namespace State

/-- Nothing was reported or taken back. -/
structure Mute (s s' : State) : Prop where
  diagnostics : s'.diagnostics = s.diagnostics
  lastReported : s'.lastReported = s.lastReported
  limitReached : s'.limitReached = s.limitReached

theorem Mute.refl (s : State) : s.Mute s := ⟨rfl, rfl, rfl⟩

/-- The state after a diagnostic has been kept. -/
def log (s : State) (d : Diagnostic) : State :=
  { s with lastReported := some d.span.start, diagnostics := s.diagnostics.push d }

end State

namespace Parser

variable {α β : Type} {i : Input} {s s' s'' : State} {p : Parser α} {f : α → Parser β}
  {R : State → State → Prop}

/-- **A relation that the words respect**: all that it can see of a state is what was reported. -/
structure Logs (R : State → State → Prop) : Prop where
  mute : ∀ {s s'}, s.Mute s' → R s s'
  trans : ∀ {s s' s''}, R s s' → R s' s'' → R s s''
  log : ∀ {s d}, d.problem ∉ [.recursionLimitExceeded, .unfinishedComment] → s.limitReached = false →
    s.lastReported ≠ some d.span.start → R s (s.log d)

/-- A relation that holds between the states before and after every run of a computation. -/
def Keeps (R : State → State → Prop) (p : Parser α) : Prop :=
  ∀ i s, Yields p i s fun _ s' => R s s'

namespace Logs

variable (h : Logs R)
include h

theorem pure (a : α) : Keeps R (Pure.pure a) := fun _ _ => .pure (h.mute (.refl _))

theorem bind (hp : Keeps R p) (hf : ∀ a, Keeps R (f a)) : Keeps R (p >>= f) := fun i s =>
  (hp i s).bind fun a s' hs => (hf a i s').mono fun _ _ => h.trans hs

omit h in
theorem fault (e : Fault) : Keeps R (throw e : Parser α) := fun _ _ => .exhausted

/-! ## Looking, opening and closing -/

theorem peekAt (n : Nat) : Keeps R (peekAt n) := by
  intro i s
  refine .get ?_
  split
  · exact .exhausted
  · exact .setting (.pure (h.mute ⟨rfl, rfl, rfl⟩))

theorem currentSpan : Keeps R currentSpan := fun _ _ => .get (.read (.pure (h.mute (.refl _))))

theorem spanSince (old : Snapshot) : Keeps R (spanSince old) := by
  intro i s
  refine .get ?_
  dsimp only
  split
  · rw [spanBetween]
    split
    · exact .pure (h.mute (.refl _))
    · exact .exhausted
  · exact h.bind h.currentSpan (fun _ => h.pure _) i s

theorem record (e : Event) : Keeps R (record e) := fun _ _ =>
  .last (.modifying (.pure (h.mute ⟨rfl, rfl, rfl⟩)))

theorem start : Keeps R start := fun _ _ => .get (h.bind (h.record _) (fun _ => h.pure _) _ _)

theorem amend (event : Nat) (change : Kind → Option Nat → Event) : Keeps R (amend event change) := by
  intro i s
  refine .get ?_
  split
  · exact .last (.setting (.pure (h.mute ⟨rfl, rfl, rfl⟩)))
  · exact .exhausted

theorem abandon (o : Opening) : Keeps R (abandon o) := by
  refine fun i s => .last (.modifying (.pure ?_))
  split
  · exact h.mute ⟨rfl, rfl, rfl⟩
  · exact h.mute (.refl _)

/-! ## Reporting and consuming -/

theorem report {d : Diagnostic} (hd : d.problem ∉ [.recursionLimitExceeded, .unfinishedComment]) :
    Keeps R (report d) := by
  refine fun i s => .assoc (.get ?_)
  by_cases hclaimed : s.limitReached || s.lastReported == some d.span.start
  · rw [if_pos hclaimed]
    exact .pure (h.mute (.refl s))
  · rw [if_neg hclaimed]
    simp only [Bool.or_eq_true, not_or, Bool.not_eq_true, beq_iff_eq] at hclaimed
    exact .last (.modifying (.pure (h.log hd hclaimed.1 hclaimed.2)))

theorem stepwise : Stepwise fun _ p => Keeps R p where
  pure := h.pure
  bind := h.bind
  fault := fault
  spanSince := h.spanSince
  report _ := h.report
  record := h.record
  start := h.start
  amend := h.amend
  move _ _ := fun _ _ => .last (.modifying (.pure (h.mute ⟨rfl, rfl, rfl⟩)))

theorem wrapUnknown : Keeps R wrapUnknown := fun i s => .get (h.stepwise.wrapUnknownFrom s.rest s.position i s)

theorem bump : Keeps R bump := by
  refine h.bind h.wrapUnknown fun _ i s => .get ?_
  split
  · exact .exhausted
  · rename_i t _ _
    refine .setting ((h.bind (h.stepwise.reportUnfinished t) (fun _ => h.wrapUnknown) i _).mono ?_)
    exact fun _ _ => h.trans (h.mute ⟨rfl, rfl, rfl⟩)

omit h in
/-- More has been reported, or nothing. -/
theorem prefixed : Logs fun s s' => s.diagnostics.toList <+: s'.diagnostics.toList where
  mute hs := hs.diagnostics ▸ List.prefix_rfl
  trans := List.IsPrefix.trans
  log _ _ _ := by simp [State.log]

omit h in
/-- **What is taken back was all reported since.** -/
theorem rollback_mute {o : Opening} (ho : o.snapshot = s.snapshot)
    (hs : s.diagnostics.toList <+: s'.diagnostics.toList) :
    Yields (rollback o) i s' fun _ s'' => s.Mute s'' := by
  refine .last (.modifying (.pure ⟨?_, ?_, ?_⟩))
  · obtain ⟨ds, hds⟩ := hs
    rw [ho]
    refine Array.toList_inj.1 ?_
    simp [State.restore, State.snapshot, ← hds]
  · rw [ho]
    rfl
  · rw [ho]
    rfl

theorem and {R' : State → State → Prop} (h' : Logs R') : Logs fun s s' => R s s' ∧ R' s s' where
  mute hs := ⟨h.mute hs, h'.mute hs⟩
  trans h₁ h₂ := ⟨h.trans h₁.1 h₂.1, h'.trans h₁.2 h₂.2⟩
  log hd hs hne := ⟨h.log hd hs hne, h'.log hd hs hne⟩

theorem tryName : Keeps R tryName := by
  intro i s
  have hboth := h.and prefixed
  have hstart : Yields Parser.start i s fun o s' => o.snapshot = s.snapshot ∧ s.Mute s' :=
    .get (.modifying (.pure ⟨rfl, rfl, rfl, rfl⟩))
  refine hstart.bind fun o s₁ ⟨ho, hmute⟩ => ?_
  refine (hboth.peekAt 0 i s₁).bind fun k s₂ h₂ => ?_
  have h₂ := hboth.trans (hboth.mute hmute) h₂
  by_cases hk : k = .ident
  case neg =>
    rw [if_neg hk]
    exact .pure h₂.1
  rw [if_pos hk]
  have heat := hboth.stepwise.eat (hboth.peekAt 0) hboth.bump .equals
  refine (hboth.bump i s₂).bind fun _ s₃ h₃ => (heat i s₃).bind fun b s₄ h₄ => ?_
  have h₄ := hboth.trans h₂ (hboth.trans h₃ h₄)
  split
  · exact .pure h₄.1
  · exact (rollback_mute ho h₄.2).bind fun _ s₅ hmute => .pure (h.mute hmute)

/-! ## Whole runs -/

omit h in
/-- The nesting limit is reported once. -/
theorem bailOut_yields (limit : Nat) : Yields (bailOut limit) i s fun _ s' =>
    (s.limitReached = true → s' = s) ∧ (s.limitReached = false → s'.limitReached = true ∧
      ∃ d, s'.diagnostics = s.diagnostics.push d ∧ d.problem = .recursionLimitExceeded ∧
        s'.lastReported = some d.span.start) := by
  refine .get ?_
  split
  · rename_i hs
    exact .pure ⟨fun _ => rfl, fun h => absurd hs (by simp [h])⟩
  · rename_i hs
    refine Yields.bind (Q := fun _ s' => s' = s) (.get (.read (.pure rfl))) ?_
    rintro span s₁ rfl
    refine .read ?_
    rw [spanBetween]
    split
    · exact .last (.modifying (.pure ⟨fun h => absurd h hs, fun _ => ⟨rfl, _, rfl, rfl, rfl⟩⟩))
    · exact .exhausted

theorem nested (hbail : ∀ limit, Keeps R (bailOut limit)) {p : Parser (Option Closed)} (hp : Keeps R p) :
    Keeps R (nested p) := fun i s => nested_yields.mono fun a s' hrun => by
  rcases hrun with ⟨k, -, -, hbailed, -⟩ | ⟨-, t, hrun, rfl⟩
  · exact hbail k i s () s' hbailed
  · have hdeeper : R s s.deeper := h.mute ⟨rfl, rfl, rfl⟩
    exact h.trans (h.trans hdeeper (hp i s.deeper a t hrun)) (h.mute ⟨rfl, rfl, rfl⟩)

/-- **A relation that the words and the nesting limit respect** is one that every run respects. -/
theorem compositional (hbail : ∀ limit, Keeps R (bailOut limit)) :
    Compositional fun _ p => Keeps R p where
  pure := h.pure
  bind := h.bind
  fault := fault
  bound hf i s := .read (hf _ i s)
  peekAt := h.peekAt
  currentSpan := h.currentSpan
  spanSince := h.spanSince
  report _ := h.report
  start := h.start
  complete := h.stepwise.complete
  abandon := h.abandon
  precede := h.stepwise.precede
  wrapUnknown := h.wrapUnknown
  bump := h.bump
  nested := h.nested hbail
  tryName := h.tryName

variable {enter enter' : Enter} (hbail : ∀ limit, Keeps R (bailOut limit))
  (he : Congruence.Enters (fun _ _ p _ => Keeps R p) enter enter')
include hbail

include he in
theorem afterChain (whole list : Opening) (c : Closed) :
    Keeps R (Production.afterChain enter whole list c) :=
  (h.compositional hbail).congruence.afterChain he (fun hf i s => .read (hf _ i s)) (Answer.refl whole)
    (Answer.refl list) (Answer.refl c)

include he in
theorem chainStatement : Keeps R (Production.chainStatement enter) :=
  (h.compositional hbail).chainStatement (fun hf i s => .read (hf _ i s)) he

theorem chunk : Keeps R Production.chunk :=
  (h.compositional hbail).chunk fun he => h.chainStatement hbail he

end Logs

end Parser

end LuaTree
