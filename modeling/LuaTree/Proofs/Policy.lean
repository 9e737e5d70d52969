import LuaTree.Proofs.Nesting.Parse

/-!
# Proofs/Policy — what becomes of bare expressions where nothing is reported

The settings are asked what becomes of bare expressions in one place only: behind a leading chain that
neither `=` nor a comma follows.  Whatever they answer, something is reported then.  So a run that ends
with nothing reported never asked, and is the same under every setting (`Agnostic`).
-/

namespace LuaTree

open LuaTree.Parser

/-- The input under another setting for bare expressions. -/
def Input.under (i : Input) (bare : BareExpressions) : Input :=
  { i with settings := { i.settings with bare } }

namespace Parser

open Nesting

variable {α β σ : Type} {i : Input} {s s' : State} {p : Parser α} {f : α → Parser β} {enter enter' : Enter}
  {k : Kind}

/-! ## Where the settings are asked -/

/-- A computation that consumes nothing. -/
def Motionless (p : Parser α) : Prop := Keeps (fun s s' => s'.rest = s.rest) p

namespace Motionless

theorem bind (hp : Motionless p) (hf : ∀ a, Motionless (f a)) : Motionless (p >>= f) := fun i s =>
  (hp i s).bind fun a s' hs => (hf a i s').mono fun _ _ h => h.trans hs

theorem pure (a : α) : Motionless (Pure.pure a : Parser α) := fun _ _ => .pure rfl

theorem spanSince (old : Snapshot) : Motionless (spanSince old) := fun _ _ =>
  (spanSince_yields old).mono fun _ _ h => congrArg State.rest h

theorem report (d : Diagnostic) : Motionless (report d) := by
  refine fun _ _ => .assoc (.get ?_)
  split
  · exact .pure rfl
  · exact .last (.modifying (.pure rfl))

theorem start : Motionless start := fun _ _ => .get (.modifying (.pure rfl))

theorem amend (event : Nat) (change : Kind → Option Nat → Event) : Motionless (amend event change) := by
  refine fun _ _ => .get ?_
  split
  · exact .last (.setting (.pure rfl))
  · exact .exhausted

theorem recording : Recording fun _ p => Motionless p where
  pure := pure
  bind := bind
  record _ := fun _ _ => .last (.modifying (.pure rfl))
  start := start
  amend := amend

theorem finish (o : Opening) (kind : Kind) : Motionless (Production.finish o kind) :=
  (recording.complete o kind).bind fun _ => pure _

theorem assignee (c : Closed) : Motionless (Production.assignee c) := by
  have hwrap : Motionless (do Production.finish (← Parser.precede c) .var) :=
    (recording.precede c).bind fun _ => finish _ _
  rw [Production.assignee]
  split
  · exact bind (spanSince _) fun _ => bind (report _) fun _ => hwrap
  · exact hwrap

end Motionless

theorem eat_absent (hk : s.next ≠ k) : Yields (eat k) i s fun b s' => b = false ∧ s' = s.look := by
  refine (isAt_yields k).bind ?_
  rintro b _ ⟨rfl, rfl⟩
  rw [if_neg (by simpa using hk)]
  exact .pure ⟨rfl, rfl⟩

theorem isAtEither_yields (k l : Kind) : Yields (Production.isAtEither k l) i s fun b s' =>
    b = (s.next == k || s.next == l) ∧ s'.rest = s.rest := by
  refine (isAt_yields k).bind ?_
  rintro b _ ⟨rfl, rfl⟩
  split
  · rename_i h
    exact .pure ⟨by rw [h, Bool.true_or], rfl⟩
  · rename_i h
    rw [Bool.eq_false_iff.2 h, Bool.false_or]
    exact (isAt_yields l).mono fun _ _ ⟨hb, hs⟩ => ⟨hb, hs ▸ rfl⟩

/-- What is missing is reported. -/
theorem expect_dirty (hs : Unclaimed s) (hk : s.next ≠ k) :
    Yields (expect k) i s fun _ s' => ¬ s'.Clean := by
  refine (eat_absent hk).bind ?_
  rintro b _ ⟨rfl, rfl⟩
  rw [if_neg Bool.false_ne_true]
  refine .assoc ((logs_unclaimed.currentSpan i s.look).bind fun span s₁ h => ?_)
  exact (report_dirty (h hs) _).bind fun _ _ hdirty => .pure hdirty

/-- An assignment without its `=` is reported. -/
theorem assignment_dirty (he : Congruence.Enters
      (fun _ _ p _ => Keeps (fun s s' => s.diagnostics.toList <+: s'.diagnostics.toList) p) enter enter')
    (hs : Unclaimed s) (hequals : s.next ≠ .equals) (hcomma : s.next ≠ .comma) (whole list : Opening)
    (c : Closed) : Yields (Production.assignment enter whole list c) i s fun _ s' => ¬ s'.Clean := by
  have hu := Nesting.unclaimed.congruence
  have hprefixed := (Logs.prefixed.compositional prefixed_bailOut).congruence
  have hnext {t : State} (h : t.rest = s.rest) : t.next = s.next := by
    rw [State.next, State.next, State.significant, State.significant, h]
  refine Yields.bind (Q := fun _ s₁ => Unclaimed s₁ ∧ s₁.rest = s.rest) (fun a s₁ hrun =>
    ⟨hu.assignee (Answer.refl c) i s a s₁ hrun hs, Motionless.assignee c i s a s₁ hrun⟩) fun _ s₁ h₁ => ?_
  -- no comma follows, so there are no more targets
  refine Yields.bind (Q := fun _ s₂ => Unclaimed s₂ ∧ s₂.rest = s.rest) (.read (.last (.done (T := fun _ s₂ =>
    s₂ = s₁.look) ((eat_absent (hnext h₁.2 ▸ hcomma)).bind ?_) fun _ _ => ?_))) fun _ s₂ h₂ => ?_
  · rintro b _ ⟨rfl, rfl⟩
    exact .pure ⟨(), rfl, rfl⟩
  · rintro rfl
    exact .pure h₁
  refine Yields.bind (Q := fun _ s₃ => Unclaimed s₃ ∧ s₃.rest = s.rest) (fun a s₃ hrun =>
    ⟨hu.finish (Answer.refl list) _ i s₂ a s₃ hrun h₂.1,
      (Motionless.finish list _ i s₂ a s₃ hrun).trans h₂.2⟩) fun _ s₃ h₃ => ?_
  refine (expect_dirty h₃.1 (hnext h₃.2 ▸ hequals)).bind fun _ s₄ hdirty => ?_
  exact (Logs.prefixed.bind (hprefixed.expectExpressionList he)
    (fun _ => hprefixed.finish (Answer.refl whole) _) i s₄).mono fun _ _ hprefix hclean =>
      hdirty (State.clean_of_prefix hprefix hclean)

/-! ## Runs under both settings -/

/-- **A computation that is the same under every setting** where it ends with nothing reported. -/
structure Agnostic (p : Parser α) : Prop where
  prefixed : Keeps (fun s s' => s.diagnostics.toList <+: s'.diagnostics.toList) p
  unclaimed : Keeps (fun s s' => Unclaimed s → Unclaimed s') p
  same : ∀ i bare s, Unclaimed s → Yields p i s fun a s' => s'.Clean → p (i.under bare) s = .ok (a, s')

namespace Agnostic

theorem word (hp : Neutral p) : Agnostic p :=
  ⟨hp.keeps Logs.prefixed, hp.keeps logs_unclaimed, fun i _ s _ _ _ hrun _ => (hp.impartial i _ s).trans hrun⟩

theorem bind (hp : Agnostic p) (hf : ∀ a, Agnostic (f a)) : Agnostic (p >>= f) where
  prefixed := Logs.prefixed.bind hp.prefixed fun a => (hf a).prefixed
  unclaimed := logs_unclaimed.bind hp.unclaimed fun a => (hf a).unclaimed
  same i bare s hs b s' hrun hclean := by
    obtain ⟨a, s₁, hp', hf'⟩ := run_bind hrun
    have h₁ : s₁.Clean := State.clean_of_prefix ((hf a).prefixed i s₁ b s' hf') hclean
    change (p _ s >>= fun r => f r.1 _ r.2) = _
    rw [hp.same i bare s hs a s₁ hp' h₁]
    exact (hf a).same i bare s₁ (hp.unclaimed i s a s₁ hp' hs) b s' hf' hclean

theorem nested {p : Parser (Option Closed)} (hp : Agnostic p) : Agnostic (nested p) where
  prefixed := Logs.prefixed.nested prefixed_bailOut hp.prefixed
  unclaimed := logs_unclaimed.nested unclaimed_bailOut hp.unclaimed
  same i bare s hs a s' hrun hclean := by
    rcases nested_yields a s' hrun with ⟨k, -, -, hbail, -⟩ | ⟨hdepth, t, hp', rfl⟩
    · exact absurd hclean (bailOut_dirty (fun h => (hs h).2) k () s' hbail)
    · exact nested_run hdepth (hp.same i bare s.deeper hs a t hp' hclean)

theorem compositional : Compositional fun _ p => Agnostic p :=
  Neutral.compositional .word .bind (fun hf => ⟨fun i s => .read ((hf _).prefixed i s),
    fun i s => .read ((hf _).unclaimed i s), fun i bare s => (hf i.bound).same i bare s⟩) .nested

variable (he : Congruence.Enters (fun _ _ p _ => Agnostic p) enter enter')
include he

theorem enters_prefixed : Congruence.Enters
    (fun _ _ p _ => Keeps (fun s s' => s.diagnostics.toList <+: s'.diagnostics.toList) p) enter enter' :=
  fun _ _ h => (he h).prefixed

theorem enters_unclaimed : Congruence.Enters
    (fun _ _ p _ => Keeps (fun s s' => Unclaimed s → Unclaimed s') p) enter enter' :=
  fun _ _ h => (he h).unclaimed

/-- **Where the settings are asked, something is reported**, whatever they answer. -/
theorem afterChain (whole list : Opening) (c : Closed) :
    Agnostic (Production.afterChain enter whole list c) where
  prefixed := Logs.prefixed.afterChain prefixed_bailOut (enters_prefixed he) whole list c
  unclaimed := logs_unclaimed.afterChain unclaimed_bailOut (enters_unclaimed he) whole list c
  same i bare s hs a s' hrun hclean := by
    have h := compositional.congruence
    have heither := h.isAtEither .equals .comma
    have hassignment := h.assignment he (Answer.refl whole) (Answer.refl list) (Answer.refl c)
    obtain ⟨b, s₁, hp, hf⟩ := run_bind hrun
    obtain ⟨hb, hrest⟩ := isAtEither_yields _ _ b s₁ hp
    have hs₁ := heither.unclaimed i s b s₁ hp hs
    cases b with
    | true =>
      have h₁ : s₁.Clean := State.clean_of_prefix (hassignment.prefixed i s₁ a s' hf) hclean
      change (Production.isAtEither _ _ _ s >>= fun r => _) = _
      rw [heither.same i bare s hs true s₁ hp h₁]
      exact hassignment.same i bare s₁ hs₁ a s' hf hclean
    | false =>
      have hnext : s₁.next = s.next := by
        rw [State.next, State.next, State.significant, State.significant, hrest]
      simp only [Bool.false_eq, Bool.or_eq_false_iff, beq_eq_false_iff_ne, ← hnext] at hb
      refine absurd hclean ?_
      change (if i.settings.bare = .requireAssignment then Production.assignment enter whole list c
        else Production.bareExpression enter whole list (some c)) i s₁ = _ at hf
      split at hf
      · exact assignment_dirty (enters_prefixed he) hs₁ hb.1 hb.2 whole list c a s' hf
      · exact bareExpression_dirty (fun e => (he (.refl e)).unclaimed) hs₁ whole list (some c) a s' hf

theorem chainStatement : Agnostic (Production.chainStatement enter) :=
  compositional.congruence.chainStatement he fun {whole _ list _ c _} _ _ _ => afterChain he whole list c

omit he in
theorem chunk : Agnostic Production.chunk := compositional.chunk chainStatement

end Agnostic

end Parser

/-- Where nothing is reported, the parse is the same under every setting for bare expressions. -/
theorem parse_of_bare {source : String} {limit : Option Nat} {bare : BareExpressions} {p : Parse}
    (hp : parse source ⟨limit, bare⟩ = .ok p) (hclean : p.diagnostics = []) (bare' : BareExpressions) :
    parse source ⟨limit, bare'⟩ = .ok p := by
  obtain ⟨q, hq, -⟩ := parse_conforms source ⟨limit, bare'⟩
  obtain ⟨s₁, s, -, hbegins, -, hcomments, hrun, -, -, htree, hdiagnostics⟩ := run_of_parse hp
  obtain ⟨t₁, t, -, -, -, hcomments', hrun', -, -, htree', hdiagnostics'⟩ := run_of_parse hq
  have hfirst := Impartial.reportUnfinishedComments (lex source) (.ofSource source ⟨limit, bare⟩)
    ⟨limit, bare'⟩ (.initial (lex source))
  obtain rfl : s₁ = t₁ := by simpa using hcomments.symm.trans (hfirst.symm.trans hcomments')
  have hsame := Agnostic.chunk.same (.ofSource source ⟨limit, bare⟩) bare' s₁
    (fun _ => ⟨hbegins.lastReported, hbegins.limitReached⟩) () s hrun
      (Array.toList_eq_nil_iff.1 (hdiagnostics ▸ hclean))
  obtain rfl : s = t := by simpa using hsame.symm.trans hrun'
  obtain ⟨tree, diagnostics⟩ := p
  obtain ⟨tree', diagnostics'⟩ := q
  obtain rfl : tree = tree' := by simpa using htree.symm.trans htree'
  obtain rfl : diagnostics = diagnostics' := hdiagnostics.trans hdiagnostics'.symm
  exact hq

/-- **The setting for bare expressions decides nothing but what is made of a mistake**: nothing is
reported under the one just where nothing is reported under the other, and the trees are the same then. -/
theorem bare_expressions_agree (source : String) (limit : Option Nat) : ∃ p q,
    parse source ⟨limit, .keep⟩ = .ok p ∧ parse source ⟨limit, .requireAssignment⟩ = .ok q ∧
      (p.diagnostics = [] ↔ q.diagnostics = []) ∧ (p.diagnostics = [] → p.tree = q.tree) := by
  obtain ⟨p, hp, -⟩ := parse_conforms source ⟨limit, .keep⟩
  obtain ⟨q, hq, -⟩ := parse_conforms source ⟨limit, .requireAssignment⟩
  have hsame (hclean : p.diagnostics = []) : p = q := by
    simpa [hq] using (parse_of_bare hp hclean .requireAssignment).symm
  have hsame' (hclean : q.diagnostics = []) : q = p := by
    simpa [hp] using (parse_of_bare hq hclean .keep).symm
  refine ⟨p, q, hp, hq, ⟨fun h => hsame h ▸ h, fun h => hsame' h ▸ h⟩, fun h => hsame h ▸ rfl⟩

end LuaTree
