import LuaTree.Proofs.Logging
import LuaTree.Proofs.Parse
import Mathlib.Data.List.Chain

/-!
# Proofs/Spacing — one diagnostic after the other

A diagnostic is kept only if it starts elsewhere than the one that was kept before it, so two neighbours
never start at one offset (`spaced_of_parse`); only the report of the nesting limit is always kept.  No
earlier diagnostic is looked at: a bare expression is reported where it begins, and what is reported
behind it may repeat an offset (`repeated_offset`).
-/

namespace LuaTree

open LuaTree.Parser

/-- Neighbours start at different offsets; the nesting limit may be reported anywhere. -/
def Diagnostic.Spaced (ds : List Diagnostic) : Prop :=
  ds.IsChain fun d e => d.span.start = e.span.start → e.problem = .recursionLimitExceeded

namespace State

/-- The diagnostics that were reported while tokens were read. -/
def claimed (s : State) : List Diagnostic := s.diagnostics.toList.filter (·.problem ≠ .unfinishedComment)

/-- The offset of the last diagnostic is known, and no neighbours share theirs. -/
structure Spaced (s : State) : Prop where
  last : s.lastReported = s.claimed.getLast?.map (·.span.start)
  spaced : Diagnostic.Spaced s.claimed

/-- A diagnostic that is kept comes behind one that starts elsewhere, or reports the nesting limit. -/
theorem Spaced.push {s s' : State} {d : Diagnostic} (hs : s.Spaced) (hd : d.problem ≠ .unfinishedComment)
    (hne : s.lastReported = some d.span.start → d.problem = .recursionLimitExceeded)
    (hdiagnostics : s'.diagnostics = s.diagnostics.push d) (hlast : s'.lastReported = some d.span.start) :
    s'.Spaced := by
  have hclaimed : s'.claimed = s.claimed ++ [d] := by simp [claimed, hdiagnostics, hd]
  refine ⟨by simp [hclaimed, hlast], ?_⟩
  rw [hclaimed]
  refine List.isChain_append.2 ⟨hs.spaced, .singleton d, fun e he d' hd' heq => ?_⟩
  obtain rfl : d = d' := by simpa using hd'
  refine hne ?_
  rw [hs.last, he, Option.map_some, heq]

end State

namespace Parser

variable {i : Input} {s : State}

theorem logs_spaced : Logs fun s s' => s.Spaced → s'.Spaced where
  mute {s s'} hmute hs := by
    have hclaimed : s'.claimed = s.claimed := by rw [State.claimed, hmute.diagnostics, State.claimed]
    exact ⟨by rw [hmute.lastReported, hs.last, hclaimed], hclaimed ▸ hs.spaced⟩
  trans h h' hs := h' (h hs)
  log hd _ hne hs := hs.push (fun heq => hd (by simp [heq])) (fun heq => absurd heq hne) rfl rfl

theorem spaced_bailOut (limit : Nat) : Keeps (fun s s' => s.Spaced → s'.Spaced) (bailOut limit) := by
  refine fun i s => (Logs.bailOut_yields limit).mono fun _ s' h hs => ?_
  cases hreached : s.limitReached with
  | true => rwa [h.1 hreached]
  | false =>
    obtain ⟨-, d, hd, hproblem, hlast⟩ := h.2 hreached
    exact hs.push (by simp [hproblem]) (fun _ => hproblem) hd hlast

/-- Unfinished comments are told of before anything else, and are not claimed. -/
theorem spaced_comments : ∀ (ts : List Token) {s : State}, s.Spaced →
    Yields (reportUnfinishedComments ts) i s fun _ s' => s'.Spaced
  | [], _, hs => .pure hs
  | t :: ts, s, hs => by
    rw [reportUnfinishedComments]
    split
    · exact spaced_comments ts hs
    · refine .modifying (spaced_comments ts ?_)
      have hclaimed : State.claimed { s with
          diagnostics := s.diagnostics.push ⟨.unfinishedComment, t.span, none, []⟩ } = s.claimed := by
        simp [State.claimed]
      exact ⟨hclaimed ▸ hs.last, hclaimed ▸ hs.spaced⟩
    · exact .exhausted

end Parser

/-- **Neighbouring diagnostics start at different offsets**, whatever the source and the settings are;
unfinished comments, which are looked for in advance, are left out. -/
theorem spaced_of_parse (source : String) (settings : Settings) : ∃ p, parse source settings = .ok p ∧
    Diagnostic.Spaced (p.diagnostics.filter (·.problem ≠ .unfinishedComment)) := by
  obtain ⟨p, hp, -⟩ := parse_conforms source settings
  obtain ⟨s, hs, -, hdiagnostics⟩ := run_of_parseTokens hp
  have hinitial : (State.initial (lex source)).Spaced := ⟨rfl, .nil⟩
  have hspaced : Yields whole (.ofTokens (lex source) source.utf8ByteSize settings)
      (.initial (lex source)) fun _ s' => s'.Spaced :=
    .read ((spaced_comments (lex source) hinitial).bind fun _ s₁ hs₁ =>
      (logs_spaced.chunk spaced_bailOut _ s₁).mono fun _ s₂ h => h hs₁)
  exact ⟨p, hp, hdiagnostics ▸ (hspaced () s hs).spaced⟩

/-- **Two diagnostics may start at one offset**: where `=` is no expression, that is told, then that the
sum is no statement, and then that `=` is no statement. -/
theorem repeated_offset : ∃ p, parse "x += 1" .standard = .ok p ∧
    ¬ (p.diagnostics.map (·.span.start)).Nodup := by
  have hstarts : (parse "x += 1" .standard).toOption.map (fun p => p.diagnostics.map (·.span.start)) =
      some [3, 0, 3] := by
    decide +kernel
  cases hp : parse "x += 1" .standard with
  | error e =>
    rw [hp] at hstarts
    cases hstarts
  | ok p =>
    rw [hp] at hstarts
    have hstarts : p.diagnostics.map (·.span.start) = [3, 0, 3] := Option.some.inj hstarts
    exact ⟨p, rfl, by rw [hstarts]; decide⟩

end LuaTree
