import LuaTree.Proofs.Abreast.Parse
import LuaTree.Proofs.Nesting.Statement

/-!
# Proofs/Nesting/Parse — how deep a parse goes

Where nothing is reported without a nesting limit, the limit is reached just where the tree needs more
levels than it allows (`limit_reached_iff`).
-/

namespace LuaTree

open LuaTree.Parser

namespace Parser

variable {i : Input} {s s' s₀ s₁ : State} {x : Closed} {K : List Tree → Prop} {P : Tree → Prop} {m N : Nat}

namespace Nesting

/-! ## Counted productions -/

theorem Ready.deeper (hs : Ready i s) : Ready i s.deeper := fun hclean => { hs hclean with }

theorem Read.upper (hs : Ready i s) (h : Read i s.deeper s' True [] K) : Read i s s'.upper True [] K := by
  intro hclean
  obtain ⟨-, hsettled, F, hg, hF⟩ := h hclean
  have hs := hs (hg.clean_of_clean hclean)
  exact ⟨trivial, hsettled, F, ⟨hg.toGrows.upper hs.toCoherent, hg.named⟩, hF⟩

theorem Made.upper (hs : Ready i s) (h : Made i s.deeper s' x P) : Made i s s'.upper x P := by
  intro hclean
  obtain ⟨hsettled, hx, b, hg, hevent, hP⟩ := h hclean
  have hs := hs (hg.clean_of_clean hclean)
  exact ⟨hsettled, hx, b, ⟨hg.toGrows.upper hs.toCoherent, hg.named⟩, hevent, hP⟩

theorem Finds.nested {p : Parser (Option Closed)} (hp : Finds false p) : Finds true (nested p) := by
  intro i s hs
  have hbelow (hclean : s.Clean) : s.limitReached = false := (hs.unclaimed hclean).2
  refine (Costs.nested hbelow (hp i s.deeper hs.deeper)).mono ?_
  rintro a _ _ - ⟨t, h, rfl, ha, rfl⟩
  match a, ha with
  | none, ⟨hh, hl, hnext⟩ => exact ⟨congrArg (· + 1) hh, hl.upper hs, hnext⟩
  | some x, ⟨m, hh, hx⟩ => exact ⟨m, congrArg (· + 1) hh, hx.upper hs⟩

/-- **Every counted production goes one level deeper** than what it reads needs. -/
theorem enters : ∀ n, Enters (Production.enter n)
  | 0 => ⟨fun _ _ _ _ _ => .fault, fun _ _ _ => .fault, fun _ _ _ => .fault, fun _ => Logs.fault _⟩
  | n + 1 => by
    have he := enters n
    refine ⟨fun levels hlevels => (he.operations levels hlevels).nested, he.unaries.nested, fun i s hs => ?_,
      Nesting.unclaimed.entered (logs_unclaimed.chainStatement unclaimed_bailOut) (n + 1)⟩
    have hall : Costs 0 (do
        Production.statements (Production.enter n)
        return none : Parser (Option Closed)) i s.deeper fun _ s' h => Row i s.deeper s' True [] false h :=
      (he.allStatements i s.deeper hs.deeper).bind fun _ _ _ h => .pure fun hclean => (h hclean).2
    refine (Costs.nested (fun hclean => (hs.unclaimed hclean).2) hall).mono ?_
    rintro _ _ _ - ⟨t, h, rfl, hr, rfl⟩
    exact ⟨h, rfl, Read.upper hs hr⟩

/-! ## Whole sources -/

/-- What is left over is reported. -/
theorem garbage_dirty (hs : Unclaimed s) (n : Nat) :
    Yields (Production.garbage (Production.enter n)) i s fun _ s' => ¬ s'.Clean := by
  have hprefixed := (Logs.prefixed.compositional prefixed_bailOut).congruence
  have hchain {enter enter' : Enter}
      (he : Congruence.Enters (fun _ _ p _ => Keeps _ p) enter enter') :=
    Logs.prefixed.chainStatement prefixed_bailOut he
  refine (logs_unclaimed.start i s).bind fun o s₁ h₁ => .assoc ?_
  refine (logs_unclaimed.currentSpan i s₁).bind fun span s₂ h₂ =>
    (report_dirty (h₂ (h₁ hs)) _).bind fun _ s₃ hdirty => ?_
  have he := hprefixed.entered hchain 0 n
  exact (hprefixed.leftovers hchain he (Answer.refl o) i s₃).mono fun _ s₄ hprefix hclean =>
    hdirty (State.clean_of_prefix hprefix hclean)

/-- The drafts of a tree that needs some levels were recorded between two states. -/
def Whole (i : Input) (s s' : State) (m : Nat) : Prop :=
  ∃ F, Draws i s s' [.grown (.node .chunk F)] ∧ (Branch.node .chunk F).tree.need = m

theorem finish_chunk {o : Opening} (w : Row i s₀ s (Opens i s₀ o .blank) [.blank] false m) :
    Costs m (Production.finish o .chunk) i s fun _ s' h => Whole i s₀ s' h := by
  have hcomplete : Costs 0 (complete o .chunk) i s fun _ s' h => h = 0 ∧ Whole i s₀ s' m := by
    refine .word (.complete o _) fun hclean => ?_
    obtain ⟨ho, -, F, hg, hF⟩ := w hclean
    refine (Yields.of_ensures (Grows.complete ho hg.toGrows)).mono ?_
    rintro _ s' ⟨⟨hg', -⟩, -⟩
    refine ⟨hg'.depth.trans hg.depth.symm, F, ⟨hg', ?_⟩, ?_⟩
    · exact ⟨⟨Kind.noConfusion, hg.named⟩, trivial⟩
    · rw [Branch.tree, Tree.need_node (by decide)]
      change max 0 (Tree.needOfList false (Draft.treesOfList F)) = m at hF
      rwa [Nat.zero_max] at hF
  exact hcomplete.level fun _ s₁ h => .pure fun hclean => (h hclean).2

/-- **A run over a whole source goes as deep as the tree needs** that it records. -/
theorem chunk_costs (hs : s.Clean → s.Coherent i) :
    Costs 0 Production.chunk i s fun _ s' h => Whole i s s' h := by
  have hchunk (n : Nat) : Costs 0 (do
      let o ← start
      wrapUnknown
      Production.block (Production.enter n)
      if !(← isAtEnd) then Production.garbage (Production.enter n)
      Production.finish o .chunk) i s fun _ s' h => Whole i s s' h := by
    have hstart : Costs 0 start i s fun o s' h => h = 0 ∧ (s.Clean → Opens i s o .blank ∧ Draws i s s' [.blank]) :=
      .word .start fun _ => .get (.modifying (.pure
        ⟨rfl, fun hclean => ⟨opens_start (hs hclean), .blank (hs hclean), trivial⟩⟩))
    refine hstart.level fun o s₁ h₁ => ?_
    have hwrap : Costs 0 wrapUnknown i s₁ fun _ s' h => h = 0 ∧ Light i s s' (Opens i s o .blank) [.blank] := by
      refine .word .wrapUnknown fun hclean₁ => ?_
      obtain ⟨hclean, h⟩ := h₁ hclean₁
      obtain ⟨ho, hg⟩ := h hclean
      refine (Yields.of_ensures (wrapUnknown_outlook hg.coherent)).mono fun _ s₂ ⟨hg', _, hsettled⟩ => ?_
      exact ⟨hg'.depth, fun _ => ⟨ho, hsettled, _, hg.trans hg', fun t ht => (light_of_unknown ht).1⟩⟩
    refine hwrap.level fun _ s₂ w => ?_
    have w : Light i s s₂ (Opens i s o .blank) [.blank] := fun hclean => (w hclean).2 hclean
    refine (w.blank false).step (enters n).block fun _ s₃ h w => Row.look w (.isAt _) fun b s₄ w => ?_
    split
    · refine (Costs.reporting (Q := fun _ _ _ => False) (garbage_dirty w.ready.unclaimed n)).bind
        fun _ s₅ M hfalse => ?_
      have w : Row i s s₅ (Opens i s o .blank) [.blank] false M := fun hclean => (hfalse hclean).2.elim
      exact finish_chunk w
    · exact finish_chunk (by simpa using w)
  exact .bound (f := fun n => do
      let o ← start
      wrapUnknown
      Production.block (Production.enter n)
      if !(← isAtEnd) then Production.garbage (Production.enter n)
      Production.finish o .chunk) (hchunk i.bound)

end Nesting

end Parser

/-- **A parse that reports nothing goes as deep as its tree needs**: the limit has room for that, and under
each limit that has, the parse is the same. -/
theorem parse_of_limit {source : String} {settings : Settings} {p : Parse} (hp : parse source settings = .ok p)
    (hclean : p.diagnostics = []) : (∀ k ∈ settings.limit, p.tree.need ≤ k) ∧
      ∀ limit : Option Nat, (∀ k ∈ limit, p.tree.need ≤ k) → parse source { settings with limit } = .ok p := by
  obtain ⟨s₁, s, hs₁, -, hdepth, hcomments, hrun, hend, hg₁, htree, hdiagnostics⟩ := run_of_parse hp
  have hclean' : s.Clean := Array.toList_eq_nil_iff.1 (hdiagnostics.symm.trans hclean)
  obtain ⟨-, h, hd, F, hg, hneed⟩ := Nesting.chunk_costs (fun _ => hs₁) () s hrun hclean'
  have hgrows := growsFrom_of_draws hg₁ hg hend htree hdiagnostics
  have hdeep : p.tree.need = h := by
    rw [← Tree.need_withoutTrivia, hgrows.withoutTrivia, hneed, Nat.zero_max]
  have hroom (limit : Option Nat) : Nesting.Room limit s₁.depth h ↔ ∀ k ∈ limit, p.tree.need ≤ k := by
    rw [hdeep, hdepth]
    exact forall₂_congr fun k _ => by omega
  refine ⟨(hroom _).1 hd.room, fun limit hlimit => ?_⟩
  -- the other parse begins with the same comments and goes on in the same way
  obtain ⟨q, hq, -⟩ := parse_conforms source { settings with limit }
  obtain ⟨t₁, t, -, -, -, hcomments', hrun', -, -, htree', hdiagnostics'⟩ := run_of_parse hq
  have hfirst := (Impartial.reportUnfinishedComments (lex source)).limited (.ofSource source settings)
    limit (.initial (lex source))
  obtain rfl : s₁ = t₁ := by simpa using hcomments.symm.trans (hfirst.symm.trans hcomments')
  obtain rfl : s = t := by simpa using (hd.same limit ((hroom limit).2 hlimit)).symm.trans hrun'
  obtain ⟨tree, diagnostics⟩ := p
  obtain ⟨tree', diagnostics'⟩ := q
  obtain rfl : tree = tree' := by simpa using htree.symm.trans htree'
  obtain rfl : diagnostics = diagnostics' := hdiagnostics.trans hdiagnostics'.symm
  exact hq

/-- **The nesting limit is reached just where the tree needs more levels than it allows**, as long as
nothing is reported without a limit. -/
theorem limit_reached_iff (source : String) (bare : BareExpressions) : ∃ p, parse source ⟨none, bare⟩ = .ok p ∧
    (p.diagnostics = [] → ∀ n, ∃ q, parse source ⟨some n, bare⟩ = .ok q ∧
      ((∃ d ∈ q.diagnostics, d.problem = .recursionLimitExceeded) ↔ n < p.tree.need)) := by
  obtain ⟨p, hp, -⟩ := parse_conforms source ⟨none, bare⟩
  refine ⟨p, hp, fun hclean n => ?_⟩
  obtain ⟨q, p', hq, hp', hsame, -⟩ := limit_transparent source bare n none nofun
  obtain rfl : p = p' := by simpa [hp] using hp'
  refine ⟨q, hq, ⟨fun ⟨d, hd, hproblem⟩ => ?_, fun hdeep => ?_⟩⟩
  · by_contra hneed
    have hlimited := (parse_of_limit hp hclean).2 (some n) fun k hk => by
      cases hk
      omega
    obtain rfl : p = q := by simpa [hlimited] using hq
    simp [hclean] at hd
  · by_contra hnone
    have hnone : ∀ d ∈ q.diagnostics, d.problem ≠ .recursionLimitExceeded := fun d hd hproblem =>
      hnone ⟨d, hd, hproblem⟩
    obtain rfl := hsame hnone
    have := (parse_of_limit hq hclean).1 n rfl
    omega

end LuaTree
