import LuaTree.Proofs.Appending
import LuaTree.Proofs.Ending

/-!
# Proofs/Seam — the last semicolon of a source

Where nothing is reported, the last semicolon of a source is read in the list of its statements, unless a
`return` takes it: no other statement ends with one, and a semicolon that is left over would be reported.  So
with more tokens behind it a run comes to this semicolon as well, with the same drafts recorded, and goes on
from there (`exists_seam`).
-/

namespace LuaTree

open LuaTree.Parser LuaTree.Grammar Nesting

namespace State

variable {i j : Input} {s s' : State} {behind : List Token} {ds : Array Diagnostic}

/-- As long as nothing is reported, the semicolon is left, or nothing at all. -/
theorem Later.pending_or (h : s.Later s') (hs : s.Pending) (hclean : s'.Clean) : s'.Pending ∨ s'.rest = [] := by
  by_cases hnil : s'.rest = []
  · exact .inr hnil
  · obtain ⟨us, hus⟩ := h.rest
    obtain ⟨t, hlast, ht⟩ := hs.semicolon
    refine .inl ⟨hclean, t, ?_, ht⟩
    rwa [← hus, List.getLast?_append_of_ne_nil _ hnil] at hlast

theorem Pending.getLast?_ahead (hs : s.Pending) :
    ∃ l ∈ s.ahead.getLast?, l.1.kind = .semicolon ∧ l.2 + 1 = s.position + s.rest.length := by
  obtain ⟨t, hlast, ht⟩ := hs.semicolon
  obtain ⟨ts, hts⟩ := List.getLast?_eq_some_iff.1 hlast
  refine ⟨(t, s.position + ts.length), ?_, ht, by simp [hts, Nat.add_assoc]⟩
  rw [ahead, hts, solidFrom_append, solidFrom, ht]
  exact List.getLast?_concat ..

theorem Coherent.onto (hj : j.Sound) (htokens : j.tokens = i.tokens ++ behind) (hs : s.Coherent i)
    (hclean : s.Clean) : (s.onto behind ds).Coherent j where
  input := hj
  rest := by
    change s.rest ++ behind = j.tokens.drop s.position
    rw [htokens, List.drop_append_of_le_length hs.position_le, ← hs.rest]
  position_le := by
    rw [htokens, List.length_append]
    exact hs.position_le.trans (Nat.le_add_right ..)
  reported _ := hs.reported hclean

theorem Coherent.position_add (hs : s.Coherent i) : s.position + s.rest.length = i.tokens.length := by
  rw [hs.rest, List.length_drop, Nat.add_sub_cancel' hs.position_le]

theorem Coherent.ahead_onto (hs : s.Coherent i) :
    (s.onto behind ds).ahead = s.ahead ++ solidFrom i.tokens.length behind := by
  change solidFrom s.position (s.rest ++ behind) = _
  rw [solidFrom_append, hs.position_add]
  rfl

end State

namespace Parser

variable {i j : Input} {s s' : State} {behind : List Token} {ds : Array Diagnostic} {F : List Draft} {c : Nat}
  {L : Language Tree}

/-- The same drafts are recorded on a longer source. -/
theorem Draws.onto (hj : j.Sound) (htokens : j.tokens = i.tokens ++ behind) (h : Draws i s s' F)
    (hclean : s'.Clean) : Draws j (s.onto behind ds) (s'.onto behind ds) F := by
  refine ⟨⟨h.before.onto hj htokens (h.clean_of_clean hclean), h.coherent.onto hj htokens hclean, h.events, ?_,
    h.depth, List.prefix_rfl⟩, h.named⟩
  rw [h.before.ahead_onto, h.coherent.ahead_onto, h.ahead, List.append_assoc]

/-- Where nothing was reported, a row without gaps was read. -/
theorem Since.draws (h : Reads false i c s s' L) (hclean : s'.Clean) :
    ∃ F, Draws i s s' F ∧ ConformInList false (Draft.treesOfList F) ∧ Draft.treesOfList F ∈ L := by
  obtain ⟨-, -, F, hg, hf, -⟩ := h
  obtain ⟨hconform, hF⟩ := hf (.inl hclean)
  rw [List.nil_append] at hg hconform hF
  rw [(Tree.Conforms.derivesInList hconform).2] at hF
  refine ⟨F, ⟨hg, Tree.EverywhereInList.mono (fun k cs hcs => ?_) _ hconform⟩, hconform, hF⟩
  rintro rfl
  exact hcs

/-- The rounds of a list of statements. -/
abbrev statementRounds (n m : Nat) : Parser Unit :=
  rounds (fun _ => Production.statementRound (Production.enter n)) m ()

/-- Nothing is read where a list of statements ends without a `return`. -/
theorem draws_of_done (h : Reads false i c s s' (1 + node .returnStatement)) (hclean : s'.Clean)
    (hreturn : ∀ F, Draws i s s' F → ∀ cs, Tree.node .returnStatement cs ∉ Draft.treesOfList F) :
    ∃ F, Draws i s s' F ∧ Draft.treesOfList F = [] := by
  obtain ⟨F, hF, -, hrow⟩ := h.draws hclean
  refine ⟨F, hF, ?_⟩
  rcases hrow with hnil | ⟨cs, hcs⟩
  · exact hnil
  · exact absurd (by rw [hcs]; exact List.mem_singleton_self _) (hreturn F hF cs)

/-- So it does not end in front of the last semicolon. -/
theorem ahead_of_done (h : Reads false i c s s' (1 + node .returnStatement)) (hs : s.Pending) (hclean : s'.Clean)
    (hreturn : ∀ F, Draws i s s' F → ∀ cs, Tree.node .returnStatement cs ∉ Draft.treesOfList F) : s'.ahead ≠ [] := by
  intro hend
  obtain ⟨F, hF, hnil⟩ := draws_of_done h hclean hreturn
  obtain ⟨l, hl, -⟩ := hs.getLast?_ahead
  have hleaves := Draft.leaves_treesOfList F
  rw [hnil] at hleaves
  rw [hF.ahead, List.map_eq_nil_iff.1 hleaves.symm, hend] at hl
  cases hl

/-- Where no token is left, no round reads any. -/
theorem draws_of_nothing {n : Nat} : ∀ (m : Nat), Reads false i 48 s s 1 → s.remaining = 0 →
    statementRounds n m i s = .ok ((), s') → s'.Clean →
    (∀ F, Draws i s s' F → ∀ cs, Tree.node .returnStatement cs ∉ Draft.treesOfList F) →
    ∃ F, Draws i s s' F ∧ Draft.treesOfList F = []
  | 0, _, _, hrun, _, _ => nomatch hrun
  | m + 1, w, hnothing, hrun, hclean, hreturn => by
    obtain ⟨r, s₁, hround, hrest⟩ := run_bind hrun
    have hreads := Yields.of_ensures (Production.statementRound_reads (Production.enters_enter false i n)
      (hnothing.trans_le (Nat.zero_le n)) w) r s₁ hround
    cases r with
    | again x =>
      have hlt := hreads.2
      omega
    | done a =>
      cases hrest
      exact draws_of_done hreads hclean hreturn

/-- A round that takes the last semicolon takes nothing else. -/
theorem eq_semicolon_of_round {D : List Draft} {l : Token × Nat} (hl : l ∈ s.ahead.getLast?)
    (hkind : l.1.kind = .semicolon) (hahead : s.ahead = Draft.leavesOfList D)
    (hconform : ConformInList false (Draft.treesOfList D))
    (hrow : Draft.treesOfList D ∈ Grammar.statement false + token .semicolon) :
    s.ahead = [l] ∧ Draft.treesOfList D = [l.1.tree] := by
  have hleaves : Tree.leavesOfList (Draft.treesOfList D) = s.ahead.map (·.1.leaf) := by
    rw [Draft.leaves_treesOfList, hahead]
  rcases hrow with ⟨k, hk, cs, hD⟩ | ⟨x, hD⟩
  · -- no statement ends with a semicolon
    have htrailing : ∀ k ∈ statementKinds false, k ∉ trailing := by decide
    rw [hD] at hconform hleaves
    obtain ⟨u, hu, hne⟩ := Tree.Conforms.endedInList hconform _ rfl (htrailing k hk)
    rw [hleaves, List.getLast?_map, show s.ahead.getLast? = some l from hl] at hu
    obtain rfl : l.1.leaf = u := Option.some.inj hu
    exact absurd hkind hne
  · rw [hD] at hleaves ⊢
    obtain ⟨m, hm, hleaf⟩ := List.map_eq_singleton_iff.1 hleaves.symm
    obtain rfl : m = l := by simpa [hm] using hl
    exact ⟨hm, by rw [Token.tree, hkind, ← (Prod.mk.inj hleaf).2]⟩

/-- A round that leaves no token took the last semicolon and nothing else, and no round behind it takes anything. -/
theorem draws_of_last {n m : Nat} {s₁ : State} {D : List Draft} (hs : s.Pending) (hD : Draws i s s₁ D)
    (hconform : ConformInList false (Draft.treesOfList D))
    (hrow : Draft.treesOfList D ∈ Grammar.statement false + token .semicolon) (hnil : s₁.rest = [])
    (w : Reads false i 48 s₁ s₁ 1) (hrest : statementRounds n m i s₁ = .ok ((), s')) (hclean : s'.Clean)
    (hreturn : ∀ F, Draws i s₁ s' F → ∀ cs, Tree.node .returnStatement cs ∉ Draft.treesOfList F) :
    ∃ l F, s.ahead = [l] ∧ l.1.kind = .semicolon ∧ Draws i s s' F ∧ Draft.treesOfList F = [l.1.tree] := by
  obtain ⟨l, hl, hkind, -⟩ := hs.getLast?_ahead
  have hnothing : s₁.ahead = [] := by rw [State.ahead, hnil]; rfl
  have hahead : s.ahead = Draft.leavesOfList D := by rw [hD.ahead, hnothing, List.append_nil]
  obtain ⟨hsingle, htree⟩ := eq_semicolon_of_round hl hkind hahead hconform hrow
  have hremaining : s₁.remaining = 0 := by
    rw [State.remaining, State.significant, hnil]
    rfl
  obtain ⟨F, hF, hF'⟩ := draws_of_nothing m w hremaining hrest hclean hreturn
  refine ⟨l, D ++ F, hsingle, hkind, hD.trans hF, ?_⟩
  rw [Draft.treesOfList_append, htree, hF', List.append_nil]

/-- **The way to the last semicolon is the same on a longer source**: the run there records the same drafts and
comes to the semicolon as well. -/
theorem exists_seam (hsettings : i.settings = j.settings) {n : Nat} (k : Nat) {t' : State} : ∀ (m m' : Nat) {s : State},
    Reads false i 48 s s 1 → s.remaining ≤ n → s.Known → s.Pending →
    statementRounds n m i s = .ok ((), s') → s'.Clean → s'.ahead = [] →
    (∀ F, Draws i s s' F → ∀ cs, Tree.node .returnStatement cs ∉ Draft.treesOfList F) →
    statementRounds (n + k) m' j (s.onto behind ds) = .ok ((), t') →
    ∃ s₁ S F l m₁, Draws i s s₁ S ∧ s₁.Settled ∧ s₁.Pending ∧ s₁.ahead = [l] ∧ l.1.kind = .semicolon ∧
      Draws i s s' F ∧ Draft.treesOfList F = Draft.treesOfList S ++ [l.1.tree] ∧
      statementRounds (n + k) m₁ j (s₁.onto behind ds) = .ok ((), t')
  | 0, _, _, _, _, _, _, hrun, _, _, _, _ => nomatch hrun
  | _ + 1, 0, _, _, _, _, _, _, _, _, _, hrun' => nomatch hrun'
  | m + 1, m' + 1, s, w, hn, hknown, hs, hrun, hclean, hend, hreturn, hrun' => by
    obtain ⟨r, s₁, hround, hrest⟩ := run_bind hrun
    obtain ⟨r', t₁, hround', hrest'⟩ := run_bind hrun'
    have happends : Appends i j behind ds (Production.statementRound (Production.enter n))
        (Production.statementRound (Production.enter (n + k))) := .statementRound hsettings n k
    have hlater := happends.retains.later hround
    have hreads := Yields.of_ensures (Production.statementRound_reads (Production.enters_enter false i n) hn w)
      r s₁ hround
    cases r with
    | done a =>
      cases hrest
      exact absurd hend (ahead_of_done hreads hs hclean hreturn)
    | again x =>
      obtain ⟨hreads, hlt⟩ := hreads
      have hclean₁ : s₁.Clean := State.clean_of_prefix ((retains.rounds
        (fun _ => happends.retains) m ()).later hrest).diagnostics hclean
      obtain ⟨D, hD, hconform, hrow⟩ := hreads.draws hclean₁
      have hbehind (F : List Draft) (hF : Draws i s₁ s' F) (cs : List Tree) :
          Tree.node .returnStatement cs ∉ Draft.treesOfList F := fun hmem =>
        hreturn _ (hD.trans hF) cs (by
          rw [Draft.treesOfList_append]
          exact List.mem_append_right _ hmem)
      rcases hlater.pending_or hs hclean₁ with hs₁ | hnil
      · -- the semicolon is left
        obtain ⟨hr, rfl⟩ := happends.same s w.sound.reported hknown hs _ _ _ _ hround hround' hs₁
        cases hr
        obtain ⟨s₂, S, F, u, m₁, hS, hrest⟩ := exists_seam hsettings k m m' hreads.restart (hlt.le.trans hn)
          (hlater.known hknown) hs₁ hrest hclean hend hbehind hrest'
        obtain ⟨hsettled, hpending, hahead, hkind, hF, htrees, hrun⟩ := hrest
        refine ⟨s₂, D ++ S, D ++ F, u, m₁, hD.trans hS, hsettled, hpending, hahead, hkind, hD.trans hF, ?_, hrun⟩
        rw [Draft.treesOfList_append, Draft.treesOfList_append, htrees, List.append_assoc]
      · -- the round took the semicolon
        obtain ⟨l, F, hahead, hkind, hF, htrees⟩ :=
          draws_of_last hs hD hconform hrow hnil hreads.restart hrest hclean hbehind
        refine ⟨s, [], F, l, m' + 1, .refl w.sound.toCoherent, w.settled, hs, hahead, hkind, hF, ?_, hrun'⟩
        rw [htrees]
        rfl

end Parser

end LuaTree
