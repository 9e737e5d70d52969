import LuaTree.Proofs.Shape

/-!
# Proofs/Silence — whether anything is reported depends on the kinds of the tokens

A report is left out only where there is one already, so a run that has reported nothing was never asked to
(`Outlook.Frank`).  Where two sources have tokens of the same kinds, one of them is asked whenever the other
one is, unfinished strings and comments apart; so if nothing is reported for the one, nothing is reported for
the other (`silent_of_kinds`).
-/

namespace LuaTree

open LuaTree.Parser

namespace Outlook

/-- **Nothing keeps the first report from being made.** -/
def Frank (a : Outlook) : Prop := a.diagnostics = [] → a.lastReported = none ∧ a.limitReached = false

variable {a b : Outlook} {d : Diagnostic} {l : Token × Nat} {ls ms : List (Token × Nat)}

theorem Adds.ne_nil {P : Diagnostic → Prop} (h : a.Adds P b) (ha : a.diagnostics ≠ []) : b.diagnostics ≠ [] := by
  obtain ⟨ds, hds, -⟩ := h
  rw [hds]
  exact List.append_ne_nil_of_left_ne_nil ha ds

theorem Frank.of_ne_nil (h : a.diagnostics ≠ []) : a.Frank := fun hnil => absurd hnil h

/-- Whoever is asked to report has reported. -/
theorem Frank.told_ne_nil (h : a.Frank) (d : Diagnostic) : (a.told d).diagnostics ≠ [] := by
  by_cases hnil : a.diagnostics = []
  · obtain ⟨hlast, hlimit⟩ := h hnil
    simp [told, hlast, hlimit]
  · exact (adds_told (P := fun _ => True) a trivial).ne_nil hnil

theorem Frank.told (h : a.Frank) (d : Diagnostic) : (a.told d).Frank := .of_ne_nil (h.told_ne_nil d)

/-- Unknown characters in front are reported, and nothing else is. -/
theorem passed_eq_nil_iff (h : a.Frank) : (a.passed ls).diagnostics = [] ↔
    a.diagnostics = [] ∧ ∀ l ∈ ls.head?, l.1.kind ≠ .invalidChar := by
  cases ls with
  | nil => simp [passed]
  | cons l ls =>
    rw [passed]
    split
    · rename_i hl
      have htold := h.told_ne_nil ⟨.unexpectedCharacter, l.1.span, none, []⟩
      have hpassed : ((a.told ⟨.unexpectedCharacter, l.1.span, none, []⟩).passed ls).diagnostics ≠ [] :=
        (adds_passed (P := fun _ => True) _ fun _ _ _ => trivial).ne_nil htold
      simp [hpassed, hl]
    · rename_i hl
      simp [hl]

theorem Frank.passed (h : a.Frank) (ls : List (Token × Nat)) : (a.passed ls).Frank := by
  induction ls generalizing a with
  | nil => exact h
  | cons l ls ih =>
    rw [Outlook.passed]
    split
    · exact ih (h.told _)
    · exact h

/-- An unfinished string is reported. -/
theorem unquoted_eq_nil_iff (h : a.Frank) (t : Token) : (a.unquoted t ls).diagnostics = [] ↔
    a.diagnostics = [] ∧ Token.closesString? t.kind t.text.toList ≠ some false := by
  rw [unquoted]
  split
  · rename_i hopen
    have hfrank : Frank { a with ahead := ls } := h
    simp [hfrank.told_ne_nil, hopen]
  · rename_i hclosed
    simp [hclosed]

theorem Frank.unquoted (h : a.Frank) (t : Token) (ls : List (Token × Nat)) : (a.unquoted t ls).Frank := by
  have hfrank : Frank { a with ahead := ls } := h
  rw [Outlook.unquoted]
  split
  · exact hfrank.told _
  · exact hfrank

theorem Frank.advance (h : a.Frank) : a.advance.Frank := by
  rw [Outlook.advance]
  split
  · exact h
  · exact (h.unquoted _ _).passed _

theorem advance_eq_nil_iff (h : a.Frank) (hl : a.ahead = l :: ls) : a.advance.diagnostics = [] ↔
    (a.diagnostics = [] ∧ Token.closesString? l.1.kind l.1.text.toList ≠ some false) ∧
      ∀ m ∈ ls.head?, m.1.kind ≠ .invalidChar := by
  rw [advance, hl]
  change (settle _).diagnostics = [] ↔ _
  rw [settle, ahead_unquoted, passed_eq_nil_iff (h.unquoted _ _), unquoted_eq_nil_iff h]

theorem bail_ne_nil (h : a.Frank) (limit size : Nat) : (a.bail limit size).diagnostics ≠ [] := by
  rw [bail]
  split
  · rename_i hlimit
    exact fun hnil => by simp [(h hnil).2] at hlimit
  · simp

/-- Two runs with tokens of the same kinds ahead, of which the second one is silent if the first one is. -/
structure Hushed (a b : Outlook) : Prop where
  kinds : a.ahead.map (·.1.kind) = b.ahead.map (·.1.kind)
  limitReached : a.limitReached = b.limitReached
  left : a.Frank
  right : b.Frank
  silent : a.diagnostics = [] → b.diagnostics = []

/-- Unknown characters stand in the same places. -/
theorem known_of_kinds (hkinds : ls.map (·.1.kind) = ms.map (·.1.kind))
    (h : ∀ l ∈ ls.head?, l.1.kind ≠ .invalidChar) : ∀ m ∈ ms.head?, m.1.kind ≠ .invalidChar := by
  have hheads : ls.head?.map (·.1.kind) = ms.head?.map (·.1.kind) := by
    rw [← List.head?_map, ← List.head?_map, hkinds]
  intro m hm
  rw [Option.mem_def.1 hm] at hheads
  obtain ⟨l, hl, hkind⟩ := Option.map_eq_some_iff.1 hheads
  exact fun hm => h l hl (hkind.trans hm)

namespace Hushed

theorem told (h : a.Hushed b) (d e : Diagnostic) : (a.told d).Hushed (b.told e) where
  kinds := by simpa using h.kinds
  limitReached := by simpa using h.limitReached
  left := h.left.told d
  right := h.right.told e
  silent hnil := absurd hnil (h.left.told_ne_nil d)

theorem settle (h : a.Hushed b) : a.settle.Hushed b.settle where
  kinds := by simpa using kinds_dropWhile h.kinds
  limitReached := by simpa using h.limitReached
  left := h.left.passed _
  right := h.right.passed _
  silent hnil := by
    obtain ⟨hnil, hknown⟩ := (passed_eq_nil_iff h.left).1 hnil
    exact (passed_eq_nil_iff h.right).2 ⟨h.silent hnil, known_of_kinds h.kinds hknown⟩

theorem advance (h : a.Hushed b) {m : Token × Nat} (hl : a.ahead = l :: ls) (hm : b.ahead = m :: ms)
    (hclosed : Token.closesString? m.1.kind m.1.text.toList ≠ some false) : a.advance.Hushed b.advance := by
  have hkinds := h.kinds
  rw [hl, hm, List.map_cons, List.map_cons, List.cons.injEq] at hkinds
  refine ⟨?_, by simpa using h.limitReached, h.left.advance, h.right.advance, fun hnil => ?_⟩
  · rw [ahead_advance hl, ahead_advance hm, kinds_dropWhile hkinds.2]
  · obtain ⟨⟨hnil, -⟩, hknown⟩ := (advance_eq_nil_iff h.left hl).1 hnil
    exact (advance_eq_nil_iff h.right hm).2 ⟨⟨h.silent hnil, hclosed⟩, known_of_kinds hkinds.2 hknown⟩

theorem bail (h : a.Hushed b) (limit size size' : Nat) : (a.bail limit size).Hushed (b.bail limit size') where
  kinds := by
    rw [Outlook.bail, Outlook.bail, h.limitReached]
    split
    · exact h.kinds
    · rfl
  limitReached := by rw [limitReached_bail, limitReached_bail]
  left := .of_ne_nil (bail_ne_nil h.left limit size)
  right := .of_ne_nil (bail_ne_nil h.right limit size')
  silent hnil := absurd hnil (bail_ne_nil h.left limit size)

end Hushed

end Outlook

/-- **Silence is kept by every word**, if no string of the second source is unfinished. -/
def Parser.Bond.hushed {i j : Input} (settings : i.settings = j.settings)
    (hclosed : ∀ t ∈ j.tokens, Token.closesString? t.kind t.text.toList ≠ some false) : Bond i j where
  Holds _ _ a b _ _ := a.Hushed b
  Spans _ _ := True
  settings := settings
  now := id
  trans _ h := h
  blank_left := .rfl
  blank_right := .rfl
  wrapping := id
  close h _ _ _ _ := h
  kinds {_ _ a b _ _} h := by
    have hsignificant (a : Outlook) :
        a.significant.map Token.kind = (a.ahead.map (·.1.kind)).filter Kind.isSignificant := by
      rw [← Function.comp_def Token.kind, ← List.map_map, List.filter_map]
      rfl
    rw [hsignificant, hsignificant, h.kinds]
  span _ _ _ := trivial
  spanOf _ _ _ _ _ _ _ _ _ := trivial
  told h _ _ _ _ _ _ := h.told _ _
  settle h _ _ := h.settle
  advance h _ hb hl hm := h.advance hl hm (hclosed _ (hb.faces.mem (by rw [hm]; exact List.mem_cons_self)).1)
  bail limit h _ _ := h.bail limit _ _

variable {source source' : String} {settings : Settings} {p q : Parse}

/-- **Where nothing is reported for a source, nothing is reported for another one whose tokens have the same
kinds**, unless a string or a comment of that one is unfinished. -/
theorem silent_of_kinds (h : (lex source).map Token.kind = (lex source').map Token.kind)
    (hstrings : ∀ t ∈ lex source', Token.closesString? t.kind t.text.toList ≠ some false)
    (hcomments : ∀ t ∈ lex source', Token.closesComment? t.kind t.text.toList ≠ some false)
    (hp : parse source settings = .ok p) (hq : parse source' settings = .ok q) (hnil : p.diagnostics = []) :
    q.diagnostics = [] := by
  have hfrank {i : Input} {a : Outlook} (ha : a.Begins i) : a.Frank := fun _ => ⟨ha.lastReported, ha.limitReached⟩
  have hsilent {b : Outlook} (hb : b.Begins (.ofSource source' settings)) : b.diagnostics = [] := by
    rw [hb.comments, Token.unfinishedComments, List.map_eq_nil_iff, List.filter_eq_nil_iff]
    exact fun t ht => by simpa using hcomments t ht
  obtain ⟨a₀, b₀, a, b, F, G, -, -, hholds, hF, hG⟩ :=
    (Bond.hushed (i := .ofSource source settings) (j := .ofSource source' settings) rfl hstrings).parses
      (fun a b ha hb => ⟨by rw [ha.ahead, hb.ahead]; exact kinds_solidFrom h,
        ha.limitReached.trans hb.limitReached.symm, hfrank ha, hfrank hb, fun _ => hsilent hb⟩) hp hq
  rw [hG.diagnostics]
  exact hholds.silent (hF.diagnostics ▸ hnil)

end LuaTree
