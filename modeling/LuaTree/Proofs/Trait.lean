import LuaTree.Proofs.Abreast.Parse

/-!
# Proofs/Trait — one run by itself

A run and the same run again are two runs that are told alike.  So what every word keeps of a single run is
a bond (`Trait.bond`), and holds of a parse from its beginning to its end (`Trait.parses`).
-/

namespace LuaTree.Parser

/-- **What every word keeps of a run**, between two moments and of the drafts recorded meanwhile. -/
structure Trait (i : Input) where
  Holds : Outlook → Outlook → List Draft → Prop
  /-- Which spans the words tell of. -/
  Spans : Span → Prop
  now : ∀ {a₀ a F}, Holds a₀ a F → Holds a a []
  trans : ∀ {a₀ a a' F F'}, Holds a₀ a F → Holds a a' F' → Holds a₀ a' (F ++ F')
  blank : ∀ {a₀ a F}, Holds a₀ a (.blank :: F) ↔ Holds a₀ a F
  wrapping : ∀ {a₀ a b}, Holds a₀ a [.grown b] → Holds a₀ a [.wrapping b]
  close : ∀ {a₀ a d F k}, Holds a₀ a (d :: F) → d.Waits → k ≠ .error → (k = .garbage → a₀.ahead ≠ []) →
    Holds a₀ a [.grown (d.close k F)]
  span : ∀ {a : Outlook}, a.Ready i → Spans (a.span i.size)
  spanOf : ∀ {a₀ a : Outlook} {ls x}, a₀.Ready i → a.Ready i → a₀.ahead = ls ++ a.ahead →
    SpanOf a i.size ls x → Spans x
  told : ∀ {a₀ a F d}, Holds a₀ a F → a.Ready i → Spans d.span → a.Recalls i d →
    d.problem ∉ Problem.ungrammatical → Holds a₀ (a.told d) F
  settle : ∀ {a}, Holds a a [] → a.Faces i → Holds a a.settle (unknownNodes a.ahead)
  advance : ∀ {a l ls}, Holds a a [] → a.Ready i → a.ahead = l :: ls →
    Holds a a.advance (.leaf l.2 l.1 :: unknownNodes ls)
  bail : ∀ {a} limit, Holds a a [] → a.Ready i → Holds a (a.bail limit i.size) a.aside

namespace Trait

variable {i : Input}

/-- **A trait of a run is a bond** between the run and itself. -/
def bond (T : Trait i) : Bond i i where
  Holds a₀ _ a b F _ := a.ahead = b.ahead ∧ a.limitReached = b.limitReached ∧ T.Holds a₀ a F
  Spans x _ := T.Spans x
  settings := rfl
  now h := ⟨h.1, h.2.1, T.now h.2.2⟩
  trans h h' := ⟨h'.1, h'.2.1, T.trans h.2.2 h'.2.2⟩
  blank_left := ⟨fun h => ⟨h.1, h.2.1, T.blank.1 h.2.2⟩, fun h => ⟨h.1, h.2.1, T.blank.2 h.2.2⟩⟩
  blank_right := .rfl
  wrapping h := ⟨h.1, h.2.1, T.wrapping h.2.2⟩
  close h hd _ hk hg := ⟨h.1, h.2.1, T.close h.2.2 hd hk fun h => (hg h).1⟩
  kinds h := by rw [Outlook.significant, Outlook.significant, h.1]
  span _ ha _ := T.span ha
  spanOf _ ha _ ha₀ _ hF _ hx _ := T.spanOf ha₀ ha hF hx
  told h ha _ hd hleft _ hproblem := by
    refine ⟨?_, ?_, T.told h.2.2 ha hd.span hleft hproblem⟩
    · rw [Outlook.ahead_told, Outlook.ahead_told, h.1]
    · rw [Outlook.limitReached_told, Outlook.limitReached_told, h.2.1]
  settle h ha _ := by
    refine ⟨?_, ?_, T.settle h.2.2 ha⟩
    · rw [Outlook.ahead_settle, Outlook.ahead_settle, h.1]
    · rw [Outlook.limitReached_settle, Outlook.limitReached_settle, h.2.1]
  advance h ha _ hl _ := by
    refine ⟨?_, ?_, T.advance h.2.2 ha hl⟩
    · rw [Outlook.ahead_advance hl, Outlook.ahead_advance (h.1 ▸ hl)]
    · rw [Outlook.limitReached_advance, Outlook.limitReached_advance, h.2.1]
  bail limit h ha _ := by
    refine ⟨?_, ?_, T.bail limit h.2.2 ha⟩
    · rw [Outlook.bail, Outlook.bail, h.2.1]
      split
      · exact h.1
      · rfl
    · rw [Outlook.limitReached_bail, Outlook.limitReached_bail]

variable {source : String} {settings : Settings} {p : Parse}

/-- **A trait that a parse begins with is one of the whole parse.** -/
theorem parses (T : Trait (.ofSource source settings))
    (hT : ∀ a : Outlook, a.Begins (.ofSource source settings) → T.Holds a a [])
    (hp : parse source settings = .ok p) : ∃ a₀ a F, a₀.Begins (.ofSource source settings) ∧
      T.Holds a₀ a [.grown (.node .chunk F)] ∧ p.GrowsFrom (lex source) a F := by
  obtain ⟨a₀, _, a, _, F, _, ha₀, -, ⟨-, -, h⟩, hF, -⟩ := T.bond.parses
    (fun a b ha hb => ⟨ha.ahead.trans hb.ahead.symm, ha.limitReached.trans hb.limitReached.symm, hT a ha⟩) hp hp
  exact ⟨a₀, a, F, ha₀, h, hF⟩

end Trait

end LuaTree.Parser
