import LuaTree.Production.Table
import LuaTree.Proofs.Writing.Entry

/-!
# Proofs/Writing/Table — table constructors are written

An expression never goes on with `=` behind its first name, so a field without a name is read from its
start again, and a field with one is not.
-/

namespace LuaTree.Production

open LuaTree.Parser Grammar Computability

variable {i : Input} {enter : Enter} {us : Leaves} {cs : List Tree} {t : Tree}

/-- What follows a field. -/
def fieldEnd : KindSet := KindSet.fieldSeparators.union (.ofList [.braceClose])

/-- What a field begins with. -/
def fieldFirst : KindSet := KindSet.expressionFirst.union (.ofList [.bracketOpen])

theorem stops_of_mem_fieldEnd : ∀ k ∈ Kind.all, k ∈ fieldEnd → Stops 0 k ∧ k ≠ .equals := by
  decide +kernel

theorem first_field (h : (Tree.node .tableField cs).Delimited) (us : Leaves) :
    first (Tree.leavesOfList [.node .tableField cs] ++ us) ∈ fieldFirst := by
  rw [Tree.leavesOfList_node]
  have hrow : cs ∈ token .ident * token .equals * Grammar.expression false +
      token .bracketOpen * Grammar.expression false * token .bracketClose * token .equals *
        Grammar.expression false + Grammar.expression false := h.row
  rcases hrow with (⟨_, ⟨_, ⟨x, rfl⟩, vs, -, rfl⟩, ws, -, rfl⟩ | hindexed) | ⟨k, hk, ds, rfl, -⟩
  · exact (by decide : Kind.ident ∈ fieldFirst)
  · obtain ⟨_, ⟨_, ⟨_, ⟨_, ⟨x, rfl⟩, vs, -, rfl⟩, ws, -, rfl⟩, xs, -, rfl⟩, ys, -, rfl⟩ := hindexed
    exact (by decide : Kind.bracketOpen ∈ fieldFirst)
  · have hbegins := (begins_expression hk (h.child (t := .node k ds) (by simp))).1
    exact (show Within KindSet.expressionFirst fieldFirst by decide +kernel).mem (hbegins.first us)

theorem separator_builds (h : (Tree.node .tableFieldSeparator cs).Delimited) :
    Builds i (single .tableFieldSeparator) (.node .tableFieldSeparator cs) us := by
  obtain ⟨k, -, x, rfl⟩ := h.row
  exact single_builds

theorem first_separator (h : (Tree.node .tableFieldSeparator cs).Delimited) (us : Leaves) :
    first (Tree.leavesOfList [.node .tableFieldSeparator cs] ++ us) ∈ KindSet.fieldSeparators := by
  obtain ⟨k, hk, x, rfl⟩ := h.row
  exact hk

section

variable (he : Accepts i enter)
include he

theorem positionalField_writes (h : t.Delimited) (ht : [t] ∈ Grammar.expression false)
    (hus : Stops 0 (first us)) :
    Writes i (positionalField enter) [.node .tableField [t]] us (· = true) := by
  intro s hs
  refine hs.children.wrote.start fun o s₁ ho w => w.step (he.operation (Nat.zero_le 10) h ht hus) ?_
  rintro (_ | y) s₂ w ha
  · simp at ha
  · exact w.finish ho fun s₃ w => .pure ⟨w, rfl⟩

/-- **A field is told by its first token**, and a name by the one behind it. -/
theorem field_writes (h : (Tree.node .tableField cs).Delimited) (hus : first us ∈ fieldEnd) :
    Writes i (field enter) [.node .tableField cs] us (· = true) := by
  have hrow : cs ∈ token .ident * token .equals * Grammar.expression false +
      token .bracketOpen * Grammar.expression false * token .bracketClose * token .equals *
        Grammar.expression false + Grammar.expression false := h.row
  obtain ⟨hstops, hequals⟩ := stops_of_mem_fieldEnd _ (Kind.mem_all _) hus
  intro s hs
  refine hs.children.wrote.start fun o s₁ ho w => ?_
  rcases hrow with (hnamed | hindexed) | hpositional
  · obtain ⟨_, ⟨_, ⟨x, rfl⟩, _, ⟨y, rfl⟩, rfl⟩, _, ht, rfl⟩ := hnamed
    obtain ⟨k, -, ds, rfl, -⟩ := id ht
    simp only [Tree.leavesOfList_append, List.append_assoc] at w
    refine w.peek rfl fun w => w.bump fun s₂ w => w.eat fun s₃ w => ?_
    refine w.step (expectExpression_writes he (h.child (by simp)) ht hstops) fun _ s₄ w _ => ?_
    exact w.finish ho fun s₅ w => .pure ⟨w, rfl⟩
  · obtain ⟨_, ⟨_, ⟨_, ⟨_, ⟨x, rfl⟩, _, ht, rfl⟩, _, ⟨y, rfl⟩, rfl⟩, _, ⟨z, rfl⟩, rfl⟩, _, ht', rfl⟩ :=
      hindexed
    obtain ⟨k, -, ds, rfl, -⟩ := id ht
    obtain ⟨l, -, es, rfl, -⟩ := id ht'
    simp only [Tree.leavesOfList_append, List.append_assoc] at w
    refine w.peek rfl fun w => w.currentSpan fun opened => w.bump fun s₂ w => ?_
    refine w.step (expectExpression_writes he (h.child (by simp)) ht ?_) fun _ s₃ w _ => ?_
    · exact (by decide : Stops 0 .bracketClose)
    refine w.expectClosing fun s₄ w => w.expect fun s₅ w => ?_
    refine w.step (expectExpression_writes he (h.child (by simp)) ht' hstops) fun _ s₆ w _ => ?_
    exact w.finish ho fun s₇ w => .pure ⟨w, rfl⟩
  · obtain ⟨k, hk, ds, rfl, -⟩ := id hpositional
    have ht := h.child (t := .node k ds) (by simp)
    obtain ⟨l, hl, x, vs, hleaves, hname⟩ := (begins_expression hk ht).1
    have hfirst : first (Tree.leavesOfList [.node k ds] ++ us) = l := by rw [hleaves]; rfl
    refine w.peek hfirst fun w => ?_
    split
    · rw [hleaves] at w
      refine w.bump fun s₂ w => w.notEat (first_append_ne (hname rfl) hequals) fun w => ?_
      refine w.rollback hs ho fun w => .last ?_
      exact w.step (positionalField_writes he ht hpositional hstops) fun _ s₃ w hb => .pure ⟨w, hb⟩
    · exact absurd hl (by decide)
    · refine w.abandon ho fun s₂ w => .last ?_
      rw [← Tree.leavesOfList_node .tableField] at w
      exact w.step (positionalField_writes he ht hpositional hstops) fun _ s₃ w hb => .pure ⟨w, hb⟩

/-- A field with a separator behind it. -/
theorem fieldRound_again {row : List Tree} (hrow : row ∈ node .tableField * node .tableFieldSeparator)
    (hd : ∀ t ∈ row, t.Delimited) : Writes i (fieldRound enter) row us (· = .again ()) := by
  obtain ⟨_, ⟨ds, rfl⟩, _, ⟨es, rfl⟩, rfl⟩ := hrow
  have hfield := hd (.node .tableField ds) (by simp)
  have hseparator := hd (.node .tableFieldSeparator es) (by simp)
  intro s hs
  have w := hs.wrote
  simp only [Tree.leavesOfList_append, List.append_assoc] at w
  have hfirst := first_field hfield (Tree.leavesOfList [.node .tableFieldSeparator es] ++ us)
  have hnext := first_separator hseparator us
  refine w.notAt (fun h => ?_) fun w => w.notAt (fun h => ?_) fun w => ?_
  · exact absurd (h ▸ hfirst) (by decide)
  · exact absurd (h ▸ hfirst) (by decide)
  refine w.step (field_writes he hfield ?_) ?_
  · exact (show Within KindSet.fieldSeparators fieldEnd by decide +kernel).mem hnext
  rintro _ s₁ w rfl
  refine w.isAtOneOf hnext fun w => ?_
  exact w.step (separator_builds hseparator).writes fun _ s₂ w _ => .pure ⟨w, rfl⟩

/-- The last field, or none. -/
theorem fieldRound_done {last : List Tree} (hlast : last ∈ 1 + node .tableField)
    (hd : ∀ t ∈ last, t.Delimited) (hus : first us = .braceClose) :
    Writes i (fieldRound enter) last us (· = .done ()) := by
  intro s hs
  rcases hlast with rfl | ⟨ds, rfl⟩
  · exact hs.wrote.isAt hus fun w => .pure ⟨w, rfl⟩
  · have hfield := hd (.node .tableField ds) (List.mem_singleton_self _)
    have hfirst := first_field hfield us
    refine hs.wrote.notAt (fun h => ?_) fun w => w.notAt (fun h => ?_) fun w => ?_
    · exact absurd (h ▸ hfirst) (by decide)
    · exact absurd (h ▸ hfirst) (by decide)
    refine w.step (field_writes he hfield (by rw [hus]; decide)) ?_
    rintro _ s₁ w rfl
    exact w.notAtOneOf (by rw [hus]; decide) fun w => .pure ⟨w, rfl⟩

theorem fields_writes (hcs : cs ∈ (node .tableField * node .tableFieldSeparator)∗ * (1 + node .tableField))
    (hd : ∀ t ∈ cs, t.Delimited) (hus : first us = .braceClose) :
    Writes i (loop () fun _ => fieldRound enter) cs us fun _ => True := by
  obtain ⟨fs, hfs, last, hlast, rfl⟩ := hcs
  refine star_writes (P := fun _ => True) (fun row hrow hrowd _ _ => fieldRound_again he hrow hrowd)
    (fun _ _ _ _ => trivial) trivial ?_ hfs fun t ht => hd t (List.mem_append_left _ ht)
  exact fieldRound_done he hlast (fun t ht => hd t (List.mem_append_right _ ht)) hus

theorem table_builds (h : (Tree.node .tableExpression cs).Delimited) :
    Builds i (table enter) (.node .tableExpression cs) us := by
  have hrow : cs ∈ token .braceOpen * (node .tableField * node .tableFieldSeparator)∗ *
      (1 + node .tableField) * token .braceClose := h.row
  rw [mul_assoc (token .braceOpen)] at hrow
  obtain ⟨_, ⟨_, ⟨x, rfl⟩, fs, hfs, rfl⟩, _, ⟨y, rfl⟩, rfl⟩ := hrow
  intro s hs
  refine hs.wrote.require rfl fun w => ?_
  refine w.toAt.children.wrote.start fun o s₁ ho w => w.currentSpan fun opened => ?_
  simp only [Tree.leavesOfList_append, List.append_assoc] at w
  refine w.bump fun s₂ w => ?_
  refine w.step (fields_writes he hfs (fun t ht => h.child (by simp [ht])) (by rfl)) fun _ s₃ w _ => ?_
  refine w.expectClosing fun s₄ w => .last (w.complete ho fun y s' hy => ?_)
  exact .pure (hy.of_look hs.coherent)

end

end LuaTree.Production
