import LuaTree.Proofs.Parts
import LuaTree.Proofs.Reading.Entry

/-!
# Proofs/Reading/Table — what table constructors read

A name that was consumed to look behind it leaves nothing when it is given back, so the field is then
read as if it had not been touched.
-/

namespace LuaTree.Production

open LuaTree.Parser Grammar Computability

variable {gaps : Bool} {i : Input} {c n : Nat} {s s' s₀ : State} {enter : Enter}

section

variable (he : Enters gaps i n enter) (hn : s.remaining < n)
include he hn

theorem positionalField_reads : Recognizes gaps i c c (positionalField enter) s
    (ifTrue (node .tableField)) fun b s' => b → s'.remaining < s.remaining := by
  refine .intro fun w => w.start fun o s₁ ho w hstill => ?_
  refine w.step (he.operation (Nat.zero_le 10) (hstill.remaining.trans_lt hn)) (Nat.le_refl c) ?_
  rintro (_ | x) s₂ w hle hlt <;> rw [one_mul] at w
  · exact (Ensures.abandon ho w).bind fun _ s₃ ⟨hr, _⟩ => .pure ⟨hr, nofun⟩
  · refine w.finish ho (by decide) (fun _ => le_add_self) fun s₃ hr heq => .pure ⟨hr, fun _ => ?_⟩
    exact heq.trans_lt (hstill.remaining ▸ hlt rfl)

theorem field_reads : Recognizes gaps i 10 16 (field enter) s
    (ifTrue (node .tableField)) fun b s' => b → s'.remaining < s.remaining := by
  refine .intro fun w₀ => w₀.start fun o s₁ ho w hstill => w.peek (by decide) fun w => ?_
  have hrem : s₁.look.remaining = s.remaining := hstill.remaining
  split
  · rename_i hnext
    refine w.bump hnext (by decide) fun s₂ w hlt _ => ?_
    refine w.eat (by decide) (by decide) (fun s₃ _ w hlt' => ?_) fun _ w => ?_
    · refine w.step (expectExpression_reads he (by omega)) (Nat.le_refl 0) fun _ s₄ w hle _ => ?_
      rw [one_mul] at w
      refine w.finish ho (by decide) (fun _ => le_self_add.trans le_self_add) fun s₅ hr heq => ?_
      exact .pure ⟨hr.weaken (by decide), fun _ => by omega⟩
    · obtain ⟨-, -, F, hg, -⟩ := w
      refine (Grows.rollback ho hg).bind ?_
      rintro _ _ rfl
      refine .last (w₀.restart.refresh.step (positionalField_reads (s := s.refresh) he hn)
        (Nat.le_refl 0) fun b s₃ w _ hlt => ?_)
      rw [one_mul] at w
      exact .pure ⟨w.weaken (by decide), hlt⟩
  · rename_i hnext
    refine .currentSpan w.sound.toCoherent fun opened _ => ?_
    refine w.bump hnext (by decide) fun s₂ w hlt _ => ?_
    refine w.step (expectExpression_reads he (by omega)) (Nat.le_refl 0) fun _ s₃ w hle _ => ?_
    refine w.expectClosing (by decide) (by decide) fun _ s₄ w hle => ?_
    refine w.expect (by decide) (by decide) fun _ s₅ w hle => ?_
    refine w.step (expectExpression_reads he (by omega)) (Nat.le_refl _) fun _ s₆ w hle _ => ?_
    rw [one_mul] at w
    refine w.finish ho (by decide) (fun _ => le_add_self.trans le_self_add) fun s₅ hr heq => ?_
    exact .pure ⟨hr.weaken (by decide), fun _ => by omega⟩
  · refine (Ensures.abandon ho w).bind fun _ s₂ ⟨w, hstill'⟩ => ?_
    have hrem₂ : s₂.remaining = s.remaining := hstill'.remaining.trans hrem
    refine .last (w.step (positionalField_reads he (hrem₂.trans_lt hn)) (Nat.le_refl _) fun b s₃ w _ hlt => ?_)
    rw [one_mul] at w
    exact .pure ⟨w.weaken (by decide), fun hb => (hlt hb).trans_eq hrem₂⟩

omit he hn in
/-- The separator behind a field, or behind one that is missing. -/
theorem separator_reads {s₁ : State} {L : Language Tree} (w : Reads gaps i 18 s s₁ L)
    (hdone : L ≤ 1 + node .tableField)
    (hagain : (s₁.Clean ∨ gaps) → L ≤ hole gaps (node .tableField)) :
    Ensures fieldSeparator i s₁ (RoundReads gaps i 8 20 s
      (hole gaps (node .tableField) * node .tableFieldSeparator) (1 + node .tableField)) := by
  have hle := w.remaining_le
  refine (w.mono (le_refl _) hagain).isAtOneOf (by decide) (fun hsep w' => ?_) fun _ _ => ?_
  · refine w'.step (single_reads_of_mem hsep (by decide) (by decide) (le_refl _)) (le_refl _) ?_
    exact fun _ s₂ w' _ hlt => .pure ⟨w'.weaken (by decide), hlt.trans_le hle⟩
  · exact .pure (w.look.mono (by decide) fun _ => hdone)

theorem fieldRound_reads (w : Reads gaps i 8 s s 1) :
    Ensures (fieldRound enter) i s (RoundReads gaps i 8 20 s
      (hole gaps (node .tableField) * node .tableFieldSeparator) (1 + node .tableField)) := by
  refine w.isAt (by decide) (fun _ w => .pure (w.mono (by decide) fun _ => le_self_add)) fun _ w => ?_
  refine w.isAt (by decide) (fun _ w => .pure (w.mono (by decide) fun _ => le_self_add)) fun _ w => ?_
  refine w.step (field_reads (s := s.look.look) he hn) (le_refl _) ?_
  rintro (_ | _) s₁ w hle hlt <;> rw [one_mul] at w
  · refine w.isAtOneOf (by decide) (fun _ w => ?_) fun _ w =>
      .pure (w.mono (by decide) fun _ => le_self_add)
    refine w.problem fun s₂ w hdirty _ => ?_
    refine separator_reads (w.weaken (by decide)) le_self_add fun hgaps => ?_
    obtain rfl : gaps = true := hgaps.resolve_left hdirty
    exact one_le_hole
  · exact separator_reads (w.weaken (by decide)) le_add_self fun _ => le_hole

theorem fields_reads : Recognizes gaps i 8 20 (loop () fun _ => fieldRound enter) s
    (fun _ => (hole gaps (node .tableField) * node .tableFieldSeparator)∗ * (1 + node .tableField))
    fun _ _ => True :=
  loop_reads (le_refl s.remaining) fun _ hn' w => fieldRound_reads he (hn'.trans_lt hn) w

end

theorem table_closes (he : Enters gaps i n enter) (hn : s.remaining ≤ n) (hc : c < State.maxLooks)
    (w : Reads gaps i c s s 1) (hnext : s.next = .braceOpen) :
    Ensures (table enter) i s fun x s' =>
      Closes gaps i 21 s s' x (around .tableExpression (production gaps .tableExpression)) ∧
        s'.remaining < s.remaining := by
  have hs := w.sound
  refine w.require hc hnext fun w => w.restart.beginNoted hnext (by decide) fun o opened s₁ ho w hlt => ?_
  refine w.step (fields_reads he (hlt.trans_le hn)) (by decide) fun _ s₂ w hle _ => ?_
  refine w.expectClosing (by decide) (by decide) fun _ s₃ w hle' => ?_
  rw [← mul_assoc] at w
  refine (Ensures.complete ho w (by decide) fun _ => le_refl _).mono fun x s' ⟨hx, hstill⟩ => ?_
  exact ⟨hx.of_look hs, hstill.remaining.trans_lt (hle'.trans_lt (hle.trans_lt hlt))⟩

theorem table_reads (he : Enters gaps i n enter) (hn : s.remaining ≤ n) (hc : c < State.maxLooks)
    (hnext : s.next = .braceOpen) : Recognizes gaps i c 21 (table enter) s
      (fun _ => node .tableExpression) fun _ s' => s'.remaining < s.remaining :=
  .intro fun w => (table_closes he hn hc w hnext).mono fun _ _ h => ⟨h.1.node, h.2⟩

end LuaTree.Production
