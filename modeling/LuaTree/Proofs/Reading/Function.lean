import LuaTree.Production.Function
import LuaTree.Proofs.Reading.Entry

/-!
# Proofs/Reading/Function — what parameters and bodies of functions read
-/

namespace LuaTree.Production

open LuaTree.Parser Grammar Computability

variable {gaps : Bool} {i : Input} {c n : Nat} {s s' s₀ : State} {enter : Enter}

/-! ## Parameters -/

/-- Between two parameters: nothing was read yet, or a comma that one more follows. -/
def BetweenParameters (gaps : Bool) (i : Input) (c : Nat) (s₀ s : State) : Prop :=
  Reads gaps i c s₀ s 1 ∨
    Reads gaps i c s₀ s (someNames * token .comma) ∧ (s.next = .ident ∨ s.next = .ellipsis)

theorem someNames_le_parameters : someNames ≤ parameters gaps :=
  (le_mul_of_one_le_right' (one_le_extra.trans le_add_self)).trans le_add_self

theorem BetweenParameters.name_le (h : BetweenParameters gaps i c s₀ s) :
    ∃ L, Reads gaps i c s₀ s L ∧ L * node .name ≤ someNames ∧ L * token .ellipsis ≤ parameters gaps ∧
      (s.next ≠ .ident → s.next ≠ .ellipsis → L ≤ parameters gaps) := by
  rcases h with w | ⟨w, hnext⟩
  · refine ⟨1, w, ?_, ?_, fun _ _ => le_self_add.trans le_self_add⟩
    · rw [one_mul]
      exact name_le_someNames
    · rw [one_mul]
      exact le_add_self.trans le_self_add
  · refine ⟨_, w, someNames_mul_le, ?_, fun h₁ h₂ => absurd hnext (by tauto)⟩
    rw [mul_assoc]
    exact (mul_le_mul_right le_self_add _).trans le_add_self

theorem parameterRound_reads (h : BetweenParameters gaps i 8 s₀ s) :
    Ensures parameterRound i s (Ensures.RoundTo State.remaining
      (fun _ => BetweenParameters gaps i 8 s₀)
      (fun _ s' => Reads gaps i 16 s₀ s' (parameters gaps)) s) := by
  obtain ⟨L, w, hname, hellipsis, hnone⟩ := h.name_le
  refine w.peek (by decide) fun w => ?_
  split
  · rename_i hident
    refine w.step (name_reads (by decide) hident) (le_refl _) fun _ s₁ w _ ⟨_, hlt⟩ => ?_
    have w := w.mono (le_refl 0) fun _ => hname
    refine w.isAt (by decide) (fun hcomma w => ?_) fun _ w => ?_
    swap
    · exact .pure (w.mono (by decide) fun _ => someNames_le_parameters)
    refine w.bump hcomma (by decide) fun s₂ w hlt' _ => w.peek (by decide) fun w => ?_
    have hlt₂ : s₂.remaining < s.remaining := hlt'.trans hlt
    split
    · rename_i hnext
      exact .pure ⟨.inr ⟨w.weaken (by decide), .inl hnext⟩, hlt₂⟩
    · rename_i hnext
      exact .pure ⟨.inr ⟨w.weaken (by decide), .inr hnext⟩, hlt₂⟩
    · rename_i hnext _
      refine w.unmet (by decide) (by decide) hnext fun s₃ w _ hdirty => .pure ?_
      refine w.mono (by decide) fun hgaps => ?_
      obtain rfl : gaps = true := hgaps.resolve_left hdirty
      exact (mul_le_mul_right (le_extra.trans le_add_self) _).trans le_add_self
  · rename_i hnext
    refine w.bump hnext (by decide) fun s₁ w _ _ => .pure ?_
    exact w.mono (by decide) fun _ => hellipsis
  · rename_i h₁ h₂
    exact .pure (w.mono (by decide) fun _ => hnone h₁ h₂)

theorem parameters_reads : Recognizes gaps i 8 16 (loop () fun _ => parameterRound) s
    (fun _ => parameters gaps) fun _ _ => True := by
  refine .intro fun w => ?_
  have hbound : s.remaining < i.bound :=
    (State.remaining_le_length w.sound.toCoherent).trans_lt w.sound.input.bound
  refine (Ensures.loop (.inl w) hbound fun _ _ h => parameterRound_reads h).mono ?_
  exact fun _ _ hr => ⟨hr, trivial⟩

theorem parameterList_reads : Recognizes gaps i 8 17 parameterList s (fun _ => node .parameterList)
    fun _ _ => True := by
  refine .intro fun w => w.start fun o s₁ ho w _ => .currentSpan w.sound.toCoherent fun opened _ => ?_
  refine w.expectOr (by decide) (by decide) (fun s₂ _ w _ => ?_) fun s₂ _ w _ hdirty => ?_
  · refine w.step parameters_reads (by decide) fun _ s₃ w _ _ => ?_
    refine w.expectClosing (by decide) (by decide) fun _ s₄ w _ => ?_
    refine finish_reads w ho (by decide) (fun _ => ?_) (le_refl _)
    rw [one_mul]
    exact le_hole
  · refine finish_reads w ho (by decide) (fun hgaps => ?_) (by decide)
    obtain rfl : gaps = true := hgaps.resolve_left hdirty
    exact one_le_hole

section

variable (he : Enters gaps i n enter) (hn : s.remaining < n)
include he hn

theorem functionBody_reads {keyword : Span} : Recognizes gaps i 8 32 (functionBody enter keyword) s
    (fun _ => node .functionBody) fun _ _ => True := by
  refine .intro fun w => w.start fun o s₁ ho w hstill => ?_
  refine w.step parameterList_reads (le_refl _) fun _ s₂ w hle _ => ?_
  refine w.step (block_reads he (hle.trans_lt (hstill.remaining.trans_lt hn))) (le_refl _) fun _ s₃ w _ _ => ?_
  refine w.expectClosing (by decide) (by decide) fun _ s₄ w _ => ?_
  refine finish_reads w ho (by decide) (fun _ => ?_) (by decide)
  rw [one_mul]
  rfl

end

theorem functionExpression_closes (he : Enters gaps i n enter) (hn : s.remaining ≤ n) (hc : c < State.maxLooks)
    (w : Reads gaps i c s s 1) (hnext : s.next = .kwFunction) :
    Ensures (functionExpression enter) i s fun x s' =>
      Closes gaps i 32 s s' x (around .functionExpression (token .kwFunction * node .functionBody)) ∧
        s'.remaining < s.remaining := by
  have hs := w.sound
  refine w.require hc hnext fun w => w.restart.beginNoted hnext (by decide) fun o keyword s₁ ho w hlt => ?_
  refine w.step (functionBody_reads he (hlt.trans_le hn)) (by decide) fun _ s₂ w hle _ => ?_
  refine (Ensures.complete ho w (by decide) fun _ => le_refl _).mono fun x s' ⟨hx, hstill⟩ => ?_
  exact ⟨hx.of_look hs, hstill.remaining.trans_lt (hle.trans_lt hlt)⟩

end LuaTree.Production
