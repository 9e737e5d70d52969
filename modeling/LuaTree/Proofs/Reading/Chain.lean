import LuaTree.Production.Chain
import LuaTree.Proofs.Reading.Table

/-!
# Proofs/Reading/Chain — what chains of suffixes read

A chain is wrapped suffix by suffix.  What is wrapped is a chain, except behind a method, which is no
chain before it is called; then arguments follow, so that the next suffix is the call.
-/

namespace LuaTree.Production

open LuaTree.Parser Grammar Computability

variable {gaps : Bool} {i : Input} {c n : Nat} {s s' s₀ : State} {enter : Enter} {x : Closed}

/-! ## Arguments -/

/-- What the arguments of a call begin with. -/
def beginsArguments (k : Kind) : Prop := k = .parenOpen ∨ k = .braceOpen ∨ k ∈ KindSet.strings

theorem atArguments_step {α : Type} {f : Bool → Parser α} {Q : α → State → Prop} {L : Language Tree}
    {ds : List Draft} (w : Since gaps i c s₀ s ds L) (hc : c < State.maxLooks)
    (yes : beginsArguments s.next → Since gaps i (c + 1) s₀ s.look ds L → Ensures (f true) i s.look Q)
    (no : ¬ beginsArguments s.next → Since gaps i (c + 1) s₀ s.look ds L →
      Ensures (f false) i s.look Q) : Ensures (atArguments >>= f) i s Q := by
  refine .assoc (w.peek hc fun w => ?_)
  split
  · rename_i h
    exact yes (.inl h) w
  · rename_i h
    exact yes (.inr (.inl h)) w
  · rename_i h₁ h₂
    by_cases hs : s.next ∈ KindSet.strings
    · rw [KindSet.mem_iff_contains.1 hs]
      exact yes (.inr (.inr hs)) w
    · rw [Bool.eq_false_iff.2 (mt KindSet.mem_iff_contains.2 hs)]
      exact no (by rintro (h | h | h) <;> contradiction) w

theorem arguments_reads (he : Enters gaps i n enter) (hn : s.remaining ≤ n)
    (hnext : beginsArguments s.next) : Recognizes gaps i 30 24 (arguments enter) s
      (fun _ => node .argumentList) fun _ s' => s'.remaining < s.remaining := by
  refine .intro fun w => w.start fun o s₁ ho w hstill => w.peek (by decide) fun w => ?_
  have hrem : s₁.look.remaining = s.remaining := hstill.remaining
  have hnext₁ : s₁.next = s.next := hstill.next
  split
  · rename_i hbrace
    refine w.step (table_reads (s := s₁.look) he (by omega) (by decide) hbrace) (le_refl _) ?_
    intro _ s₂ w _ hlt
    rw [one_mul] at w
    refine finish_consumed w ho (by decide) (fun _ => le_self_add.trans le_self_add) (by decide) ?_
    omega
  split
  · rename_i hstring
    refine w.step (single_reads_of_mem (s := s₁.look) hstring (by decide) (by decide) (le_refl _))
      (le_refl _) ?_
    intro _ s₂ w _ hlt
    rw [one_mul] at w
    refine finish_consumed w ho (by decide) (fun _ => le_add_self.trans le_self_add) (by decide) ?_
    omega
  · rename_i h₁ h₂
    have hparen : s₁.look.next = .parenOpen := hnext₁.trans
      (hnext.resolve_right fun h => h.elim (hnext₁ ▸ h₁) (hnext₁ ▸ h₂))
    refine .currentSpan w.sound.toCoherent fun opened _ => ?_
    refine w.expectOr (by decide) (by decide) (fun s₂ _ w hlt => ?_)
      fun _ h _ _ _ => absurd hparen h
    rw [one_mul] at w
    have hclose : ∀ {s₃ : State} {L : Language Tree}, L ≤ 1 + node .expressionList →
        Since gaps i 23 s s₃ [.blank] (token .parenOpen * L) → s₃.remaining ≤ s₂.remaining →
        Ensures (do
          let _ ← expectClosing .parenClose "argument list opened here" opened
          finish o .argumentList) i s₃ fun _ s' =>
            Reads gaps i 24 s s' (node .argumentList) ∧ s'.remaining < s.remaining := by
      intro s₃ L hL w hle
      refine w.expectClosing (by decide) (by decide) fun _ s₄ w hle' => ?_
      refine finish_consumed w ho (by decide) (fun _ => ?_) (le_refl _) (by omega)
      exact (mul_le_mul_left (mul_le_mul_right hL _) _).trans le_add_self
    refine w.isAt (by decide) (fun _ w => ?_) fun _ w => ?_
    · exact hclose le_self_add (by simpa using w.weaken (by decide)) (le_refl _)
    · refine w.step (expressionList_reads (s := s₂.look) he (by simp; omega) (by decide)) (le_refl _) ?_
      rintro (_ | _) s₃ w hle _
      · exact hclose le_self_add (w.weaken (by decide)) hle
      · exact hclose le_add_self (w.weaken (by decide)) hle

/-! ## Suffixes -/

/-- **A chain that is being read**: it is a chain, or a method whose arguments follow. -/
structure Chained (gaps : Bool) (i : Input) (c : Nat) (s₀ s : State) (x : Closed) : Prop where
  node : Closes gaps i c s₀ s x (nodeOf chainKinds)
  chain : ¬ beginsArguments s.next → Closes gaps i c s₀ s x (Grammar.chain gaps)

theorem Chained.of_chain (h : Closes gaps i c s₀ s x (Grammar.chain gaps)) : Chained gaps i c s₀ s x where
  node := h.mono (le_refl c) fun _ => chain_le_nodeOf
  chain _ := h

/-- An index that names no method is a chain again; so is a method where something was reported. -/
theorem complete_index {M : Language Tree} {d : Draft} {o : Opening} (ho : Opens i s₀ o d)
    (w : Since gaps i c s₀ s [d] (Grammar.chain gaps * M)) (hM : M ≤ selector gaps)
    (hcolon : s.Clean → M ≤ free .colon) : Ensures (complete o .indexExpression) i s fun x s' =>
      Closes gaps i c s₀ s' x (Grammar.chain gaps) ∧ s.Still s' := by
  refine (Ensures.complete ho w (by decide) fun _ => mul_le_mul_right hM _).mono ?_
  refine fun x s' ⟨hx, hstill⟩ => ⟨hx.mono (le_refl c) fun hgaps => ?_, hstill⟩
  refine around_le_chain (by decide) fun _ => (hgaps.imp_left hstill.clean.1).imp_left fun h => ?_
  exact mul_le_free (chain_le_nodeOf.trans (nodeOf_le_free (by decide))) (hcolon h)

/-- **After one round** what was read is still chained and fewer tokens remain, or the chain is read. -/
def Suffixed (gaps : Bool) (i : Input) (s₀ s : State) : Round Closed Closed → State → Prop :=
  Ensures.RoundTo State.remaining (fun x s' => Chained gaps i 24 s₀ s' x)
    (fun x s' => Closes gaps i 26 s₀ s' x (Grammar.chain gaps) ∧ s'.remaining ≤ s.remaining) s

/-- Where no arguments begin, what is chained is a chain. -/
theorem Chained.chain_look {k : Kind} (h : Chained gaps i 24 s₀ s x) (hnext : s.next = k)
    (hbegins : ¬ beginsArguments k) : Closes gaps i 25 s₀ s.look x (Grammar.chain gaps) :=
  (h.chain (hnext ▸ hbegins)).look

theorem dot_reads (h : Chained gaps i 24 s₀ s x) (hnext : s.next = .dot) :
    Ensures (suffixRound enter x) i s (Suffixed gaps i s₀ s) := by
  refine h.node.reads.peek (by decide) fun _ => ?_
  rw [hnext]
  refine .precede (h.chain_look hnext (by unfold beginsArguments; decide)) fun o b s₁ ho w hstill => ?_
  refine w.bump (hstill.next.trans hnext) (by decide) fun s₂ w hlt _ => ?_
  refine w.expect (by decide) (by decide) fun _ s₃ w hle => ?_
  rw [mul_assoc] at w
  refine (complete_index ho w dot_le_selector fun _ => ?_).bind fun x s₄ ⟨hx, hstill'⟩ => ?_
  · exact mul_le_free (token_le_free (by decide)) (hole_le_free (token_le_free (by decide)))
  · refine .pure ⟨.of_chain (hx.mono (by decide) fun _ => le_refl _), ?_⟩
    exact hstill'.remaining.trans_lt (hle.trans_lt (hlt.trans_eq hstill.remaining))

/-- A method is no chain yet; where no arguments follow, that is reported, and it counts as one. -/
theorem colon_reads (h : Chained gaps i 24 s₀ s x) (hnext : s.next = .colon) :
    Ensures (suffixRound enter x) i s (Suffixed gaps i s₀ s) := by
  refine h.node.reads.peek (by decide) fun _ => ?_
  rw [hnext]
  refine .precede (h.chain_look hnext (by unfold beginsArguments; decide)) fun o b s₁ ho w hstill => ?_
  refine w.bump (hstill.next.trans hnext) (by decide) fun s₂ w hlt _ => ?_
  have hlt₂ : s₂.remaining < s.remaining := hlt.trans_eq hstill.remaining
  refine w.expectOr (by decide) (by decide) (fun s₃ _ w hlt' => ?named) fun s₃ _ w heq hdirty => ?nameless
  case named =>
    have w := w.present
    rw [mul_assoc] at w
    refine (Ensures.complete ho w (by decide) fun _ => mul_le_mul_right colon_le_selector _).bind ?_
    refine fun x s₄ ⟨hx, hstill'⟩ => ?_
    have hlt₄ : s₄.remaining < s.remaining := hstill'.remaining.trans_lt (hlt'.trans hlt₂)
    refine atArguments_step hx.reads (by decide) (fun hnext _ => ?_) fun _ _ => ?_
    · refine .pure ⟨⟨hx.look.mono (by decide) fun _ => around_le_nodeOf (by decide), ?_⟩, hlt₄⟩
      exact fun h => absurd hnext h
    · refine hx.look.problem fun s₅ hx hdirty hstays => .pure ⟨.of_chain ?_, ?_⟩
      · refine hx.mono (by decide) fun hgaps => around_le_chain (by decide) fun _ => .inr ?_
        exact hgaps.resolve_left hdirty
      · exact hstays.remaining.trans_lt hlt₄
  case nameless =>
    have w := w.missing (M := token .ident) hdirty
    rw [mul_assoc] at w
    refine (complete_index ho w colon_le_selector fun h => absurd h hdirty).bind fun x s₄ ⟨hx, hstill'⟩ => ?_
    refine .pure ⟨.of_chain (hx.mono (by decide) fun _ => le_refl _), ?_⟩
    exact hstill'.remaining.trans_lt (heq.trans_lt hlt₂)

theorem bracket_reads (he : Enters gaps i n enter) (hn : s.remaining ≤ n) (h : Chained gaps i 24 s₀ s x)
    (hnext : s.next = .bracketOpen) : Ensures (suffixRound enter x) i s (Suffixed gaps i s₀ s) := by
  refine h.node.reads.peek (by decide) fun _ => ?_
  rw [hnext]
  refine .precede (h.chain_look hnext (by unfold beginsArguments; decide)) fun o b s₁ ho w hstill => ?_
  refine .currentSpan w.sound.toCoherent fun opened _ => ?_
  refine w.bump (hstill.next.trans hnext) (by decide) fun s₂ w hlt _ => ?_
  have hlt₂ : s₂.remaining < s.remaining := hlt.trans_eq hstill.remaining
  refine w.step (expectExpression_reads he (by omega)) (le_refl _) fun _ s₃ w hle _ => ?_
  refine w.expectClosing (by decide) (by decide) fun _ s₄ w hle' => ?_
  simp only [mul_assoc] at w
  refine (complete_index ho w ?_ fun _ => ?_).bind fun x s₅ ⟨hx, hstill'⟩ => ?_
  · rw [← mul_assoc]
    exact bracket_le_selector
  · exact mul_le_free (token_le_free (by decide)) (mul_le_free (hole_le_free (operand_le_free (by decide)))
      (hole_le_free (token_le_free (by decide))))
  · refine .pure ⟨.of_chain (hx.mono (by decide) fun _ => le_refl _), ?_⟩
    have := hstill'.remaining
    omega

theorem suffixRound_reads (he : Enters gaps i n enter) (hn : s.remaining ≤ n) (h : Chained gaps i 24 s₀ s x) :
    Ensures (suffixRound enter x) i s (Suffixed gaps i s₀ s) := by
  by_cases hdot : s.next = .dot
  · exact dot_reads h hdot
  by_cases hcolon : s.next = .colon
  · exact colon_reads h hcolon
  by_cases hbracket : s.next = .bracketOpen
  · exact bracket_reads he hn h hbracket
  -- no selector begins here, so it is a call or the end of the chain
  refine h.node.reads.peek (by decide) fun w => ?_
  split <;> try contradiction
  refine atArguments_step (h.node.reads.look.restart) (by decide) (fun hnext w => ?_) fun hnext w => ?_
  · refine .precede h.node.look.look fun o b s₁ ho w hstill => ?_
    have hn₁ : s₁.remaining ≤ n := hstill.remaining.trans_le hn
    refine w.step (arguments_reads he hn₁ (hstill.next ▸ hnext)) (by decide) fun _ s₂ w _ hlt => ?_
    refine (Ensures.complete ho w (by decide) fun _ => le_refl _).bind fun x s₃ ⟨hx, hstill'⟩ => ?_
    refine .pure ⟨.of_chain (hx.mono (le_refl _) fun _ => around_le_chain (by decide) nofun), ?_⟩
    exact hstill'.remaining.trans_lt (hlt.trans_eq hstill.remaining)
  · exact .pure ⟨(h.chain hnext).look.look, le_refl s.remaining⟩

/-- The suffixes behind the beginning of a chain. -/
theorem suffixes_closes (he : Enters gaps i n enter) (hn : s.remaining ≤ n)
    (h : Closes gaps i 24 s₀ s x (Grammar.chain gaps)) :
    Ensures (loop x (suffixRound enter)) i s fun x s' =>
      Closes gaps i 26 s₀ s' x (Grammar.chain gaps) ∧ s'.remaining ≤ s.remaining := by
  have hs := h.reads.sound
  have hbound := (State.remaining_le_length hs.toCoherent).trans_lt hs.input.bound
  refine Ensures.loop (m := State.remaining)
    (I := fun x s' => Chained gaps i 24 s₀ s' x ∧ s'.remaining ≤ s.remaining)
    ⟨.of_chain h, le_refl _⟩ hbound fun x s₁ ⟨h₁, hle⟩ => ?_
  refine (suffixRound_reads he (hle.trans hn) h₁).mono ?_
  rintro (_ | _) s' ⟨hx, hle'⟩
  · exact ⟨⟨hx, (hle'.trans_le hle).le⟩, hle'⟩
  · exact ⟨hx, hle'.trans hle⟩

theorem paren_closes (he : Enters gaps i n enter) (hn : s.remaining ≤ n) (w : Reads gaps i c s s 1)
    (hnext : s.next = .parenOpen) : Ensures (paren enter) i s fun x s' =>
      Closes gaps i 1 s s' x (around .parenExpression (production gaps .parenExpression)) ∧
        s'.remaining < s.remaining := by
  refine w.beginNoted hnext (by decide) fun o opened s₁ ho w hlt => ?_
  refine w.step (expectExpression_reads he (hlt.trans_le hn)) (le_refl _) fun _ s₂ w hle _ => ?_
  refine w.expectClosing (by decide) (by decide) fun _ s₃ w hle' => ?_
  refine (Ensures.complete ho w (by decide) fun _ => le_refl _).mono fun x s' ⟨hx, hstill⟩ => ⟨hx, ?_⟩
  exact hstill.remaining.trans_lt (hle'.trans_lt (hle.trans_lt hlt))

/-- Where a name or a parenthesis stands, a chain begins. -/
theorem chain_closes (he : Enters gaps i n enter) (hn : s.remaining ≤ n) (hc : c + 1 < State.maxLooks)
    (w : Reads gaps i c s s 1) (hnext : s.next = .ident ∨ s.next = .parenOpen) :
    Ensures (chain enter) i s fun a s' => ∃ x, a = some x ∧
      Closes gaps i 26 s s' x (Grammar.chain gaps) ∧ s'.remaining < s.remaining := by
  have hs := w.sound
  have hsuffixes {x : Closed} {s₁ : State} (hlt : s₁.remaining < s.remaining)
      (hx : Closes gaps i 24 s.look s₁ x (Grammar.chain gaps)) :
      Ensures (do return some (← loop x (suffixRound enter))) i s₁ fun a s' => ∃ x, a = some x ∧
        Closes gaps i 26 s s' x (Grammar.chain gaps) ∧ s'.remaining < s.remaining :=
    (suffixes_closes he (hlt.le.trans hn) (hx.of_look hs)).bind fun x s₂ ⟨hx, hle⟩ =>
      .pure ⟨x, rfl, hx, hle.trans_lt hlt⟩
  refine w.peek ((Nat.le_succ c).trans_lt hc) fun w => ?_
  split
  · rename_i h
    refine (nameRef_closes w.restart hc h).bind fun x s₁ ⟨hx, _, hlt⟩ => ?_
    exact hsuffixes hlt (hx.mono (by decide) fun _ => around_le_chain (by decide) nofun)
  · rename_i h
    refine (paren_closes (s := s.look) he hn w.restart h).bind fun x s₁ ⟨hx, hlt⟩ => ?_
    exact hsuffixes hlt (hx.mono (by decide) fun _ => around_le_chain (by decide) nofun)
  · rename_i h₁ h₂
    exact absurd hnext (not_or.2 ⟨h₁, h₂⟩)

theorem chain_none {L : Language Tree} {ds : List Draft} (hc : c < State.maxLooks)
    (w : Since gaps i c s₀ s ds L) (hnext : ¬ (s.next = .ident ∨ s.next = .parenOpen)) :
    Ensures (chain enter) i s fun a s' => a = none ∧ s' = s.look := by
  refine w.peek hc fun w => ?_
  split
  · rename_i h
    exact absurd (.inl h) hnext
  · rename_i h
    exact absurd (.inr h) hnext
  · exact .pure ⟨rfl, rfl⟩

theorem chain_begins (he : Enters gaps i n enter) (hn : s.remaining ≤ n) (hc : c ≤ 40)
    (w : Reads gaps i c s s 1) :
    Ensures (chain enter) i s (Begun gaps i 42 s (Grammar.chain gaps)) := by
  have hc' : c + 1 < State.maxLooks := (Nat.succ_le_succ hc).trans_lt (by decide)
  by_cases hnext : s.next = .ident ∨ s.next = .parenOpen
  · refine (chain_closes he hn hc' w hnext).mono ?_
    rintro _ s' ⟨x, rfl, hx, hlt⟩
    exact ⟨hx.mono (by decide) fun _ => le_refl _, hlt⟩
  · refine (chain_none ((Nat.le_succ c).trans_lt hc') w hnext).mono ?_
    rintro _ _ ⟨rfl, rfl⟩
    exact w.look.weaken (by omega)

end LuaTree.Production
