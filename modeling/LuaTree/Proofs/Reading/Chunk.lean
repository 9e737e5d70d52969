import LuaTree.Proofs.Reading.Statement

/-!
# Proofs/Reading/Chunk — what lists of statements, leftovers and whole sources read

Where a name or a parenthesis begins a statement, the chain that is read first becomes a call, the
first target of an assignment or the beginning of a bare expression; the last of these is always
reported.  In the end the recursion is tied: `enter n` reads what `Enters` asks for.
-/

namespace LuaTree.Production

open LuaTree.Parser Grammar Computability

variable {gaps : Bool} {i : Input} {c n : Nat} {s s' s₀ s₁ s₂ s₃ : State} {enter : Enter}
  {x : Closed} {o list : Opening} {L : Language Tree}

/-! ## Calls, assignments and bare expressions -/

theorem isAtEither_step {α : Type} {a b : Kind} {f : Bool → Parser α} {Q : α → State → Prop}
    {L : Language Tree} (h : Closes gaps i c s₀ s x L) (hc : c + 1 < State.maxLooks)
    (hf : ∀ b s', Closes gaps i (c + 2) s₀ s' x L → s'.remaining = s.remaining →
      Ensures (f b) i s' Q) : Ensures (isAtEither a b >>= f) i s Q := by
  refine .assoc (h.reads.isAt ((Nat.le_succ c).trans_lt hc) (fun _ _ => ?_) fun _ _ => ?_)
  · exact hf true s.look (h.look.mono (Nat.le_succ _) fun _ => le_refl _) rfl
  · refine h.look.reads.isAt hc (fun _ _ => ?_) fun _ _ => ?_
    · exact hf true s.look.look h.look.look rfl
    · exact hf false s.look.look h.look.look rfl

/-- The target of an assignment; a call is one only where that is reported. -/
theorem assignee_reads (hx : Closes gaps i c s₀ s x (Grammar.chain gaps)) :
    Ensures (assignee x) i s fun _ s' => Reads gaps i c s₀ s' (node .var) ∧
      s'.remaining = s.remaining := by
  have hwrap {s₁ : State} (hx : Closes gaps i c s₀ s₁ x (target gaps))
      (heq : s₁.remaining = s.remaining) : Ensures (do finish (← precede x) .var) i s₁ fun _ s' =>
        Reads gaps i c s₀ s' (node .var) ∧ s'.remaining = s.remaining := by
    refine .precede hx fun o b s₂ ho w hstill => ?_
    refine (Ensures.finish ho w (by decide) fun _ => le_refl _).mono fun _ s' ⟨hr, hstill'⟩ => ?_
    refine ⟨hr.mono (le_refl c) fun _ => around_le_node, ?_⟩
    rw [hstill'.remaining, hstill.remaining, heq]
  by_cases hcall : x.kind = .callExpression
  · rw [assignee, if_pos hcall]
    refine .spanSince hx.reads.sound.toCoherent hx.snapshot fun span => ?_
    refine hx.report fun s₁ hx hdirty hstays => ?_
    refine hwrap (hx.mono (le_refl c) fun hgaps ts hts => ⟨hts, fun _ _ _ => ?_⟩) hstays.remaining
    exact hgaps.resolve_left hdirty
  · rw [assignee, if_neg hcall]
    refine hwrap (hx.of_kind fun ts hts hkind => ⟨hts, fun t ht h => ?_⟩) rfl
    exact absurd ((hkind t ht).symm.trans h) hcall

section

variable (he : Enters gaps i n enter) (hn : s.remaining < n)
include he hn

theorem moreVariables_reads (hc : c ≤ 42) : Recognizes gaps i c 44 (moreVariables enter) s
    (fun _ => (token .comma * node .var)∗ * extra gaps (token .comma)) fun _ _ => True := by
  intro hs hu
  refine loop_reads (c := 42) (le_refl s.remaining) (fun s₁ hn₁ w => ?_) hs (hu.trans hc)
  refine w.eat (by decide) (by decide) (fun s₂ _ w hlt => ?_) fun _ w => ?_
  · by_cases hnext : s₂.next = .ident ∨ s₂.next = .parenOpen
    · refine (chain_closes he (by omega) (by decide) w.restart hnext).bind ?_
      rintro _ s₃ ⟨x, rfl, hx, hlt₃⟩
      refine (assignee_reads hx).bind fun _ s₄ ⟨hr, heq⟩ => .pure ⟨?_, by omega⟩
      rw [one_mul] at w
      exact (w.trans hr).weaken (by decide)
    · refine (chain_none (by decide) w hnext).bind ?_
      rintro _ _ ⟨rfl, rfl⟩
      refine w.look.unmet (by decide) (by decide) (mt .inl hnext) fun s₄ w _ hdirty => .pure ?_
      refine w.mono (by decide) fun hgaps => ?_
      obtain rfl : gaps = true := hgaps.resolve_left hdirty
      exact (one_mul _).le.trans le_extra
  · exact .pure (w.mono (by decide) fun _ => one_le_extra)

/-- Behind the chain that begins an assignment. -/
theorem assignment_reads (ho : Opens i s₀ o .blank) (hl : Opens i s₁ list .blank)
    (w : Since gaps i c s₀ s₁ [.blank] 1) (wl : Since gaps i c s₁ s₂ [.blank] 1)
    (hx : Closes gaps i 32 s₂ s x (Grammar.chain gaps)) :
    Ensures (assignment enter o list x) i s fun _ s' =>
      Reads gaps i 48 s₀ s' (node .assignmentStatement) ∧ s'.remaining ≤ s.remaining := by
  refine (assignee_reads hx).bind fun _ s₃ ⟨hr, heq⟩ => ?_
  refine (wl.trans hr).step (moreVariables_reads he (by omega) (by decide)) (le_refl _) ?_
  intro _ s₄ wl hle _
  rw [one_mul, ← mul_assoc] at wl
  refine wl.finish hl (by decide) (fun _ => le_refl _) fun s₅ hr heq₅ => ?_
  refine (w.trans hr).expect (by decide) (by decide) fun _ s₆ w hle₆ => ?_
  refine w.step (expectExpressionList_reads he (by omega) (by decide)) (le_refl _) ?_
  intro _ s₇ w hle₇ _
  rw [one_mul] at w
  refine .last (w.finish ho (by decide) (fun _ => le_refl _) fun s₈ hr heq₈ => .pure ?_)
  exact ⟨hr.weaken (by decide), by omega⟩

/-- Behind the first of some bare expressions. -/
theorem bareEnd_reads (ho : Opens i s₀ o .blank) (hl : Opens i s₁ list .blank)
    (w : Since gaps i c s₀ s₁ [.blank] 1) (wl : Since gaps i 32 s₁ s [.blank] (Grammar.expression gaps)) :
    Ensures (bareEnd enter o list) i s fun _ s' =>
      Reads gaps i 48 s₀ s' (node .expressionStatement) ∧ s'.remaining ≤ s.remaining ∧
        ¬ s'.Clean := by
  refine wl.step (moreExpressions_reads he hn (by decide)) (le_refl _) fun _ s₂ wl hle _ => ?_
  refine (Ensures.complete hl wl (by decide) fun _ => mul_le_mul_left le_hole _).bind ?_
  intro y s₃ ⟨hy, hstill⟩
  refine .spanSince hy.reads.sound.toCoherent hy.snapshot fun span => ?_
  refine (w.trans hy.node).report fun s₄ w hdirty hstays => ?_
  refine (Ensures.finish ho w (by decide) fun hgaps => ?_).mono fun _ s₅ ⟨hr, hstill'⟩ => ⟨?_, ?_, ?_⟩
  · obtain rfl : gaps = true := hgaps.resolve_left hdirty
    exact (one_mul _).le
  · exact hr.mono (by decide) fun _ => around_le_node
  · rw [hstill'.remaining, hstays.remaining, hstill.remaining]
    exact hle
  · exact fun h => hdirty (hstill'.clean.1 h)

/-- Behind the chain that begins a bare expression. -/
theorem bareExpression_reads (ho : Opens i s₀ o .blank) (hl : Opens i s₁ list .blank)
    (w : Since gaps i c s₀ s₁ [.blank] 1) (wl : Since gaps i c s₁ s₂ [.blank] 1)
    (hx : Closes gaps i 32 s₂ s x (Grammar.chain gaps)) :
    Ensures (bareExpression enter o list (some x)) i s fun _ s' =>
      Reads gaps i 48 s₀ s' (node .expressionStatement) ∧ s'.remaining ≤ s.remaining ∧
        ¬ s'.Clean := by
  refine (he.continued hn (hx.mono (le_refl _) fun _ => chain_le_operand)).bind fun a s₃ ⟨hr, hle⟩ => ?_
  have hmore {s₄ : State} (wl : Since gaps i 32 s₁ s₄ [.blank] (1 * Grammar.expression gaps))
      (hle₄ : s₄.remaining ≤ s₃.remaining) : Ensures (bareEnd enter o list) i s₄ fun _ s' =>
        Reads gaps i 48 s₀ s' (node .expressionStatement) ∧ s'.remaining ≤ s.remaining ∧
          ¬ s'.Clean := by
    have hle' := hle₄.trans hle
    refine (bareEnd_reads he (hle'.trans_lt hn) ho hl w (by simpa only [one_mul] using wl)).mono ?_
    exact fun _ s' ⟨hr, hle, hdirty⟩ => ⟨hr, hle.trans hle', hdirty⟩
  cases a with
  | some _ => exact hmore (wl.trans hr) (le_refl _)
  | none => exact (wl.trans hr).problem fun s₄ wl _ hstays => hmore wl hstays.remaining.le

/-- Behind a chain that is no call by itself. -/
theorem afterChain_reads (ho : Opens i s₀ o .blank) (hl : Opens i s₁ list .blank)
    (w : Since gaps i c s₀ s₁ [.blank] 1) (wl : Since gaps i c s₁ s₂ [.blank] 1)
    (hx : Closes gaps i 28 s₂ s x (Grammar.chain gaps)) :
    Ensures (afterChain enter o list x) i s fun _ s' =>
      Reads gaps i 48 s₀ s' (Grammar.statement gaps) ∧ s'.remaining ≤ s.remaining := by
  refine isAtEither_step hx (by decide) fun b s₃ hx heq => ?_
  have hx := hx.mono (show _ ≤ 32 by decide) fun _ => le_refl _
  have hassign : Ensures (assignment enter o list x) i s₃ fun _ s' =>
      Reads gaps i 48 s₀ s' (Grammar.statement gaps) ∧ s'.remaining ≤ s.remaining := by
    refine (assignment_reads he (heq.trans_lt hn) ho hl w wl hx).mono fun _ s' ⟨hr, hle⟩ => ?_
    exact ⟨hr.mono (le_refl _) fun _ => node_le_nodeOf (by cases gaps <;> decide), hle.trans_eq heq⟩
  cases b with
  | true => exact hassign
  | false =>
    refine .read ?_
    split
    · exact hassign
    · refine (bareExpression_reads he (heq.trans_lt hn) ho hl w wl hx).mono ?_
      refine fun _ s' ⟨hr, hle, hdirty⟩ => ⟨hr.mono (le_refl _) fun hgaps => ?_, hle.trans_eq heq⟩
      obtain rfl : gaps = true := hgaps.resolve_left hdirty
      exact node_le_nodeOf (by decide)

end

/-- A chain that is a call. -/
theorem closes_call (hx : Closes gaps i c s₀ s x (Grammar.chain gaps)) (hcall : x.kind = .callExpression) :
    Closes gaps i c s₀ s x (node .callExpression) := by
  refine hx.of_kind fun ts hts hkind => ?_
  obtain ⟨k, -, cs, rfl, -⟩ := hts
  exact ⟨cs, by rw [← hcall, ← hkind _ (List.mem_singleton_self _)]; rfl⟩

theorem chainStatement_reads (he : Enters gaps i n enter) (hn : s.remaining ≤ n)
    (hnext : s.next = .ident ∨ s.next = .parenOpen) (hc : c + 1 < State.maxLooks) :
    Recognizes gaps i c 48 (chainStatement enter) s (fun _ => Grammar.statement gaps)
      fun _ s' => s'.remaining < s.remaining := by
  refine .intro fun w => w.start fun o s₁ ho w hstill => w.start fun list s₂ hl wl hstill' => ?_
  have hrem : s₂.remaining = s.remaining := hstill'.remaining.trans hstill.remaining
  rw [← hstill.next, ← hstill'.next] at hnext
  refine (chain_closes he (by omega) hc wl.restart hnext).bind ?_
  rintro _ s₃ ⟨x, rfl, hx, hlt⟩
  have hafter {s₄ : State} (hx : Closes gaps i 28 s₂ s₄ x (Grammar.chain gaps))
      (heq : s₄.remaining = s₃.remaining) : Ensures (afterChain enter o list x) i s₄ fun _ s' =>
        Reads gaps i 48 s s' (Grammar.statement gaps) ∧ s'.remaining < s.remaining := by
    refine (afterChain_reads he (by omega) ho hl w wl hx).mono fun _ s' ⟨hr, hle⟩ => ⟨hr, ?_⟩
    omega
  dsimp only
  split
  case isFalse => exact hafter (hx.mono (by decide) fun _ => le_refl _) rfl
  case isTrue hcall =>
    refine isAtEither_step hx (by decide) ?_
    rintro (_ | _) s₄ hx heq
    · refine (Ensures.abandon hl (wl.trans (closes_call hx hcall).reads)).bind fun _ s₅ ⟨hr, hstill₅⟩ => ?_
      have hrem₅ := hstill₅.remaining
      have w := w.trans hr
      rw [one_mul, one_mul] at w
      refine w.finish ho (by decide) (fun _ => le_refl _) fun s₆ hr heq₆ => .pure ⟨?_, by omega⟩
      exact hr.mono (by decide) fun _ => node_le_nodeOf (by cases gaps <;> decide)
    · exact hafter hx heq

/-! ## Statements and lists of them -/

/-- What a statement reads, by its first token. -/
def statementFrom (gaps : Bool) (k : Kind) : Language Tree :=
  if k = .kwReturn then node .returnStatement else Grammar.statement gaps

/-- What a statement has read, if one begins here. -/
def Stated (gaps : Bool) (i : Input) (s : State) : Bool → State → Prop
  | true, s' => Reads gaps i 48 s s' (statementFrom gaps s.next) ∧ s'.remaining < s.remaining
  | false, s' => s' = s.look ∧ s.next ∉ KindSet.statementFirst

theorem nodeOf_le_statementFrom {k l : Kind} {ks : List Kind} (h : k = l)
    (hks : l ≠ .kwReturn ∧ ∀ m ∈ ks, m ∈ statementKinds false) : nodeOf ks ≤ statementFrom gaps k := by
  rw [h, statementFrom, if_neg hks.1]
  rintro _ ⟨m, hm, cs, rfl⟩
  exact ⟨m, List.mem_append_left _ (by simpa [statementKinds] using hks.2 m hm), cs, rfl⟩

theorem node_le_statementFrom {k l m : Kind} (h : k = l) (hm : l ≠ .kwReturn ∧ m ∈ statementKinds false) :
    node m ≤ statementFrom gaps k :=
  (node_le_nodeOf (List.mem_singleton_self m)).trans (nodeOf_le_statementFrom h (by simpa using hm))

/-- What is read at the first token of a statement is a statement. -/
theorem stated_of_reads {p : Parser Unit} {c' : Nat} (hs : s.Sound i) (w : Reads gaps i c s s.look 1)
    (hp : Recognizes gaps i c c' p s.look (fun _ => L) fun _ s' => s'.remaining < s.remaining)
    (hc' : c' ≤ 48) (hL : L ≤ statementFrom gaps s.next) :
    Ensures (do p; return true) i s.look (Stated gaps i s) := by
  refine (hp w.sound w.used).bind fun _ s' ⟨hr, hlt⟩ => .pure ⟨?_, hlt⟩
  exact (hr.of_look hs).mono hc' fun _ => hL

theorem statement_reads (he : Enters gaps i n enter) (hn : s.remaining ≤ n) (hc : c + 2 < State.maxLooks)
    (w : Reads gaps i c s s 1) : Ensures (statement enter) i s (Stated gaps i s) := by
  have hs := w.sound
  refine w.peek (by omega) fun w => ?_
  have hn : s.look.remaining ≤ n := hn
  split
  case h_1 h =>
    exact stated_of_reads hs w (doStatement_reads he hn h) (by decide) (node_le_statementFrom h (by decide))
  case h_2 h =>
    exact stated_of_reads hs w (whileStatement_reads he hn h) (by decide) (node_le_statementFrom h (by decide))
  case h_3 h =>
    exact stated_of_reads hs w (repeatStatement_reads he hn h) (by decide) (node_le_statementFrom h (by decide))
  case h_4 h =>
    exact stated_of_reads hs w (ifStatement_reads he hn h) (by decide) (node_le_statementFrom h (by decide))
  case h_5 h =>
    exact stated_of_reads hs w (forStatement_reads he hn h) (by decide) (nodeOf_le_statementFrom h (by decide))
  case h_6 h =>
    exact stated_of_reads hs w (functionStatement_reads he hn h) (by decide) (node_le_statementFrom h (by decide))
  case h_7 h =>
    exact stated_of_reads hs w (localStatement_reads he hn h) (by decide) (nodeOf_le_statementFrom h (by decide))
  case h_8 h =>
    exact stated_of_reads hs w (breakStatement_reads (s := s.look) h) (by decide) (node_le_statementFrom h (by decide))
  case h_9 h => exact stated_of_reads hs w (returnStatement_reads he hn h) (by decide) (by rw [statementFrom, if_pos h])
  case h_10 h =>
    exact stated_of_reads hs w (gotoStatement_reads (s := s.look) h) (by decide) (node_le_statementFrom h (by decide))
  case h_11 h =>
    exact stated_of_reads hs w (labelStatement_reads (s := s.look) h) (by decide) (node_le_statementFrom h (by decide))
  case h_12 h =>
    refine stated_of_reads hs w (chainStatement_reads he hn (.inl h) hc) (le_refl _) ?_
    rw [statementFrom, if_neg (by simp [h])]
  case h_13 h =>
    refine stated_of_reads hs w (chainStatement_reads he hn (.inr h) hc) (le_refl _) ?_
    rw [statementFrom, if_neg (by simp [h])]
  case h_14 h₁ h₂ h₃ h₄ h₅ h₆ h₇ h₈ h₉ h₁₀ h₁₁ h₁₂ h₁₃ =>
    refine .pure ⟨rfl, ?_⟩
    simpa [KindSet.statementFirst, KindSet.mem_iff_contains] using
      ⟨h₁, h₂, h₃, h₄, h₅, h₆, h₇, h₈, h₉, h₁₀, h₁₁, h₁₂, h₁₃⟩

theorem statementRound_reads (he : Enters gaps i n enter) (hn : s.remaining ≤ n) (w : Reads gaps i 48 s s 1) :
    Ensures (statementRound enter) i s (RoundReads gaps i 48 51 s (Grammar.statement gaps + token .semicolon)
      (1 + node .returnStatement)) := by
  have hs := w.sound
  refine w.eat (by decide) (by decide) (fun s₂ _ w hlt => .pure ⟨?_, hlt⟩) fun _ w => ?_
  · exact w.mono (by decide) fun _ => (one_mul _).le.trans le_add_self
  have hround {b : Bool} (hlast : b = true ↔ s.next = .kwReturn) {s₂ : State}
      (heq : s₂.remaining = s.remaining) (hnext : s₂.next = s.next) (w : Reads gaps i 50 s s₂ 1) :
      Ensures (do
        if !(← statement enter) || b then return Round.done ()
        return .again ()) i s₂ (RoundReads gaps i 48 51 s (Grammar.statement gaps + token .semicolon)
          (1 + node .returnStatement)) := by
    refine (statement_reads he (heq.trans_le hn) (by decide) w.restart).bind ?_
    rintro (_ | _) s₃ hst
    · obtain ⟨rfl, -⟩ := hst
      exact .pure (w.look.mono (le_refl _) fun _ => le_self_add)
    · obtain ⟨hr, hlt⟩ := hst
      have w := w.trans hr
      rw [one_mul, hnext, statementFrom] at w
      cases b with
      | true =>
        rw [if_pos (hlast.1 rfl)] at w
        exact .pure (w.mono (by decide) fun _ => le_add_self)
      | false =>
        rw [if_neg (fun h => by simpa using hlast.2 h)] at w
        exact .pure ⟨w.mono (le_refl _) fun _ => le_self_add, hlt.trans_eq heq⟩
  refine w.isAt (by decide) (fun hnext w => ?_) fun hnext w => ?_
  · exact hround (b := true) (by simpa using hnext) rfl rfl w
  · exact hround (b := false) (by simpa using hnext) rfl rfl w

theorem statements_reads (he : Enters gaps i n enter) (hn : s.remaining ≤ n) (hc : c ≤ 48) :
    Recognizes gaps i c 51 (statements enter) s (fun _ => production gaps .statementList)
      fun _ _ => True := by
  intro hs hu
  rw [statements_eq]
  exact loop_reads (c := 48) hn (fun _ => statementRound_reads he) hs (hu.trans hc)

/-! ## Nesting -/

theorem ifRead_of_operated {lead : Option Closed} {L : Language Tree} {a : Option Closed}
    (h : Operated gaps i c s₀ s lead L a s') : Reads gaps i c s₀ s' (ifRead L a) := by
  cases a with
  | none => exact h.2
  | some x => exact h.1.reads

theorem enters_zero : Enters gaps i 0 enter := by
  constructor <;> intros <;> omega

theorem one_le_statementList : 1 ≤ production gaps .statementList :=
  one_le_kstar.trans (le_mul_of_one_le_right' le_self_add)

theorem lt_of_operated {L : Language Tree} {a : Option Closed}
    (h : Operated gaps i c s₀ s none L a s') (ha : a.isSome) : s'.remaining < s.remaining := by
  cases a with
  | none => nomatch ha
  | some x => exact h.2.2 rfl

/-- **One more level of nesting** reads what it should of one more token. -/
theorem enters_succ (he : Enters gaps i n (Production.enter n)) :
    Enters gaps i (n + 1) (Production.enter (n + 1)) where
  statements {c s} hn := by
    have hn : s.deeper.remaining ≤ n := Nat.lt_succ_iff.1 hn
    refine nested_reads (m := 51) one_le_statementList (fun _ _ => trivial) (fun _ _ _ => trivial)
      (.intro fun w => ?_)
    refine w.step (statements_reads he hn (Nat.zero_le 48)) (le_refl 0) fun _ s' w _ _ => .pure ?_
    exact ⟨by simpa only [one_mul] using w, trivial⟩
  unary {c s} hn := by
    have hn : s.deeper.remaining ≤ n := Nat.lt_succ_iff.1 hn
    refine nested_reads (m := 43) (le_refl 1) (fun _ _ h => nomatch h) (fun _ _ h => h)
      (.intro fun w => ?_)
    have hlead : Leading gaps i 0 s.deeper s.deeper none := ⟨rfl, w⟩
    refine (unary_operates he hn (Nat.zero_le 10) hlead).mono fun a s' h => ?_
    exact ⟨ifRead_of_operated h, lt_of_operated h⟩
  operation {c s rank} hrank hn := by
    have hn : s.deeper.remaining ≤ n := Nat.lt_succ_iff.1 hn
    refine nested_reads (m := 54 - rank) (le_refl 1) (fun _ _ h => nomatch h) (fun _ _ h => h)
      (.intro fun w => ?_)
    have hlead : Leading gaps i 10 s.deeper s.deeper none := ⟨rfl, w.weaken (Nat.zero_le 10)⟩
    refine (operation_operates he _ rfl hrank hn hlead).mono fun a s' h => ?_
    exact ⟨ifRead_of_operated h, lt_of_operated h⟩
  continued {c s₀ s x} hn hx := by
    have hn : s.deeper.remaining ≤ n := Nat.lt_succ_iff.1 hn
    have hcoherent : s₀.Coherent i := by
      obtain ⟨-, -, -, b, hg, -⟩ := hx
      exact hg.before
    refine nested_ensures hx.reads.sound hx.used 
      (fun s' (hr : Reads gaps i c s s' 1) _ => ⟨?_, hr.remaining_le⟩) ?_
    · have w := hx.reads.trans hr
      rw [mul_one] at w
      exact w.mono (le_refl c) fun _ => operand_anti (Nat.zero_le 12)
    have hlead : Leading gaps i 10 s₀.deeper s.deeper (some x) :=
      hx.deeper.mono (Nat.zero_le 10) fun _ => le_refl _
    refine (operation_operates he _ rfl (Nat.zero_le 10) hn hlead).mono ?_
    rintro (_ | y) s' h
    · exact nomatch h.1
    · exact ⟨(h.1.reads.upper hcoherent).weaken (Nat.zero_le c), h.2.1⟩

theorem enters_enter (gaps : Bool) (i : Input) : ∀ n : Nat, Enters gaps i n (Production.enter n)
  | 0 => enters_zero
  | n + 1 => enters_succ (enters_enter gaps i n)

/-! ## Leftovers and whole sources -/

theorem statementFirst_of_salvageFirst : ∀ k ∈ Kind.all, k ∈ KindSet.salvageFirst →
    k ∈ KindSet.statementFirst ∧ k ≠ .kwReturn := by
  decide +kernel

theorem garbageRound_reads (he : Enters gaps i n enter) (hn : s.remaining ≤ n)
    (w : Reads gaps i 48 s s 1) : Ensures (garbageRound enter) i s fun r s' =>
        RoundReads gaps i 48 49 s (Grammar.statement gaps + tokenOutside .salvageFirst) 1 r s' ∧
        (r = .done () → s'.next = .error) := by
  refine w.isAt (by decide) (fun hend w => .pure ⟨w, fun _ => hend⟩) fun hne w => ?_
  refine w.isAtOneOf (by decide) (fun hsalvage w => ?_) fun hsalvage w => ?_
  · have hs := w.sound
    obtain ⟨hfirst, hreturn⟩ := statementFirst_of_salvageFirst _ (Kind.mem_all _) hsalvage
    refine (statement_reads (s := s.look.look) he hn (by decide) w.restart).bind ?_
    rintro (_ | _) s₁ hst
    · exact absurd hfirst hst.2
    · obtain ⟨hr, hlt⟩ := hst
      have w := w.trans hr
      rw [one_mul, statementFrom, State.next_look, if_neg hreturn] at w
      exact .pure ⟨⟨w.mono (le_refl _) fun _ => le_self_add, hlt⟩, nofun⟩
  · refine w.bump (k := s.next) rfl hne fun s₁ w hlt _ => .pure ⟨⟨w.mono (by decide) fun _ => ?_, hlt⟩, nofun⟩
    rw [one_mul]
    refine le_trans ?_ le_add_self
    rintro _ ⟨t, rfl⟩
    exact ⟨s.next, hsalvage, t, rfl⟩

/-- What the block has left over goes into one node. -/
theorem garbage_reads (he : Enters gaps i n enter) (hn : s.remaining ≤ n) (hc : c ≤ 48) :
    Recognizes gaps i c 49 (garbage enter) s (fun _ => node .garbage) fun _ s' =>
      s'.next = .error ∧ ¬ s'.Clean := by
  refine .intro fun w => w.start fun o s₁ ho w hstill => w.problem fun s₂ w hdirty hstays => ?_
  have hs := w.sound
  have hn₂ : s₂.remaining ≤ n := by rwa [hstays.remaining, hstill.remaining]
  have hbound := (State.remaining_le_length hs.toCoherent).trans_lt hs.input.bound
  let L := (Grammar.statement gaps + tokenOutside .salvageFirst)∗
  refine Ensures.bind (Q := fun _ s' => Since gaps i 49 s s' [.blank] L ∧ s'.next = .error ∧ ¬ s'.Clean)
    (Ensures.loop (m := State.remaining) (I := fun _ s' => Since gaps i 48 s s' [.blank] L ∧
      s'.remaining ≤ n ∧ ¬ s'.Clean) ⟨w.mono hc fun _ => one_le_kstar, hn₂, hdirty⟩ hbound ?_) ?_
  · rintro _ s₃ ⟨w, hn₃, hdirty⟩
    refine (garbageRound_reads he hn₃ w.restart).mono ?_
    rintro (_ | _) s₄ ⟨hr, hend⟩
    · refine ⟨⟨?_, hr.2.le.trans hn₃, mt hr.1.clean_of_clean hdirty⟩, hr.2⟩
      exact (w.trans hr.1).mono (le_refl _) fun _ => kstar_mul_le_kstar
    · refine ⟨?_, hend rfl, mt (Since.clean_of_clean hr) hdirty⟩
      simpa only [mul_one] using w.trans hr
  · rintro _ s₃ ⟨w, hend, hdirty⟩
    refine (Ensures.finish ho w (by decide) fun hgaps => ?_).mono fun _ s' ⟨hr, hstill'⟩ => ⟨?_, ?_, ?_⟩
    · obtain rfl : gaps = true := hgaps.resolve_left hdirty
      exact le_refl _
    · exact hr.mono (le_refl _) fun _ => around_le_node
    · rw [hstill'.next, hend]
    · exact fun h => hdirty (hstill'.clean.1 h)

theorem ahead_of_next (hs : s.Sound i) (hnext : s.next = .error) : s.ahead = [] := by
  have hsignificant : s.significant = [] := by
    by_contra h
    obtain ⟨t, ts, hts⟩ := List.exists_cons_of_ne_nil h
    have ht : t ∈ s.rest := (List.mem_filter.1 (hts ▸ List.mem_cons_self : t ∈ s.significant)).1
    rw [hs.rest] at ht
    have hkind := hs.input.kinds t (List.mem_of_mem_drop ht)
    rw [State.next, hts, List.head?_cons, Option.elim_some] at hnext
    rw [hnext] at hkind
    exact absurd hkind (by decide)
  by_contra h
  obtain ⟨l, R, hl⟩ := List.exists_cons_of_ne_nil h
  obtain ⟨-, -, -, -, hsolid, -⟩ := eq_append_of_solidFrom hl
  have hknown : l.1.kind ≠ .invalidChar := hs.settled l (by simp [hl])
  rw [s.significant_eq, hl, List.map_cons, List.filter_cons_of_pos] at hsignificant
  · exact List.cons_ne_nil _ _ hsignificant
  · simp [Token.isSignificant, Kind.isSignificant, hsolid, hknown]

/-- The end of a whole source. -/
theorem finish_chunk (ho : Opens i s₀ o .blank) (w : Since gaps i c s₀ s [.blank] L)
    (hL : (s.Clean ∨ gaps) → L ≤ production gaps .chunk) (hnext : s.next = .error) :
    Ensures (finish o .chunk) i s fun _ s' => ∃ F, Grows i s₀ s' [.grown (.node .chunk F)] ∧
      Fits gaps s' (around .chunk (production gaps .chunk)) [.grown (.node .chunk F)] ∧
      s'.ahead = [] ∧ (gaps = false → Draft.TiedInList F) := by
  have hend := ahead_of_next w.sound hnext
  obtain ⟨-, -, F, hg, hf, htied⟩ := w
  refine (Grows.complete ho hg).bind fun x s' ⟨⟨hg', _⟩, hstill⟩ =>
    .pure ⟨F, hg', fun hgaps => ?_, ?_, fun h => (htied h).2⟩
  · obtain ⟨h₁, h₂⟩ := hf (hgaps.imp_left hstill.clean.1)
    have h₃ := hL (hgaps.imp_left hstill.clean.1) h₂
    exact ⟨⟨⟨h₃, h₁⟩, trivial⟩, _, rfl, h₃⟩
  · rw [hstill.ahead, hend]

/-- **A whole source is read to its end**, into one node that nothing wraps and, without gaps, with
nothing loose in it. -/
theorem chunk_ties (gaps : Bool) (hs : s.Coherent i) (hu : s.used = 0) : Ensures chunk i s fun _ s' =>
    ∃ F, Grows i s s' [.grown (.node .chunk F)] ∧
      Fits gaps s' (around .chunk (production gaps .chunk)) [.grown (.node .chunk F)] ∧
      s'.ahead = [] ∧ (gaps = false → Draft.TiedInList F) := by
  have he : Enters gaps i i.bound (Production.enter i.bound) := enters_enter gaps i i.bound
  have ho := opens_start hs
  have hblank := Grows.blank hs
  refine .read (Ensures.bind (Q := fun o s' => o = ⟨s.events.size, s.snapshot⟩ ∧
    s' = { s with events := s.events.push .blank }) ⟨_, _, rfl, rfl, rfl⟩ ?_)
  rintro _ s₁ ⟨rfl, hs₁⟩
  rw [← hs₁] at hblank
  have hu₁ : s₁.used = 0 := by rw [hs₁]; exact hu
  refine (wrapUnknown_reads gaps hblank.coherent).bind fun _ s₂ ⟨⟨hsettled, hu₂, F, hg, hf, htied⟩, _, _⟩ => ?_
  have w : Since gaps i 0 s s₂ [.blank] 1 :=
    ⟨hsettled, hu₁ ▸ hu₂, F, hblank.trans hg, fun hgaps => hf hgaps, fun h => Draft.tiedBehind_blank (htied h).2⟩
  have hn₂ : s₂.remaining < i.bound :=
    (State.remaining_le_length hg.coherent).trans_lt hg.coherent.input.bound
  refine w.step (block_reads he hn₂) (le_refl 0) fun _ s₃ w hle _ => ?_
  rw [one_mul] at w
  refine w.isAt (by decide) (fun hend w => ?_) fun _ w => ?_
  · exact finish_chunk ho w (fun _ => le_mul_of_one_le_right' one_le_extra) hend
  · refine w.step (garbage_reads he (hle.trans hn₂.le) (by decide)) (le_refl _) ?_
    refine fun _ s₄ w _ ⟨hend, hdirty⟩ => finish_chunk ho w (fun hgaps => ?_) hend
    obtain rfl : gaps = true := hgaps.resolve_left hdirty
    exact mul_le_mul_right le_extra _

/-- **A whole source is read to its end**, into one node that nothing wraps. -/
theorem chunk_reads (gaps : Bool) (hs : s.Coherent i) (hu : s.used = 0) : Ensures chunk i s fun _ s' =>
    ∃ F, Grows i s s' [.grown (.node .chunk F)] ∧
      Fits gaps s' (around .chunk (production gaps .chunk)) [.grown (.node .chunk F)] ∧
      s'.ahead = [] :=
  (chunk_ties gaps hs hu).mono fun _ _ ⟨F, hg, hf, hend, _⟩ => ⟨F, hg, hf, hend⟩

end LuaTree.Production
