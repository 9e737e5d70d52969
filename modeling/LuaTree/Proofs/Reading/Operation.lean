import LuaTree.Proofs.Precedence
import LuaTree.Proofs.Reading.Chain
import LuaTree.Proofs.Reading.Function

/-!
# Proofs/Reading/Operation — what operators and their operands read

The operations of the levels from number `j` on read an expression that is at least as tight as rank
`j`.  Each operator that a level finds has the rank of the level, and what was read to its left is
tight enough for it: the loop of a level keeps that.
-/

namespace LuaTree.Production

open LuaTree.Parser Grammar Computability

variable {gaps : Bool} {i : Input} {c n : Nat} {s s' s₀ : State} {enter : Enter} {x : Closed}

/-! ## Atoms -/

theorem single_begins {k l : Kind} (w : Reads gaps i c s s 1) (hnext : s.next = k)
    (hne : k ≠ .error) (hl : l ≠ .error ∧ l ≠ .tombstone) (hL : token k ≤ production gaps l)
    (hrow : around l (token k) ≤ operand gaps 12) :
    Ensures (do return some (← single l)) i s (Begun gaps i 42 s (operand gaps 12)) :=
  (single_closes w hnext hne hl hL).bind fun _ _ ⟨hx, _, hlt⟩ =>
    .pure ⟨hx.mono (by decide) fun _ => hrow, hlt⟩

theorem atom_begins (he : Enters gaps i n enter) (hn : s.remaining ≤ n) (hc : c ≤ 20)
    (w : Reads gaps i c s s 1) :
    Ensures (atom enter) i s (Begun gaps i 42 s (operand gaps 12)) := by
  have hs := w.sound
  have hc' : c + 1 < State.maxLooks := (Nat.succ_le_succ hc).trans_lt (by decide)
  refine w.peek ((Nat.le_succ c).trans_lt hc') fun w => ?_
  refine Ensures.mono (Q := Begun gaps i 42 s.look (operand gaps 12)) ?_ fun _ _ h => h.of_look hs
  have hsingle {kind : Kind} (hkind : kind ∈ expressionKinds ∧ kind ≠ .binaryExpression ∧
      kind ≠ .unaryExpression ∧ kind ≠ .indexExpression ∧ kind ≠ .error ∧ kind ≠ .tombstone) (hne : s.next ≠ .error)
      (hL : token s.next ≤ production gaps kind) :=
    single_begins (l := kind) w.restart rfl hne hkind.2.2.2.2 hL
      (around_le_operand hkind.1 hkind.2.1 hkind.2.2.1 hkind.2.2.2.1)
  split
  · rename_i h
    exact hsingle (by decide) (by rw [h]; decide) (by rw [h]; exact le_refl _)
  · rename_i h
    exact hsingle (by decide) (by rw [h]; decide) (by rw [h]; exact le_self_add)
  · rename_i h
    exact hsingle (by decide) (by rw [h]; decide) (by rw [h]; exact le_add_self)
  · rename_i h
    exact hsingle (by decide) (by rw [h]; decide) (by rw [h]; exact le_refl _)
  · rename_i h
    refine (table_closes (s := s.look) he hn hc' w.restart h).bind fun x s' ⟨hx, hlt⟩ => .pure ⟨?_, hlt⟩
    exact hx.mono (by decide) fun _ => around_le_operand (by decide) (by decide) (by decide) (by decide)
  · rename_i h
    refine (functionExpression_closes (s := s.look) he hn hc' w.restart h).bind ?_
    refine fun x s' ⟨hx, hlt⟩ => .pure ⟨?_, hlt⟩
    exact hx.mono (by decide) fun _ => around_le_operand (by decide) (by decide) (by decide) (by decide)
  · split
    · rename_i h
      exact hsingle (by decide) (ne_of_mem h (by decide)) (token_le_tokenOf h)
    split
    · rename_i h
      exact hsingle (by decide) (ne_of_mem h (by decide)) (token_le_tokenOf h)
    · refine (chain_begins (s := s.look) he hn (by omega) w.restart).mono ?_
      rintro (_ | x) s' h
      · exact h
      · exact ⟨h.1.mono (le_refl _) fun _ => chain_le_operand, h.2⟩

/-! ## Operators -/

/-- The leftmost operand may have been read before. -/
def Leading (gaps : Bool) (i : Input) (c : Nat) (s₀ s : State) : Option Closed → Prop
  | none => s₀ = s ∧ Reads gaps i c s s 1
  | some x => Closes gaps i c s₀ s x (operand gaps 12)

/-- What was read from the leftmost operand on: without one, something new was consumed. -/
def Operated (gaps : Bool) (i : Input) (c : Nat) (s₀ s : State) (lead : Option Closed)
    (L : Language Tree) : Option Closed → State → Prop
  | none, s' => lead = none ∧ Reads gaps i c s₀ s' 1
  | some x, s' => Closes gaps i c s₀ s' x L ∧ s'.remaining ≤ s.remaining ∧
      (lead = none → s'.remaining < s.remaining)

theorem operandOf_reads {e : Entry} {rank : Nat}
    (he : Recognizes gaps i c c (enter e) s (ifRead (operand gaps rank)) fun a s' =>
      a.isSome → s'.remaining < s.remaining) :
    Recognizes gaps i c c (operandOf enter e) s (fun _ => hole gaps (operand gaps rank)) fun _ _ => True := by
  refine .intro fun w => w.step he (le_refl c) ?_
  rintro (_ | x) s₁ w _ _
  · refine .last (w.problem fun s₂ (w : Reads gaps i c s s₂ (1 * 1)) hdirty _ => .pure ⟨?_, trivial⟩)
    simpa only [one_mul] using w.missing hdirty
  · have w := w.present
    rw [one_mul] at w
    exact .pure ⟨w, trivial⟩

/-- A node around a binary operator. -/
theorem operator_reads {k : Kind} (hnext : s.next = k) (hk : k ∈ KindSet.binaryOperators) :
    Recognizes gaps i c 0 (single .binaryOperator) s (fun _ => operatorOf k)
      fun _ s' => s'.significant = s.significant.tail ∧ s'.remaining < s.remaining :=
  .mono (single_reads hnext (ne_of_mem hk (by decide)) (by decide) (by exact token_le_tokenOf hk))
    fun _ => around_le_operatorOf

/-- Behind the base of a power. -/
theorem power_closes (he : Enters gaps i n enter) (hn : s.remaining ≤ n)
    (hx : Closes gaps i 42 s₀ s x (operand gaps 12)) :
    Ensures (power enter (some x)) i s fun a s' => ∃ y, a = some y ∧
      Closes gaps i 43 s₀ s' y (operand gaps 11) ∧ s'.remaining ≤ s.remaining := by
  refine Ensures.bind (Q := fun base s' => some x = base ∧ s = s') (.pure ⟨rfl, rfl⟩) ?_
  rintro _ _ ⟨rfl, rfl⟩
  refine hx.reads.isAtOneOf (by decide) (fun hcaret _ => ?_) fun _ _ => ?_
  swap
  · exact .pure ⟨x, rfl, hx.look.mono (le_refl _) fun _ => operand_anti (by decide), le_refl _⟩
  have hcaret : s.next = .caret := by simpa [KindSet.mem_iff_contains, KindSet.power] using hcaret
  refine .precede hx.look fun o b s₁ ho w hstill => ?_
  have hrem : s₁.remaining = s.remaining := hstill.remaining
  refine w.step (operator_reads (hstill.next.trans hcaret) (by decide)) (le_refl _) fun _ s₂ w _ ⟨_, hlt⟩ => ?_
  refine w.step (operandOf_reads (he.unary (by omega))) (le_refl _) fun _ s₃ w hle _ => ?_
  obtain ⟨hrank, hleft, hright⟩ := caret_bounds
  rw [← hleft, ← hright] at w
  refine (Ensures.complete ho w (by decide) fun _ => binaryOf_le (by decide)).bind ?_
  refine fun x s₄ ⟨hx, hstill'⟩ => .pure ⟨x, rfl, ?_, ?_⟩
  · exact hx.mono (Nat.zero_le 43) fun _ => hrank ▸ around_binary_le_operand
  · have := hstill'.remaining
    omega

variable {lead : Option Closed}

theorem power_operates (he : Enters gaps i n enter) (hn : s.remaining ≤ n) (hc : c ≤ 20)
    (h : Leading gaps i c s₀ s lead) :
    Ensures (power enter lead) i s (Operated gaps i 43 s₀ s lead (operand gaps 11)) := by
  cases lead with
  | some x =>
    refine (power_closes he hn (h.mono (by omega) fun _ => le_refl _)).mono ?_
    rintro _ s' ⟨y, rfl, hy, hle⟩
    exact ⟨hy, hle, nofun⟩
  | none =>
    obtain ⟨rfl, w⟩ := h
    refine (atom_begins he hn hc w).bind ?_
    rintro (_ | x) s₁ h₁
    · exact .pure ⟨rfl, h₁.weaken (by decide)⟩
    · refine Ensures.mono (power_closes he (h₁.2.le.trans hn) h₁.1) ?_
      rintro _ s' ⟨y, rfl, hy, hle⟩
      have hlt := hle.trans_lt h₁.2
      exact ⟨hy, hlt.le, fun _ => hlt⟩

theorem unary_operates (he : Enters gaps i n enter) (hn : s.remaining ≤ n) (hc : c ≤ 10)
    (h : Leading gaps i c s₀ s lead) :
    Ensures (unary enter lead) i s (Operated gaps i 43 s₀ s lead (operand gaps 10)) := by
  have hpower {s : State} (hn : s.remaining ≤ n) {s₀ : State} (h : Leading gaps i (c + 1) s₀ s lead) :
      Ensures (power enter lead) i s (Operated gaps i 43 s₀ s lead (operand gaps 10)) := by
    refine (power_operates he hn (by omega) h).mono ?_
    rintro (_ | y) s' h
    · exact h
    · exact ⟨h.1.mono (le_refl _) fun _ => operand_anti (by decide), h.2⟩
  cases lead with
  | some x => exact hpower hn (h.mono (Nat.le_succ c) fun _ => le_refl _)
  | none =>
    obtain ⟨rfl, w⟩ := h
    have hs := w.sound
    refine w.isAtOneOf (Nat.lt_of_le_of_lt hc (by decide)) (fun hnext w => ?_) fun _ w => ?_
    · refine w.restart.start fun o s₁ ho w hstill => ?_
      have hrem : s₁.remaining = s₀.remaining := hstill.remaining
      have hnext₁ : s₁.next ∈ KindSet.unaryOperators := hstill.next ▸ hnext
      refine w.step (single_reads_of_mem hnext₁ (by decide) (by decide) (le_refl _)) (le_refl _) ?_
      intro _ s₂ w _ hlt
      refine w.step (operandOf_reads (he.unary (by omega))) (le_refl _) fun _ s₃ w hle _ => ?_
      rw [one_mul] at w
      refine (Ensures.complete ho w (by decide) fun _ => le_refl _).bind fun x s₄ ⟨hx, hstill'⟩ => .pure ?_
      have := hstill'.remaining
      refine ⟨(hx.of_look hs).mono (by decide) fun _ => around_unary_le_operand, ?_, fun _ => ?_⟩
      · omega
      · omega
    · refine Ensures.mono (hpower (s := s₀.look) hn ⟨rfl, w.restart⟩) ?_
      rintro (_ | y) s' h
      · exact ⟨rfl, h.2.of_look hs⟩
      · exact ⟨h.1.of_look hs, h.2⟩

/-! ## Levels -/

theorem rank_of_mem_all : ∀ j : Fin 10, ∀ k ∈ Kind.all, k ∈ Level.all[j].operators →
    rank k = j ∧ k ∈ KindSet.binaryOperators := by
  decide +kernel

/-- **An operator has the rank of its level.** -/
theorem rank_of_mem {j : Nat} {level : Level} (h : Level.all[j]? = some level) {k : Kind}
    (hk : k ∈ level.operators) : rank k = j ∧ k ∈ KindSet.binaryOperators := by
  obtain ⟨hj, rfl⟩ := List.getElem?_eq_some_iff.1 h
  exact rank_of_mem_all ⟨j, hj⟩ k (Kind.mem_all k) hk

/-- How tight the operands of the level with a number have to be: on the side where operators of the
level are grouped, they may be of the level itself. -/
def sides (j : Nat) : Assoc → Nat × Nat
  | .left => (j, j + 1)
  | .right => (j + 1, j)

theorem bounds_of_mem {j : Nat} {level : Level} (h : Level.all[j]? = some level) {k : Kind}
    (hk : k ∈ level.operators) :
    leftBound k = (sides j level.assoc).1 ∧ rightBound k = (sides j level.assoc).2 := by
  obtain ⟨operators, assoc⟩ := level
  rw [leftBound, rightBound, (rank_of_mem h hk).1, h]
  cases assoc <;> exact ⟨rfl, rfl⟩

theorem left_le_sides {j : Nat} {assoc : Assoc} : operand gaps (j + 1) ≤ operand gaps (sides j assoc).1 := by
  cases assoc with
  | left => exact operand_anti (Nat.le_succ j)
  | right => exact le_refl _

theorem sides_le {j : Nat} {assoc : Assoc} : operand gaps (sides j assoc).1 ≤ operand gaps j := by
  cases assoc with
  | left => exact le_refl _
  | right => exact operand_anti (Nat.le_succ j)

/-- An operation is as tight as the rank of its operator. -/
theorem complete_operation {o : Opening} {d : Draft} {k : Kind} (hk : k ∈ KindSet.binaryOperators)
    (ho : Opens i s₀ o d) (w : Since gaps i c s₀ s [d] (binaryOf gaps k)) :
    Ensures (complete o .binaryExpression) i s fun y s' =>
      Closes gaps i c s₀ s' y (operand gaps (rank k)) ∧ s'.remaining = s.remaining :=
  (Ensures.complete ho w (by decide) fun _ => binaryOf_le hk).mono fun _ _ ⟨hx, hstill⟩ =>
    ⟨hx.mono (le_refl c) fun _ => around_binary_le_operand, hstill.remaining⟩

/-- **What the operations of some levels read**, those from number `j` on. -/
def OperatesFrom (gaps : Bool) (i : Input) (n : Nat) (enter : Enter) (j : Nat) (levels : List Level) : Prop :=
  ∀ {s₀ s : State} {lead : Option Closed}, s.remaining ≤ n → Leading gaps i 10 s₀ s lead →
    Ensures (operation enter levels lead) i s (Operated gaps i (54 - j) s₀ s lead (operand gaps j))

variable {j : Nat} {level : Level} {tighter : List Level}

/-- The level with number `j` and the tighter ones. -/
theorem level_of_drop (h : Level.all.drop j = level :: tighter) :
    j < 10 ∧ Level.all[j]? = some level ∧ Level.all.drop (j + 1) = tighter := by
  have hlevel : Level.all[j]? = some level := by
    rw [← List.head?_drop, h, List.head?_cons]
  refine ⟨(List.getElem?_eq_some_iff.1 hlevel).1, hlevel, ?_⟩
  rw [← List.drop_drop, h, List.drop_one, List.tail_cons]

theorem rightOperand_reads (he : Enters gaps i n enter) (hlevels : Level.all.drop j = level :: tighter)
    (htighter : OperatesFrom gaps i n enter (j + 1) tighter) (hn : s.remaining < n) :
    Recognizes gaps i 0 (53 - j) (rightOperand enter level tighter) s
      (ifRead (operand gaps (sides j level.assoc).2)) fun _ _ => True := by
  rw [rightOperand]
  cases level.assoc with
  | left =>
    have hlead (w : Reads gaps i 0 s s 1) : Leading gaps i 10 s s none := ⟨rfl, w.weaken (by decide)⟩
    refine .intro fun w => (htighter hn.le (hlead w)).mono ?_
    rintro (_ | r) s' h
    · exact ⟨h.2.weaken (by omega), trivial⟩
    · exact ⟨h.1.reads.weaken (by omega), trivial⟩
  | right =>
    intro hs hu
    refine (hlevels ▸ he.operation (level_of_drop hlevels).1.le hn hs hu).mono fun a s' ⟨hr, _⟩ => ⟨?_, trivial⟩
    exact hr.weaken (Nat.zero_le _)

/-- What a round of the level with number `j` leaves: what may stand to the left of one more operator of the level,
or an operation of the level. -/
abbrev LevelRead (gaps : Bool) (i : Input) (j : Nat) (assoc : Assoc) (s₀ s : State) :
    Round Closed Closed → State → Prop :=
  Ensures.RoundTo State.remaining
    (fun y s' => Closes gaps i (53 - j) s₀ s' y (operand gaps (sides j assoc).1))
    (fun y s' => Closes gaps i (54 - j) s₀ s' y (operand gaps j) ∧ s'.remaining ≤ s.remaining) s

/-- The node is closed with its operand on the right, or where that is reported. -/
theorem levelEnd_operates {o : Opening} {b : Branch} {k : Kind} {rhs : Option Closed} {s₁ : State} (hj : j < 10)
    (hrank : rank k = j) (hk : k ∈ KindSet.binaryOperators) (ho : Opens i s₀ o (.wrapping b))
    (w : Since gaps i (53 - j) s₀ s₁ [.wrapping b]
      (operand gaps (leftBound k) * operatorOf k * ifRead (operand gaps (rightBound k)) rhs))
    (hlt : s₁.remaining < s.remaining) :
    Ensures (levelEnd level o rhs) i s₁ (LevelRead gaps i j level.assoc s₀ s) := by
  have hclose {s₂ : State} (w : Since gaps i (53 - j) s₀ s₂ [.wrapping b] (binaryOf gaps k))
      (hle : s₂.remaining ≤ s₁.remaining) : Ensures (complete o .binaryExpression) i s₂ fun y s' =>
        Closes gaps i (53 - j) s₀ s' y (operand gaps j) ∧ s'.remaining < s.remaining := by
    refine (complete_operation hk ho w).mono fun y s' ⟨hy, heq⟩ => ⟨hrank ▸ hy, ?_⟩
    omega
  cases rhs with
  | none =>
    refine w.problem fun s₂ w hdirty hstays => ?_
    change Since gaps i (53 - j) s₀ s₂ [.wrapping b] (_ * 1) at w
    rw [mul_one] at w
    refine (hclose (w.missing hdirty) hstays.remaining.le).bind fun y s' ⟨hy, hlt'⟩ => .pure ?_
    exact ⟨hy.mono (by omega) fun _ => le_refl _, hlt'.le⟩
  | some r =>
    refine (hclose w.present (le_refl _)).bind fun y s' ⟨hy, hlt'⟩ => ?_
    cases hassoc : level.assoc with
    | left => exact .pure ⟨hy, hlt'⟩
    | right => exact .pure ⟨hy.mono (by omega) fun _ => le_refl _, hlt'.le⟩

/-- **A round of a level** wraps what was read to the left of an operator of the level, or ends the level. -/
theorem levelRound_operates (he : Enters gaps i n enter) (hlevels : Level.all.drop j = level :: tighter)
    (htighter : OperatesFrom gaps i n enter (j + 1) tighter) (hn : s.remaining ≤ n)
    (hx : Closes gaps i (53 - j) s₀ s x (operand gaps (sides j level.assoc).1)) :
    Ensures (levelRound enter level tighter x) i s (LevelRead gaps i j level.assoc s₀ s) := by
  obtain ⟨hj, hlevel, -⟩ := level_of_drop hlevels
  have hlooks : 53 - j < State.maxLooks := (Nat.sub_le 53 j).trans_lt (by decide)
  rw [levelRound_eq]
  refine hx.reads.isAtOneOf hlooks (fun hnext _ => ?_) fun _ _ => ?_
  swap
  · exact .pure ⟨hx.look.mono (by omega) fun _ => sides_le, le_refl _⟩
  refine .precede hx.look fun o b s₁ ho w hstill => ?_
  have hrem : s₁.remaining = s.remaining := hstill.remaining
  obtain ⟨hrank, hbinary⟩ := rank_of_mem hlevel hnext
  obtain ⟨hleft, hright⟩ := bounds_of_mem hlevel hnext
  refine w.step (operator_reads hstill.next hbinary) (le_refl _) fun _ s₂ w _ ⟨_, hlt⟩ => ?_
  have hlt : s₂.remaining < s.remaining := hlt.trans_eq hrem
  refine w.step (rightOperand_reads he hlevels htighter (hlt.trans_le hn)) (Nat.zero_le 0) ?_
  intro rhs s₃ w hle _
  rw [← hleft, ← hright] at w
  exact levelEnd_operates hj hrank hbinary ho w (hle.trans_lt hlt)

theorem operation_operates (he : Enters gaps i n enter) : ∀ (levels : List Level) {j : Nat},
    Level.all.drop j = levels → j ≤ 10 → OperatesFrom gaps i n enter j levels
  | [], j, hlevels, hj, s₀, s, lead, hn, h => by
    obtain rfl : j = 10 := by
      have := List.drop_eq_nil_iff.1 hlevels
      exact Nat.le_antisymm hj this
    refine (unary_operates he hn (le_refl 10) h).mono ?_
    rintro (_ | y) s' h
    · exact ⟨h.1, h.2.weaken (by decide)⟩
    · exact ⟨h.1.mono (by decide) fun _ => le_refl _, h.2⟩
  | level :: tighter, j, hlevels, hj, s₀, s, lead, hn, h => by
    obtain ⟨hj', -, hdrop⟩ := level_of_drop hlevels
    have htighter : OperatesFrom gaps i n enter (j + 1) tighter := operation_operates he tighter hdrop hj'
    refine (htighter hn h).bind ?_
    rintro (_ | lhs) s₁ h₁
    · exact .pure ⟨h₁.1, h₁.2.weaken (by omega)⟩
    have hs := h₁.1.reads.sound
    have hbound := (State.remaining_le_length hs.toCoherent).trans_lt hs.input.bound
    refine Ensures.bind (Ensures.loop (m := State.remaining)
      (I := fun y s' => Closes gaps i (53 - j) s₀ s' y (operand gaps (sides j level.assoc).1) ∧
        s'.remaining ≤ s₁.remaining)
      (Q := fun y s' => Closes gaps i (54 - j) s₀ s' y (operand gaps j) ∧ s'.remaining ≤ s₁.remaining)
      ⟨h₁.1.mono (by omega) fun _ => left_le_sides, le_refl _⟩ hbound fun y s₂ ⟨hy, hle⟩ => ?_) ?_
    · refine (levelRound_operates he hlevels htighter (hle.trans (h₁.2.1.trans hn)) hy).mono ?_
      rintro (_ | _) s' ⟨hy, hle'⟩
      · exact ⟨⟨hy, (hle'.trans_le hle).le⟩, hle'⟩
      · exact ⟨hy, hle'.trans hle⟩
    · rintro y s' ⟨hy, hle⟩
      exact .pure ⟨hy, hle.trans h₁.2.1, fun hlead => hle.trans_lt (h₁.2.2 hlead)⟩

end LuaTree.Production
