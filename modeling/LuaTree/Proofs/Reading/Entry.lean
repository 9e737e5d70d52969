import LuaTree.Proofs.Consuming

/-!
# Proofs/Reading/Entry — what is read through the counted productions

`Enters` says what the three counted productions read while fewer than `n` significant tokens are left.
Everything else is proved from it, and the recursion is tied where the productions tie it.
-/

namespace LuaTree.Production

open LuaTree.Parser Grammar Computability

variable {gaps : Bool} {i : Input} {c c' n : Nat} {s s' s₀ : State} {d : Draft} {o : Opening}
  {L : Language Tree} {k kind : Kind} {enter : Enter}

/-- What is read when there may be no answer. -/
def ifRead (L : Language Tree) (a : Option Closed) : Language Tree := if a.isSome then L else 1

/-- What is read by a production that tells whether it has read something. -/
def ifTrue (L : Language Tree) (b : Bool) : Language Tree := if b then L else 1

/-- What a production has read that may answer with a node. -/
def Begun (gaps : Bool) (i : Input) (c : Nat) (s : State) (L : Language Tree) :
    Option Closed → State → Prop
  | none, s' => Reads gaps i c s s' 1
  | some x, s' => Closes gaps i c s s' x L ∧ s'.remaining < s.remaining

theorem Begun.of_look {a : Option Closed} (hs : s.Sound i) (h : Begun gaps i c s.look L a s') :
    Begun gaps i c s L a s' := by
  cases a with
  | none => exact Since.of_look hs h
  | some x => exact ⟨h.1.of_look hs, h.2⟩

/-- **What the counted productions read** while fewer than `n` significant tokens are left. -/
structure Enters (gaps : Bool) (i : Input) (n : Nat) (enter : Enter) : Prop where
  statements : ∀ {c : Nat} {s : State}, s.remaining < n → Recognizes gaps i c c (enter .statements) s
    (fun _ => production gaps .statementList) fun _ _ => True
  unary : ∀ {c : Nat} {s : State}, s.remaining < n → Recognizes gaps i c c (enter .unary) s
    (ifRead (operand gaps 10)) fun a s' => a.isSome → s'.remaining < s.remaining
  operation : ∀ {c : Nat} {s : State} {rank : Nat}, rank ≤ 10 → s.remaining < n →
    Recognizes gaps i c c (enter (.operation (Level.all.drop rank) none)) s
      (ifRead (operand gaps rank)) fun a s' => a.isSome → s'.remaining < s.remaining
  /-- An operation goes on after its leftmost operand. -/
  continued : ∀ {c : Nat} {s₀ s : State} {x : Closed}, s.remaining < n →
    Closes gaps i c s₀ s x (operand gaps 12) →
    Ensures (enter (.operation Level.all (some x))) i s fun _ s' =>
      Reads gaps i c s₀ s' (Grammar.expression gaps) ∧ s'.remaining ≤ s.remaining

/-! ## Nodes around one token -/

/-- A node around the next token. -/
theorem single_closes (w : Reads gaps i c s s 1) (hnext : s.next = k) (hne : k ≠ .error)
    (hkind : kind ≠ .error ∧ kind ≠ .tombstone) (hL : token k ≤ production gaps kind) :
    Ensures (single kind) i s fun x s' => Closes gaps i 0 s s' x (around kind (token k)) ∧
      s'.significant = s.significant.tail ∧ s'.remaining < s.remaining := by
  refine w.start fun o s₁ ho w hstill => ?_
  refine w.bump (hstill.next.trans hnext) hne fun s₂ w hlt htail => ?_
  rw [one_mul] at w
  refine (Ensures.complete ho w hkind fun _ => hL).mono fun x s' ⟨hx, hstill'⟩ => ⟨hx, ?_, ?_⟩
  · rw [hstill'.significant, htail, hstill.significant]
  · exact hstill'.remaining.trans_lt (hlt.trans_eq hstill.remaining)

theorem single_reads (hnext : s.next = k) (hne : k ≠ .error) (hkind : kind ≠ .error ∧ kind ≠ .tombstone)
    (hL : token k ≤ production gaps kind) :
    Recognizes gaps i c 0 (single kind) s (fun _ => around kind (token k)) fun _ s' =>
      s'.significant = s.significant.tail ∧ s'.remaining < s.remaining :=
  .intro fun w => (single_closes w hnext hne hkind hL).mono fun _ _ h => ⟨h.1.reads, h.2⟩

theorem ne_of_mem {set : KindSet} (h : k ∈ set) (hkind : kind ∉ set) : k ≠ kind :=
  fun hk => hkind (hk ▸ h)

/-- A node around a token of some kinds. -/
theorem single_reads_of_mem {set : KindSet} (hnext : s.next ∈ set) (hset : Kind.error ∉ set)
    (hkind : kind ≠ .error ∧ kind ≠ .tombstone) (hL : tokenOf set ≤ production gaps kind) :
    Recognizes gaps i c 0 (single kind) s (fun _ => node kind) fun _ s' => s'.remaining < s.remaining :=
  .intro fun w => (single_closes w rfl (ne_of_mem hnext hset) hkind
    ((token_le_tokenOf hnext).trans hL)).mono fun _ _ h => ⟨h.1.node, h.2.2⟩

theorem name_reads (hc : c < State.maxLooks) (hnext : s.next = .ident) :
    Recognizes gaps i c 0 name s (fun _ => node .name) fun _ s' =>
      s'.significant = s.significant.tail ∧ s'.remaining < s.remaining := by
  refine .intro fun w => w.require hc hnext fun w => ?_
  refine w.step (single_reads hnext (by decide) (by decide) (le_refl _)) (Nat.le_refl _) ?_
  refine fun _ s' w _ hconsumed => .pure ⟨w.mono (Nat.le_refl 0) fun _ => ?_, hconsumed⟩
  rw [one_mul]
  exact around_le_node

theorem nameRef_closes (w : Reads gaps i c s s 1) (hc : c < State.maxLooks) (hnext : s.next = .ident) :
    Ensures nameRef i s fun x s' => Closes gaps i 0 s s' x (around .nameRef (token .ident)) ∧
      s'.significant = s.significant.tail ∧ s'.remaining < s.remaining := by
  have hs := w.sound
  refine w.require hc hnext fun w => ?_
  refine (single_closes w.restart hnext (by decide) (by decide) (le_refl _)).mono ?_
  exact fun x s' ⟨hx, hconsumed⟩ => ⟨hx.of_look hs, hconsumed⟩

/-! ## Expressions and blocks -/

section

variable (he : Enters gaps i n enter) (hn : s.remaining < n)
include he hn

theorem expectExpression_reads : Recognizes gaps i c c (expectExpression enter) s
    (fun _ => hole gaps (Grammar.expression gaps)) fun _ _ => True := by
  refine .intro fun w => w.step (he.operation (Nat.zero_le 10) hn) (Nat.le_refl c) ?_
  rintro (_ | x) s₁ w _ _
  · rw [one_mul] at w
    refine .last (w.problem fun s₂ (w : Reads gaps i c s s₂ 1) hdirty _ => .pure ⟨?_, trivial⟩)
    simpa only [one_mul] using w.missing hdirty
  · have w := w.present
    rw [one_mul] at w
    exact .pure ⟨w, trivial⟩

/-- A comma and an expression, time and again. -/
theorem moreExpressions_reads (hc : c < State.maxLooks) :
    Recognizes gaps i c (c + 1) (moreExpressions enter) s (fun _ => Grammar.moreExpressions gaps)
      fun _ _ => True := by
  refine .mono (loop_reads (M := 1) (le_refl s.remaining) fun s₁ hn₁ w => ?_) fun _ => (mul_one _).le
  refine w.eat hc (by decide) (fun s₂ _ w hlt => ?_) fun _ w => .pure w
  have hn₂ := hlt.trans_le (hn₁.trans hn.le)
  refine w.step (expectExpression_reads he hn₂) (Nat.le_refl 0) fun _ s₃ w hle _ => ?_
  rw [one_mul] at w
  exact .pure ⟨w.weaken (Nat.zero_le c), hle.trans_lt hlt⟩

theorem expressionList_reads (hc : c < State.maxLooks) :
    Recognizes gaps i c (c + 1) (expressionList enter) s (ifTrue (node .expressionList))
      fun b s' => b → s'.remaining < s.remaining := by
  refine .intro fun w => w.start fun o s₁ ho w hstill => ?_
  have hn₁ : s₁.remaining < n := by rwa [hstill.remaining]
  refine w.step (he.operation (Nat.zero_le 10) hn₁) (Nat.le_refl c) ?_
  rintro (_ | x) s₂ w hle hlt <;> rw [one_mul] at w
  · refine (Ensures.abandon ho w).bind fun _ s₃ ⟨hr, _⟩ => .pure ⟨?_, nofun⟩
    exact hr.weaken (Nat.le_succ c)
  · have hlt₂ : s₂.remaining < s.remaining := hstill.remaining ▸ hlt rfl
    refine w.step (moreExpressions_reads he (hlt₂.trans hn) hc) (Nat.le_refl c) fun _ s₃ w hle _ => ?_
    refine w.finish ho (by decide) (fun _ => mul_le_mul_left le_hole _) fun s₄ hr heq => .pure ⟨hr, ?_⟩
    exact fun _ => heq.trans_lt (hle.trans_lt hlt₂)

theorem expectExpressionList_reads (hc : c < State.maxLooks) :
    Recognizes gaps i c (c + 1) (expectExpressionList enter) s (fun _ => hole gaps (node .expressionList))
      fun _ _ => True := by
  refine .intro fun w => w.step (expressionList_reads he hn hc) (Nat.le_refl c) ?_
  rintro (_ | _) s₁ w _ _
  · refine .last (w.problem fun s₂ (w : Reads gaps i (c + 1) s s₂ (1 * 1)) hdirty _ => .pure ⟨?_, trivial⟩)
    simpa only [one_mul] using w.missing hdirty
  · have w := w.present
    rw [one_mul] at w
    exact .pure ⟨w, trivial⟩

theorem block_reads : Recognizes gaps i c c (block enter) s (fun _ => node .block)
    fun _ _ => True := by
  refine .intro fun w => w.start fun outer s₁ ho w hstill => w.start fun list s₂ hl wl hstill' => ?_
  have hn₂ : s₂.remaining < n := by rwa [hstill'.remaining, hstill.remaining]
  refine wl.step (he.statements hn₂) (Nat.le_refl c) fun _ s₃ wl _ _ => ?_
  rw [one_mul] at wl
  refine wl.finish hl (by decide) (fun _ => le_refl _) fun s₄ hr _ => ?_
  have w := w.trans hr
  rw [one_mul] at w
  exact finish_reads w ho (by decide) (fun _ => le_refl _) (le_refl c)

end

end LuaTree.Production
