import LuaTree.Proofs.Reading.Operation

/-!
# Proofs/Reading/Statement — what statements read

One lemma for each statement, read off its text.  Where a name or a parenthesis begins, the chain that
is read first becomes a call, the first target of an assignment or the beginning of a bare expression;
the last of these is always reported.
-/

namespace LuaTree.Production

open LuaTree.Parser Grammar Computability

variable {gaps : Bool} {i : Input} {c n : Nat} {s s' s₀ : State} {enter : Enter} {x : Closed}

/-- **What a statement reads**: one node of its kind. -/
abbrev ReadsNode (gaps : Bool) (i : Input) (p : Parser Unit) (s : State) (k : Kind) : Prop :=
  ∀ {c : Nat}, Recognizes gaps i c 32 p s (fun _ => node k) fun _ s' => s'.remaining < s.remaining

/-- A node of one of some kinds is read where a node of a certain one of them is. -/
theorem reads_nodeOf {k : Kind} {ks : List Kind} (hk : k ∈ ks)
    (h : Reads gaps i c s s' (node k) ∧ s'.remaining < s.remaining) :
    Reads gaps i c s s' (nodeOf ks) ∧ s'.remaining < s.remaining :=
  ⟨h.1.mono (le_refl c) fun _ => node_le_nodeOf hk, h.2⟩

/-! ## Blocks and branches -/

section

variable (he : Enters gaps i n enter) (hn : s.remaining ≤ n)
include he hn

theorem doStatement_reads (hnext : s.next = .kwDo) :
    ReadsNode gaps i (doStatement enter) s .doStatement := by
  refine .intro fun w => w.beginNoted hnext (by decide) fun o keyword s₁ ho w hlt => ?_
  refine w.step (block_reads he (by omega)) (le_refl 0) fun _ s₂ w hle _ => ?_
  refine w.expectClosing (by decide) (by decide) fun _ s₃ w hle' => ?_
  exact finish_consumed w ho (by decide) (fun _ => le_refl _) (by decide) (by omega)

theorem whileStatement_reads (hnext : s.next = .kwWhile) :
    ReadsNode gaps i (whileStatement enter) s .whileStatement := by
  refine .intro fun w => w.beginNoted hnext (by decide) fun o keyword s₁ ho w hlt => ?_
  refine w.step (expectExpression_reads he (by omega)) (le_refl 0) fun _ s₂ w hle _ => ?_
  refine w.expect (by decide) (by decide) fun _ s₃ w hle => ?_
  refine w.step (block_reads he (by omega)) (le_refl _) fun _ s₄ w hle _ => ?_
  refine w.expectClosing (by decide) (by decide) fun _ s₅ w hle => ?_
  exact finish_consumed w ho (by decide) (fun _ => le_refl _) (by decide) (by omega)

theorem repeatStatement_reads (hnext : s.next = .kwRepeat) :
    ReadsNode gaps i (repeatStatement enter) s .repeatStatement := by
  refine .intro fun w => w.beginNoted hnext (by decide) fun o keyword s₁ ho w hlt => ?_
  refine w.step (block_reads he (by omega)) (le_refl 0) fun _ s₂ w hle _ => ?_
  refine w.expectClosingOr (by decide) (by decide) (fun s₃ _ w hlt' => ?_) fun s₃ _ w heq hdirty => ?_
  · refine w.step (expectExpression_reads he (by omega)) (le_refl 0) fun _ s₄ w hle _ => ?_
    refine finish_consumed w ho (by decide) (fun _ => ?_) (by decide) (by omega)
    rw [mul_assoc]
    exact mul_le_mul_right le_hole _
  · have w := w.missing (M := token .kwUntil * hole gaps (Grammar.expression gaps)) hdirty
    exact finish_consumed w ho (by decide) (fun _ => le_refl _) (by decide) (by omega)

theorem elseifBranches_reads : Recognizes gaps i 2 3 (elseifBranches enter) s
    (fun _ => (node .elseifBranch)∗) fun _ _ => True := by
  refine .mono (loop_reads (M := 1) hn fun s₁ hn₁ w => ?_) fun _ => (mul_one _).le
  have hs := w.sound
  refine w.isAt (by decide) (fun hnext w => ?_) fun _ w => .pure w
  refine w.restart.begin hnext (by decide) fun o s₂ ho w (hlt : s₂.remaining < s₁.remaining) => ?_
  refine w.step (expectExpression_reads he (by omega)) (le_refl 0) fun _ s₃ w hle _ => ?_
  refine w.expect (by decide) (by decide) fun _ s₄ w hle => ?_
  refine w.step (block_reads he (by omega)) (le_refl _) fun _ s₅ w hle _ => ?_
  refine w.finish ho (by decide) (fun _ => le_refl _) fun s₆ hr heq => .pure ⟨?_, by omega⟩
  exact (hr.of_look hs).weaken (by decide)

theorem ifStatement_reads (hnext : s.next = .kwIf) :
    ReadsNode gaps i (ifStatement enter) s .ifStatement := by
  refine .intro fun w => w.beginNoted hnext (by decide) fun o keyword s₁ ho w hlt => ?_
  refine w.step (expectExpression_reads he (by omega)) (le_refl 0) fun _ s₂ w hle _ => ?_
  refine w.expect (by decide) (by decide) fun _ s₃ w hle => ?_
  refine w.start fun branch s₄ hb wb hstill => ?_
  have hrem := hstill.remaining
  refine wb.step (block_reads he (by omega)) (le_refl _) fun _ s₅ wb hle _ => ?_
  rw [one_mul] at wb
  refine wb.finish hb (by decide) (fun _ => le_refl _) fun s₆ hr heq => ?_
  have w := w.trans hr
  refine w.step (elseifBranches_reads he (by omega)) (by decide) fun _ s₇ w hle _ => ?_
  have hclose {s' : State} {L : Language Tree} (hL : L ≤ 1 + node .elseBranch)
      (w : Since gaps i 4 s s' [.blank] (token .kwIf * hole gaps (Grammar.expression gaps) *
        hole gaps (token .kwThen) * node .thenBranch * (node .elseifBranch)∗ * L))
      (hle' : s'.remaining ≤ s₇.remaining) : Ensures (do
        let _ ← expectClosing .kwEnd "'if' statement started here" keyword
        finish o .ifStatement) i s' fun _ s' =>
          Reads gaps i 32 s s' (node .ifStatement) ∧ s'.remaining < s.remaining := by
    refine (w.last fun _ => hL).expectClosing (by decide) (by decide) fun _ s₉ w hle'' => ?_
    exact finish_consumed w ho (by decide) (fun _ => le_refl _) (by decide) (by omega)
  refine w.isAt (by decide) (fun hnext w => ?_) fun _ w => ?_
  · have hs := w.sound
    refine w.restart.begin hnext (by decide) fun o s₈ ho w' (hlt : s₈.remaining < s₇.remaining) => ?_
    refine w'.step (block_reads he (by omega)) (le_refl 0) fun _ s₉ w' hle _ => ?_
    refine w'.finish ho (by decide) (fun _ => le_refl _) fun s' hr heq => ?_
    exact hclose le_add_self ((w.trans hr).weaken (by decide)) (by omega)
  · exact hclose le_self_add (by simpa only [mul_one] using w) (le_refl s₇.remaining)

/-! ## Loops over names -/

omit he hn

/-- The row of a number of names, none of which is only there where that is reported. -/
def namesRow (gaps : Bool) (count : Nat) : Language Tree :=
  if count ≤ 1 then hole gaps (node .name * extra gaps (token .comma)) else Grammar.names gaps

theorem namesRow_le {count : Nat} : namesRow gaps count ≤ hole gaps (Grammar.names gaps) := by
  rw [namesRow]
  split
  · exact hole_mono (mul_le_mul_left name_le_someNames _)
  · exact le_hole

theorem names_reads : Recognizes gaps i 8 10 names s (namesRow gaps) fun _ _ => True := by
  refine .intro fun w => w.isAt (by decide) (fun hnext w => ?_) fun hnext w => ?_
  swap
  · refine w.unmet (by decide) (by decide) hnext fun s₁ w _ hdirty => .pure ⟨?_, trivial⟩
    have w := w.missing (M := node .name * extra gaps (token .comma)) hdirty
    rwa [one_mul] at w
  refine w.step (name_reads (by decide) hnext) (le_refl _) fun _ s₁ w _ _ => ?_
  rw [one_mul] at w
  have hs := w.sound
  have hbound := (State.remaining_le_length hs.toCoherent).trans_lt hs.input.bound
  -- a single name is told from more of them, which decides between the loops
  refine Ensures.loop (m := State.remaining) (I := fun count s' => 1 ≤ count ∧
    Reads gaps i 0 s s' (if count ≤ 1 then node .name else someNames)) ⟨le_refl 1, w⟩ hbound ?_
  rintro count s₂ ⟨hcount, w⟩
  have hrow {L : Language Tree} (hL : L ≤ extra gaps (token .comma)) :
      (if count ≤ 1 then node .name else someNames) * L ≤ namesRow gaps count := by
    rw [namesRow]
    split
    · exact (mul_le_mul_right hL _).trans le_hole
    · exact mul_le_mul_right hL _
  refine w.eat (by decide) (by decide) (fun s₃ _ w hlt => ?_) fun _ w => ?_
  · refine w.isAt (by decide) (fun hnext w => ?_) fun hnext w => ?_
    · refine w.step (name_reads (by decide) hnext) (le_refl _) fun _ s₄ w hle _ => .pure ?_
      refine ⟨⟨Nat.le_add_left 1 count, w.mono (le_refl 0) fun _ => ?_⟩, hle.trans_lt hlt⟩
      rw [if_neg (by omega : ¬ count + 1 ≤ 1)]
      split
      · exact (mul_le_mul_left (mul_le_mul_left name_le_someNames _) _).trans someNames_mul_le
      · exact someNames_mul_le
    · refine w.unmet (by decide) (by decide) hnext fun s₄ w _ hdirty => .pure ⟨?_, trivial⟩
      refine w.mono (by decide) fun hgaps => hrow ?_
      obtain rfl : gaps = true := hgaps.resolve_left hdirty
      exact le_extra
  · exact .pure ⟨w.mono (by decide) fun _ => (mul_one _).symm.le.trans (hrow one_le_extra), trivial⟩

include he hn

theorem loopBody_reads {o : Opening} {keyword : Span} {k : Kind} {L : Language Tree} {s₁ : State}
    (ho : Opens i s o .blank) (hk : k ≠ .error ∧ k ≠ .tombstone) (w : Since gaps i c s s₁ [.blank] L) (hc : c ≤ 30)
    (hL : L * hole gaps (token .kwDo) * node .block * hole gaps (token .kwEnd) ≤ production gaps k)
    (hlt : s₁.remaining < s.remaining) : Ensures (loopBody enter o keyword k) i s₁ fun _ s' =>
      Reads gaps i 32 s s' (node k) ∧ s'.remaining < s.remaining := by
  refine w.expect (hc.trans_lt (by decide)) (by decide) fun _ s₂ w hle => ?_
  refine w.step (block_reads he (by omega)) (le_refl _) fun _ s₃ w hle' _ => ?_
  refine w.expectClosing ((Nat.succ_le_succ hc).trans_lt (by decide)) (by decide) fun _ s₄ w hle'' => ?_
  exact finish_consumed w ho hk (fun _ => hL) (by omega) (by omega)

/-- Behind the names of a loop over expressions. -/
theorem rangeFor_reads {o list : Opening} {keyword : Span} {s₂ s₃ : State} {count : Nat}
    (ho : Opens i s o .blank) (hl : Opens i s₂ list .blank)
    (w : Since gaps i 0 s s₂ [.blank] (token .kwFor))
    (wl : Since gaps i 11 s₂ s₃ [.blank] (namesRow gaps count)) (hlt : s₂.remaining < s.remaining) :
    Ensures (rangeFor enter o list keyword) i s₃ fun _ s' =>
      Reads gaps i 32 s s' (node .rangeForStatement) ∧ s'.remaining < s.remaining := by
  have hle := wl.remaining_le
  refine wl.finish hl (by decide) (fun _ => namesRow_le) fun s₄ hr heq => ?_
  refine (w.trans hr).expect (by decide) (by decide) fun _ s₅ w hle => ?_
  refine w.step (expectExpressionList_reads he (by omega) (by decide)) (le_refl _) fun _ s₆ w hle _ => ?_
  exact loopBody_reads he hn ho (by decide) w (by decide) (le_refl _) (by omega)

/-- Behind the name of a loop over numbers. -/
theorem simpleFor_reads {o list : Opening} {keyword : Span} {s₂ s₃ : State} {count : Nat}
    (hcount : count ≤ 1) (ho : Opens i s o .blank) (hl : Opens i s₂ list .blank)
    (w : Since gaps i 0 s s₂ [.blank] (token .kwFor))
    (wl : Since gaps i 11 s₂ s₃ [.blank] (namesRow gaps count)) (hlt : s₂.remaining < s.remaining) :
    Ensures (simpleFor enter o list keyword) i s₃ fun _ s' =>
      Reads gaps i 32 s s' (node .simpleForStatement) ∧ s'.remaining < s.remaining := by
  have hle := wl.remaining_le
  rw [namesRow, if_pos hcount] at wl
  refine (Ensures.abandon hl wl).bind fun _ s₄ ⟨hr, hstill⟩ => ?_
  have hrem := hstill.remaining
  refine (w.trans hr).expect (by decide) (by decide) fun _ s₅ w hle => ?_
  refine w.step (expectExpression_reads he (by omega)) (le_refl _) fun _ s₆ w hle _ => ?_
  refine w.expect (by decide) (by decide) fun _ s₇ w hle => ?_
  refine w.step (expectExpression_reads he (by omega)) (le_refl _) fun _ s₈ w hle _ => ?_
  refine w.eat (by decide) (by decide) (fun s₉ _ w hlt => ?_) fun _ w => ?_
  · refine w.step (expectExpression_reads he (by omega)) (le_refl _) fun _ s₁₀ w hle _ => ?_
    rw [mul_assoc _ (token .comma)] at w
    exact loopBody_reads he hn ho (by decide) (w.last fun _ => le_add_self) (by decide) (le_refl _) (by omega)
  · have w := w.mono (le_refl _) fun _ => (mul_one _).ge
    exact loopBody_reads he hn ho (by decide) (w.last fun _ => le_self_add) (by decide) (le_refl _)
      (by simp only [State.remaining_look]; omega)

theorem forStatement_reads (hnext : s.next = .kwFor) {c : Nat} :
    Recognizes gaps i c 32 (forStatement enter) s
      (fun _ => nodeOf [.rangeForStatement, .simpleForStatement])
      fun _ s' => s'.remaining < s.remaining := by
  rw [forStatement_eq]
  refine .intro fun w => w.beginNoted hnext (by decide) fun o keyword s₁ ho w hlt => ?_
  refine w.start fun list s₂ hl wl hstill => ?_
  refine wl.step names_reads (by decide) fun count s₃ wl _ _ => ?_
  rw [one_mul] at wl
  by_cases hcount : 1 < count
  · rw [if_pos hcount]
    exact (rangeFor_reads he hn ho hl w (wl.weaken (by decide)) hlt).mono fun _ _ => reads_nodeOf (by decide)
  · rw [if_neg hcount]
    refine wl.isAt (by decide) (fun _ wl => ?_) fun _ wl => ?_
    · exact (rangeFor_reads he hn ho hl w wl hlt).mono fun _ _ => reads_nodeOf (by decide)
    · exact (simpleFor_reads he hn (by omega) ho hl w wl hlt).mono fun _ _ => reads_nodeOf (by decide)

/-! ## Functions and declarations -/

omit he hn

/-- A dot and a name, time and again. -/
abbrev dots (gaps : Bool) : Language Tree := (token .dot * hole gaps (token .ident))∗

theorem dots_reads : Recognizes gaps i 2 3 (loop () fun _ => do
      if !(← eat .dot) then return .done ()
      let _ ← expect .ident
      return .again ()) s
    (fun _ => if s.next = .dot then token .dot * hole gaps (token .ident) * dots gaps else 1)
    fun _ s' => s.next ≠ .dot → s'.next = s.next := by
  refine .intro fun w₀ => ?_
  have hs := w₀.sound
  have hbound := (State.remaining_le_length hs.toCoherent).trans_lt hs.input.bound
  refine Ensures.loop (m := State.remaining) (I := fun _ s' =>
    s'.next = s.next ∧ Reads gaps i 2 s s' 1 ∨ s.next = .dot ∧
      Reads gaps i 2 s s' (token .dot * hole gaps (token .ident) * dots gaps))
    (.inl ⟨rfl, w₀⟩) hbound fun _ s₁ h => ?_
  rcases h with ⟨hnext, w⟩ | ⟨hnext, w⟩
  · refine w.eat (by decide) (by decide) (fun s₂ hdot w hlt => ?_) fun hdot w => ?_
    · refine w.expect (by decide) (by decide) fun _ s₃ w hle => .pure ⟨.inr ⟨hnext ▸ hdot, ?_⟩, by omega⟩
      refine w.mono (by decide) fun _ => ?_
      rw [one_mul]
      exact le_mul_of_one_le_right' one_le_kstar
    · rw [hnext] at hdot
      refine .pure ⟨?_, fun _ => hnext⟩
      rwa [if_neg hdot]
  · refine w.eat (by decide) (by decide) (fun s₂ hdot w hlt => ?_) fun hdot w => ?_
    · refine w.expect (by decide) (by decide) fun _ s₃ w hle => .pure ⟨.inr ⟨hnext, ?_⟩, by omega⟩
      refine w.mono (by decide) fun _ => ?_
      rw [mul_assoc _ (token .dot), mul_assoc]
      exact mul_le_mul_right kstar_mul_le_kstar _
    · refine .pure ⟨?_, fun h => absurd hnext h⟩
      rwa [if_pos hnext]

/-- What may follow a name into an existing table, by its first token. -/
def pathFrom (gaps : Bool) (k : Kind) : Language Tree :=
  if k = .dot then token .dot * hole gaps (token .ident) * dots gaps *
    (1 + token .colon * hole gaps (token .ident))
  else if k = .colon then token .colon * hole gaps (token .ident)
  else 1

theorem pathFrom_le_path {k : Kind} (hk : k = .dot ∨ k = .colon) : pathFrom gaps k ≤ path gaps := by
  rcases hk with rfl | rfl
  · exact le_self_add
  · exact le_add_self

theorem pathFrom_eq_one {k : Kind} (hdot : k ≠ .dot) (hcolon : k ≠ .colon) : pathFrom gaps k = 1 := by
  rw [pathFrom, if_neg hdot, if_neg hcolon]

/-- Behind the first name of the name of a function. -/
theorem pathEnd_reads {o : Opening} {L : Language Tree} (ho : Opens i s₀ o .blank)
    (w : Since gaps i 2 s₀ s [.blank] L)
    (hL : L * pathFrom gaps s.next ≤ production gaps .functionName) :
    Ensures (pathEnd o) i s fun _ s' => Reads gaps i 8 s₀ s' (node .functionName) ∧ True := by
  refine w.step dots_reads (le_refl _) fun _ s₁ w _ hnext => ?_
  refine w.eat (by decide) (by decide) (fun s₂ hcolon w _ => ?_) fun hcolon w => ?_
  · refine w.expect (by decide) (by decide) fun _ s₃ w _ => ?_
    refine finish_reads w ho (by decide) (fun _ => le_trans ?_ hL) (by decide)
    rw [mul_assoc _ (token .colon), mul_assoc]
    refine mul_le_mul_right ?_ L
    by_cases hdot : s.next = .dot
    · rw [if_pos hdot, hdot]
      exact mul_le_mul_right le_add_self _
    · rw [if_neg hdot, one_mul, ← hnext hdot, hcolon]
      exact le_refl _
  · refine finish_reads w ho (by decide) (fun _ => le_trans (mul_le_mul_right ?_ L) hL) (by decide)
    by_cases hdot : s.next = .dot
    · rw [if_pos hdot, hdot]
      exact le_mul_of_one_le_right' le_self_add
    · rw [if_neg hdot, pathFrom_eq_one hdot (hnext hdot ▸ hcolon)]

theorem functionName_reads : Recognizes gaps i 2 8 functionName s (fun _ => node .functionName)
    fun _ _ => True := by
  refine .intro fun w => w.start fun o s₁ ho w hstill => ?_
  refine w.isAt (by decide) (fun hnext w => ?_) fun hnext w => ?_
  swap
  · refine w.unmet (by decide) (by decide) hnext fun s₂ w _ hdirty => ?_
    refine finish_reads w ho (by decide) (fun hgaps => ?_) (by decide)
    obtain rfl : gaps = true := hgaps.resolve_left hdirty
    exact one_le_hole
  refine w.peekAt 1 (by decide) fun w => ?_
  have hsecond {s₂ : State} (h : s₂.significant = s₁.significant.tail) :
      s₂.next = s₁.look.significant[1]?.elim .error Token.kind := by
    rw [State.next, h, State.significant_look, List.head?_tail]
  -- a name that a path follows is the use of a name
  have hpath (hk : s₁.look.significant[1]?.elim .error Token.kind = .dot ∨
      s₁.look.significant[1]?.elim .error Token.kind = .colon) :
      Ensures nameRef i s₁.look.look fun _ s₂ => Since gaps i 2 s s₂ [.blank] (node .nameRef) ∧
        node .nameRef * pathFrom gaps s₂.next ≤ production gaps .functionName := by
    refine (nameRef_closes w.restart (by decide) hnext).mono ?_
    rintro x s₂ ⟨hx, htail, -⟩
    constructor
    · simpa only [one_mul] using (w.trans hx.node).weaken (Nat.zero_le 2)
    · rw [hsecond htail]
      exact ((mul_le_mul_right (pathFrom_le_path hk) _).trans le_add_self).trans le_hole
  split
  · rename_i hdot
    exact (hpath (.inl hdot)).bind fun _ s₂ h => pathEnd_reads ho h.1 h.2
  · rename_i hcolon
    exact (hpath (.inr hcolon)).bind fun _ s₂ h => pathEnd_reads ho h.1 h.2
  · rename_i hdot hcolon
    refine w.step (name_reads (by decide) hnext) (le_refl _) ?_
    rintro _ s₂ w - ⟨htail, -⟩
    rw [one_mul] at w
    refine pathEnd_reads ho (w.weaken (by decide)) (le_trans ?_ le_hole)
    rw [pathFrom_eq_one (hsecond htail ▸ hdot) (hsecond htail ▸ hcolon), mul_one]
    exact le_self_add

include he hn

theorem functionStatement_reads (hnext : s.next = .kwFunction) :
    ReadsNode gaps i (functionStatement enter) s .functionDefinitionStatement := by
  refine .intro fun w => w.beginNoted hnext (by decide) fun o keyword s₁ ho w hlt => ?_
  refine w.step functionName_reads (by decide) fun _ s₂ w hle _ => ?_
  refine w.step (functionBody_reads he (by omega)) (le_refl _) fun _ s₃ w hle _ => ?_
  exact finish_consumed w ho (by decide) (fun _ => le_refl _) (le_refl _) (by omega)

theorem localStatement_reads (hnext : s.next = .kwLocal) {c : Nat} :
    Recognizes gaps i c 32 (localStatement enter) s
      (fun _ => nodeOf [.localFunctionStatement, .localNameStatement])
      fun _ s' => s'.remaining < s.remaining := by
  refine .intro fun w => w.beginNoted hnext (by decide) fun o keyword s₁ ho w hlt => ?_
  refine w.eat (by decide) (by decide) (fun s₂ _ w hlt₂ => ?_) fun _ w => ?_
  · have hbody {s₃ : State} {L : Language Tree} (hL : L ≤ hole gaps (node .name))
        (w : Since gaps i 2 s s₃ [.blank] (token .kwLocal * token .kwFunction * L))
        (hle : s₃.remaining ≤ s₂.remaining) : Ensures (do
          functionBody enter keyword
          finish o .localFunctionStatement) i s₃ fun _ s' =>
            Reads gaps i 32 s s' (nodeOf [.localFunctionStatement, .localNameStatement]) ∧
              s'.remaining < s.remaining := by
      refine (w.last fun _ => hL).step (functionBody_reads he (by omega)) (by decide) ?_
      intro _ s₄ w hle _
      refine (finish_consumed w ho (by decide) (fun _ => le_refl _) (le_refl 32) (by omega)).mono ?_
      exact fun _ _ => reads_nodeOf (by decide)
    refine w.isAt (by decide) (fun hnext w => ?_) fun hnext w => ?_
    · refine w.step (name_reads (by decide) hnext) (le_refl _) fun _ s₃ w hle _ => ?_
      exact hbody le_hole (w.weaken (by decide)) hle
    · refine w.unmet (by decide) (by decide) hnext fun s₃ w heq hdirty => ?_
      exact hbody (le_refl _) (w.missing hdirty) heq.le
  · refine w.start fun list s₂ hl wl hstill => ?_
    have hrem : s₂.remaining = s₁.remaining := hstill.remaining
    refine wl.step names_reads (by decide) fun count s₃ wl hle _ => ?_
    rw [one_mul] at wl
    refine wl.finish hl (by decide) (fun _ => namesRow_le) fun s₄ hr heq => ?_
    refine (w.trans hr).eat (by decide) (by decide) (fun s₅ _ w hlt₅ => ?_) fun _ w => ?_
    · refine w.step (expectExpressionList_reads he (by omega) (by decide)) (le_refl _) ?_
      intro _ s₆ w hle _
      refine (finish_consumed w ho (by decide) (fun _ => ?_) (show _ ≤ 32 by decide) (by omega)).mono ?_
      · rw [mul_assoc _ (token .equals)]
        exact mul_le_mul_right le_add_self _
      · exact fun _ _ => reads_nodeOf (by decide)
    · refine (finish_consumed w ho (by decide) (fun _ => ?_) (show _ ≤ 32 by decide) ?_).mono ?_
      · exact le_mul_of_one_le_right' le_self_add
      · simp only [State.remaining_look]
        omega
      · exact fun _ _ => reads_nodeOf (by decide)

theorem returnStatement_reads (hnext : s.next = .kwReturn) :
    ReadsNode gaps i (returnStatement enter) s .returnStatement := by
  refine .intro fun w => w.begin hnext (by decide) fun o s₁ ho w hlt => ?_
  refine w.step (expressionList_reads he (by omega) (by decide)) (le_refl _) fun b s₂ w hle _ => ?_
  have hb : ifTrue (node .expressionList) b ≤ 1 + node .expressionList := by
    cases b with
    | false => exact le_self_add
    | true => exact le_add_self
  refine (w.last fun _ => hb).eat (by decide) (by decide) (fun s₃ _ w hlt₃ => ?_) fun _ w => ?_
  · refine finish_consumed w ho (by decide) (fun _ => ?_) (by decide) (by omega)
    exact mul_le_mul_right le_add_self _
  · refine finish_consumed w ho (by decide) (fun _ => ?_) (by decide) (hle.trans_lt hlt)
    exact le_mul_of_one_le_right' le_self_add

omit he hn

theorem breakStatement_reads (hnext : s.next = .kwBreak) :
    ReadsNode gaps i breakStatement s .breakStatement := by
  refine .intro fun w => w.begin hnext (by decide) fun o s₁ ho w hlt => ?_
  exact finish_consumed w ho (by decide) (fun _ => le_refl _) (by decide) hlt

theorem gotoStatement_reads (hnext : s.next = .kwGoto) :
    ReadsNode gaps i gotoStatement s .gotoStatement := by
  refine .intro fun w => w.begin hnext (by decide) fun o s₁ ho w hlt => ?_
  refine w.expect (by decide) (by decide) fun _ s₂ w hle => ?_
  exact finish_consumed w ho (by decide) (fun _ => le_refl _) (by decide) (by omega)

theorem labelStatement_reads (hnext : s.next = .doubleColon) :
    ReadsNode gaps i labelStatement s .labelStatement := by
  refine .intro fun w => w.begin hnext (by decide) fun o s₁ ho w hlt => ?_
  refine w.expect (by decide) (by decide) fun _ s₂ w hle => ?_
  refine w.expect (by decide) (by decide) fun _ s₃ w hle => ?_
  exact finish_consumed w ho (by decide) (fun _ => le_refl _) (by decide) (by omega)

end

end LuaTree.Production
