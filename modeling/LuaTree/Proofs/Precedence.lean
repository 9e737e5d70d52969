import LuaTree.Proofs.Inclusion

/-!
# Proofs/Precedence — how operators group their operands

Every binary operator has a rank and a side on which operators of its rank are grouped.  `Orderly` says
of the children of an operation that they respect both, and the nodes of every conforming tree do, with
gaps or without (`orderly_of_conforms`).  The grammar asks for operands that are tight enough; the lemmas
`fitsLeft_of_le`, `fitsRight_of_le` and `fitsUnary_of_le` say what that means for the operators in them.
-/

namespace LuaTree

open Computability

namespace Grammar

/-! ## The table -/

/-- On which side operators of one rank are grouped. -/
def assoc (k : Kind) : Assoc := (Level.all[rank k]?).elim .right Level.assoc

/-- **The binary operators by rank**; unary operators have rank 10, and atoms 12. -/
theorem binaryOperators_by_rank :
    (List.range 12).map (fun j => KindSet.binaryOperators.toList.filter (rank · = j)) =
      [[.kwOr], [.kwAnd], [.less, .lessEquals, .greater, .greaterEquals, .equalsEquals, .tildeEquals],
        [.pipe], [.tilde], [.ampersand], [.shl, .shr], [.dotDot], [.plus, .minus],
        [.star, .slash, .doubleSlash, .percent], [], [.caret]] := by
  decide +kernel

/-- The operators that are grouped to the right. -/
theorem binaryOperators_to_right :
    KindSet.binaryOperators.toList.filter (assoc · = .right) = [.dotDot, .caret] := by
  decide +kernel

/-- The operator of an expression, if it is a binary one. -/
def operatorIn? : Tree → Option Kind
  | .node .binaryExpression cs => operator? cs
  | _ => none

/-- **The left operand of an operator** is no binary expression, or one of a higher rank, or one of the
same rank if operators of the rank are grouped to the left; that of `^` is no unary expression either. -/
def FitsLeft (k : Kind) (t : Tree) : Prop :=
  (∀ o ∈ operatorIn? t, rank k < rank o ∨ rank k = rank o ∧ assoc k = .left) ∧
    (k = .caret → t.kind ≠ .binaryExpression ∧ t.kind ≠ .unaryExpression)

/-- **The right operand of an operator** is no binary expression, or one of a higher rank, or one of the
same rank if operators of the rank are grouped to the right. -/
def FitsRight (k : Kind) (t : Tree) : Prop :=
  ∀ o ∈ operatorIn? t, rank k < rank o ∨ rank k = rank o ∧ assoc k = .right

/-- **The operand of a unary operator** is no binary expression but a power. -/
def FitsUnary (t : Tree) : Prop := ∀ o ∈ operatorIn? t, o = .caret

/-- **The children of an operation are grouped as the table asks for**; the last operand may be missing. -/
def Orderly : Kind → List Tree → Prop
  | .binaryExpression, cs => ∃ o ∈ KindSet.binaryOperators, operator? cs = some o ∧ ∃ l os rs,
      clear cs = l :: .node .binaryOperator os :: rs ∧ rs.length ≤ 1 ∧
        FitsLeft o l ∧ ∀ r ∈ rs, FitsRight o r
  | .unaryExpression, cs => ∃ os rs, clear cs = .node .unaryOperator os :: rs ∧ rs.length ≤ 1 ∧
      ∀ r ∈ rs, FitsUnary r
  | _, _ => True

/-! ## Conforming trees -/

section

variable {gaps : Bool} {k o : Kind} {n : Nat} {t : Tree} {cs : List Tree}

theorem rank_le : ∀ k ∈ Kind.all, rank k ≤ 11 := by decide +kernel

theorem rank_of_binary : ∀ k ∈ Kind.all, k ∈ KindSet.binaryOperators → rank k < 10 ∨ k = .caret := by
  decide +kernel

theorem caret_bounds : rank .caret = 11 ∧ leftBound .caret = 12 ∧ rightBound .caret = 10 := by
  decide

theorem leftBound_le_iff (hk : rank k < 10) :
    leftBound k ≤ n ↔ rank k < n ∨ rank k = n ∧ assoc k = .left := by
  have hlevel : Level.all[rank k]? = some Level.all[rank k] := List.getElem?_eq_getElem hk
  rw [leftBound, assoc, hlevel]
  rcases Level.all[rank k] with ⟨operators, _ | _⟩
  · simpa using le_iff_lt_or_eq
  · simp only [Option.elim, reduceCtorEq, and_false, or_false]
    exact Nat.succ_le_iff

theorem rightBound_le_iff (hk : rank k < 10) :
    rightBound k ≤ n ↔ rank k < n ∨ rank k = n ∧ assoc k = .right := by
  have hlevel : Level.all[rank k]? = some Level.all[rank k] := List.getElem?_eq_getElem hk
  rw [rightBound, assoc, hlevel]
  rcases Level.all[rank k] with ⟨operators, _ | _⟩
  · simp only [Option.elim, reduceCtorEq, and_false, or_false]
    exact Nat.succ_le_iff
  · simpa using le_iff_lt_or_eq

theorem tightness_of_operator (h : o ∈ operatorIn? t) : tightness t = rank o := by
  unfold operatorIn? at h
  split at h
  · rw [tightness, show operator? _ = some o from h]
    rfl
  · cases h

theorem tightness_lt {l : Kind} (h : l = .binaryExpression ∨ l = .unaryExpression) :
    tightness (.node l cs) < 12 := by
  rcases h with rfl | rfl
  · rw [tightness]
    cases operator? cs with
    | none => decide
    | some o => exact Nat.lt_succ_of_le (rank_le o (Kind.mem_all o))
  · exact (by decide : 10 < 12)

/-- **An operand that is tight enough for the left side fits there.** -/
theorem fitsLeft_of_le {l : Kind} (hk : k ∈ KindSet.binaryOperators)
    (h : leftBound k ≤ tightness (.node l cs)) : FitsLeft k (.node l cs) := by
  rcases rank_of_binary k (Kind.mem_all k) hk with hlt | rfl
  · refine ⟨fun o ho => ?_, ?_⟩
    · rw [tightness_of_operator ho] at h
      exact (leftBound_le_iff hlt).1 h
    · rintro rfl
      exact absurd hlt (by decide)
  · rw [caret_bounds.2.1] at h
    refine ⟨fun o ho => ?_, fun _ => ⟨fun hl => ?_, fun hl => ?_⟩⟩
    · rw [tightness_of_operator ho] at h
      exact absurd h (Nat.lt_succ_of_le (rank_le o (Kind.mem_all o))).not_ge
    · exact absurd h (tightness_lt (.inl hl)).not_ge
    · exact absurd h (tightness_lt (.inr hl)).not_ge

/-- Only a power is as tight as a unary expression. -/
theorem fitsUnary_of_le (ht : ∀ o ∈ operatorIn? t, o ∈ KindSet.binaryOperators) (h : 10 ≤ tightness t) :
    FitsUnary t := by
  intro o ho
  rw [tightness_of_operator ho] at h
  exact (rank_of_binary o (Kind.mem_all o) (ht o ho)).resolve_left h.not_gt

/-- **An operand that is tight enough for the right side fits there.** -/
theorem fitsRight_of_le (hk : k ∈ KindSet.binaryOperators)
    (ht : ∀ o ∈ operatorIn? t, o ∈ KindSet.binaryOperators) (h : rightBound k ≤ tightness t) :
    FitsRight k t := by
  intro o ho
  rcases rank_of_binary k (Kind.mem_all k) hk with hlt | rfl
  · rw [tightness_of_operator ho] at h
    exact (rightBound_le_iff hlt).1 h
  · obtain rfl := fitsUnary_of_le ht h o ho
    exact .inr ⟨rfl, by decide⟩

theorem mem_hole {L : Language Tree} {ts : List Tree} (h : ts ∈ hole gaps L) : ts = [] ∨ ts ∈ L := by
  cases gaps with
  | false => exact .inr h
  | true => exact h

theorem mem_of_operatorIn? (h : t.Conforms gaps) (ho : o ∈ operatorIn? t) : o ∈ KindSet.binaryOperators := by
  unfold operatorIn? at ho
  split at ho
  · obtain ⟨k, hk, hcs⟩ := id h.1
    rw [operator?_of_binaryOf hcs] at ho
    exact Option.some.inj ho ▸ hk
  · cases ho

/-- What may be missing is one operand at the most. -/
theorem cases_hole_operand {ts : List Tree} (h : ts ∈ hole gaps (operand gaps n)) :
    ts.length ≤ 1 ∧ ∀ r ∈ ts, n ≤ tightness r := by
  rcases mem_hole h with rfl | ⟨m, -, ms, rfl, -, hn⟩
  · exact ⟨Nat.zero_le 1, fun r hr => absurd hr List.not_mem_nil⟩
  · refine ⟨le_refl 1, fun r hr => ?_⟩
    rwa [List.mem_singleton.1 hr]

/-- **Every operation in a conforming tree is grouped as the table asks for.** -/
theorem orderly_of_conforms (h : t.Conforms gaps) : t.Everywhere Orderly := by
  refine Tree.Everywhere.mono (fun k cs ⟨hcs, hchildren⟩ => ?_) t h.children
  have hoperator {r : Tree} (hr : r ∈ clear cs) : ∀ o ∈ operatorIn? r, o ∈ KindSet.binaryOperators :=
    fun o => mem_of_operatorIn? (hchildren r (List.mem_of_mem_filter hr))
  unfold Orderly
  split
  · obtain ⟨o, ho, hoperation⟩ := hcs
    refine ⟨o, ho, operator?_of_binaryOf hoperation, ?_⟩
    obtain ⟨_, ⟨_, ⟨l, -, ls, rfl, -, hleft⟩, _, ⟨os, rfl, -⟩, rfl⟩, rs, hrs, hclear⟩ := hoperation
    obtain ⟨hlength, hright⟩ := cases_hole_operand hrs
    refine ⟨_, os, rs, hclear.symm, hlength, fitsLeft_of_le ho hleft, fun r hr => ?_⟩
    exact fitsRight_of_le ho (hoperator (hclear ▸ List.mem_append_right _ hr)) (hright r hr)
  · obtain ⟨_, ⟨os, rfl⟩, rs, hrs, hclear⟩ := hcs
    obtain ⟨hlength, hright⟩ := cases_hole_operand hrs
    refine ⟨os, rs, hclear.symm, hlength, fun r hr => ?_⟩
    exact fitsUnary_of_le (hoperator (hclear ▸ List.mem_append_right _ hr)) (hright r hr)
  · trivial

end

end Grammar

end LuaTree
