import LuaTree.Proofs.Composition.Production
import LuaTree.Proofs.Speculation

/-!
# Proofs/Patience — more looks change nothing

Looks are counted to notice a parser that no longer consumes anything, and nothing else asks for their number.  So a run
that ends also ends with more looks, with the same answer and in the same state but for the looks that are left
(`patient`).
-/

namespace LuaTree

/-- The same state, with no fewer looks left. -/
def State.Eased (s t : State) : Prop := ∃ looks, s.looks ≤ looks ∧ t = { s with looks }

theorem State.Eased.refl (s : State) : s.Eased s := ⟨s.looks, Nat.le_refl _, rfl⟩

theorem State.Eased.refresh_eq {s t : State} (h : s.Eased t) : t.refresh = s.refresh := by
  obtain ⟨looks, -, rfl⟩ := h
  rfl

/-- With all looks allowed there are no fewer, unless there were more than are ever allowed. -/
theorem State.eased_refresh {s : State} (h : s.looks ≤ maxLooks) : s.Eased s.refresh := ⟨maxLooks, h, rfl⟩

namespace Parser

variable {α β σ : Type} {p : Parser α} {f : α → Parser β}

/-- **A computation that ends if it ends with fewer looks**, and does the same. -/
def Patient (p : Parser α) : Prop :=
  ∀ i s t, s.Eased t → Yields p i s fun a s' => ∃ t', p i t = .ok (a, t') ∧ s'.Eased t'

namespace Patient

theorem of_blind (hp : Blind p) : Patient p := by
  rintro i s _ ⟨looks, hle, rfl⟩ a s' hrun
  have hlooks {n : Nat} : p i { s with looks := n } = .ok (a, { s' with looks := n }) := by rw [hp, hrun]; rfl
  -- the number of looks is not touched
  have hsame : s'.looks = s.looks := by
    obtain ⟨-, hs'⟩ := Prod.mk.inj (Except.ok.inj (hrun.symm.trans (hlooks (n := s.looks))))
    have hlooks := congrArg State.looks hs'
    exact hlooks
  exact ⟨_, hlooks, looks, hsame.trans_le hle, rfl⟩

theorem pure (a : α) : Patient (Pure.pure a : Parser α) := of_blind (.pure a)

theorem bind (hp : Patient p) (hf : ∀ a, Patient (f a)) : Patient (p >>= f) := fun i s t hst =>
  (hp i s t hst).bind fun a s₁ ⟨t₁, hrun, h₁⟩ => (hf a i s₁ t₁ h₁).mono fun _ _ ⟨t₂, hrun₂, h₂⟩ =>
    ⟨t₂, (run_of_ok hrun).trans hrun₂, h₂⟩

/-- A computation that starts again with all looks. -/
theorem of_refresh (h : ∀ i s looks, p i { s with looks } = p i s) : Patient p := by
  rintro i s _ ⟨looks, -, rfl⟩ a s' hrun
  exact ⟨s', (h i s looks).trans hrun, .refl s'⟩

/-- Who may look with fewer looks may look with more. -/
theorem peekAt (n : Nat) : Patient (peekAt n) := by
  rintro i s _ ⟨looks, hle, rfl⟩ k s' hrun
  have hne : s.looks ≠ 0 := fun hzero => by
    obtain ⟨_, _, hget, hlook⟩ := run_bind hrun
    cases hget
    rw [hzero] at hlook
    cases hlook
  rw [peekAt_run hne] at hrun
  cases hrun
  exact ⟨_, peekAt_run (s := { s with looks }) (by dsimp only; omega) n, looks - 1, Nat.sub_le_sub_right hle 1, rfl⟩

theorem bump : Patient bump := by
  refine bind (of_blind .wrapUnknown) fun _ => of_refresh fun i s looks => ?_
  refine (run_of_ok (t := { s with looks }) rfl).trans (Eq.trans ?_ (run_of_ok (t := s) rfl).symm)
  dsimp only
  generalize List.dropWhile _ s.rest = ts
  cases ts <;> rfl

theorem composes : Composes fun _ p => Patient p := ⟨pure, bind⟩

theorem tryName : Patient tryName := by
  refine bind (of_blind .start) fun o => bind (peekAt 0) fun k => ?_
  split
  · refine bind bump fun _ => bind (composes.eat (peekAt 0) bump .equals) fun b => ?_
    split
    · exact pure _
    · exact bind (of_refresh fun _ _ _ => rfl) fun _ => pure _
  · exact pure _

/-- A computation that asks for the state, but not for the looks. -/
theorem get {f : State → Parser β} (hf : ∀ s, Patient (f s)) (hlooks : ∀ s looks, f { s with looks } = f s) :
    Patient (MonadState.get >>= f) := by
  rintro i s _ ⟨looks, hle, rfl⟩
  refine .get ((hf s i s _ ⟨looks, hle, rfl⟩).mono fun a s' ⟨t', hrun, ht'⟩ => ⟨t', ?_, ht'⟩)
  exact (congrFun (congrFun (hlooks s looks) i) _).trans hrun

theorem read {f : Input → Parser β} (hf : ∀ j, Patient (f j)) : Patient (MonadReader.read >>= f) := fun i => hf i i

theorem descend : Patient descend := by
  have henter {depth : Nat} : Patient (do
      modify fun s => { s with depth, looks := State.maxLooks }
      return true : Parser Bool) := bind (of_refresh fun _ _ _ => rfl) fun _ => pure _
  refine get (fun s => read fun i => ?_) fun _ _ => rfl
  split
  · split
    · exact bind (of_blind (.bailOut _)) fun _ => pure _
    · exact henter
  · exact henter

/-- A counted production starts with all looks, or does not look. -/
theorem nested {p : Parser (Option Closed)} (hp : Patient p) : Patient (nested p) := by
  rw [nested_eq]
  refine bind descend fun entered => ?_
  split
  · exact bind hp fun _ => bind (of_refresh fun _ _ _ => rfl) fun _ => pure _
  · exact pure _

end Patient

/-- **More looks change nothing** but how many are left. -/
theorem patient : Compositional fun _ p => Patient p where
  pure := Patient.pure
  bind := Patient.bind
  fault _ := fun _ _ _ _ => .exhausted
  bound hf i s t hst := .read (hf _ i s t hst)
  peekAt := Patient.peekAt
  currentSpan := .of_blind .currentSpan
  spanSince old := .of_blind (.spanSince old)
  report d _ := .of_blind (.report d)
  start := .of_blind .start
  complete o kind := .of_blind (Blind.stepwise.complete o kind)
  abandon o := .of_blind (.abandon o)
  precede c := .of_blind (Blind.stepwise.precede c)
  wrapUnknown := .of_blind .wrapUnknown
  bump := Patient.bump
  nested := Patient.nested
  tryName := Patient.tryName

theorem Patient.chainStatement {enter enter' : Enter} (he : Congruence.Enters (fun _ _ p _ => Patient p) enter enter') :
    Patient (Production.chainStatement enter) :=
  patient.chainStatement (fun hf i s t hst => .read (hf _ i s t hst)) he

theorem patient_statement (n : Nat) : Patient (Production.statement (Production.enter n)) :=
  patient.congruence.statement Patient.chainStatement
    (Compositional.enters (patient.entered Patient.chainStatement n))

end Parser

end LuaTree
