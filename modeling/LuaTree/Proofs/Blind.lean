import LuaTree.Proofs.Composition

/-!
# Proofs/Blind — what does not look

Looks are counted, so a word that looks uses one up.  All others do the same however many are left, and leave as many
(`Blind`).
-/

namespace LuaTree.Parser

variable {α β : Type} {p : Parser α} {f : α → Parser β}

/-- A computation for which it does not matter how many looks are left, and which uses none. -/
def Blind (p : Parser α) : Prop :=
  ∀ i s looks, p i { s with looks } = (p i s).map fun r => (r.1, { r.2 with looks })

namespace Blind

theorem pure (a : α) : Blind (Pure.pure a) := fun _ _ _ => rfl

theorem throw (e : Fault) : Blind (throw e : Parser α) := fun _ _ _ => rfl

theorem bind (hp : Blind p) (hf : ∀ a, Blind (f a)) : Blind (p >>= f) := by
  intro i s looks
  have hrun := hp i s looks
  change (p i { s with looks } >>= fun r => f r.1 i r.2) = Except.map _ (p i s >>= fun r => f r.1 i r.2)
  cases h : p i s with
  | error e =>
    rw [h] at hrun
    rw [hrun]
    rfl
  | ok r =>
    rw [h] at hrun
    rw [hrun]
    exact hf r.1 i r.2 looks

/-- A computation that asks for the state. -/
theorem of_get {f : State → Parser β}
    (hf : ∀ i s looks, f { s with looks } i { s with looks } = (f s i s).map fun r => (r.1, { r.2 with looks })) :
    Blind (MonadState.get >>= f) := hf

/-- A computation that asks for the state, but not for the looks. -/
theorem get {f : State → Parser β} (hf : ∀ s, Blind (f s)) (hlooks : ∀ s looks, f { s with looks } = f s) :
    Blind (MonadState.get >>= f) :=
  of_get fun i s looks => by
    rw [hlooks]
    exact hf s i s looks

/-- A computation that asks for what does not change. -/
theorem read {f : Input → Parser β} (hf : ∀ j, Blind (f j)) : Blind (MonadReader.read >>= f) := fun i => hf i i

theorem modify {g : State → State} (hg : ∀ s looks, g { s with looks } = { g s with looks }) : Blind (modify g) :=
  fun _ s looks => congrArg (fun t => Except.ok ((), t)) (hg s looks)

theorem currentSpan : Blind currentSpan := fun _ _ _ => rfl

theorem spanBetween (start stop : Nat) : Blind (spanBetween start stop) := by
  rw [Parser.spanBetween]
  split
  · exact pure _
  · exact throw _

theorem spanSince (old : Snapshot) : Blind (spanSince old) := by
  refine get (fun s => ?_) fun _ _ => rfl
  dsimp only
  split
  · exact spanBetween _ _
  · exact bind currentSpan fun _ => pure _

theorem record (e : Event) : Blind (record e) := modify fun _ _ => rfl

theorem start : Blind start := fun _ _ _ => rfl

theorem amend (event : Nat) (change : Kind → Option Nat → Event) : Blind (amend event change) := by
  refine of_get fun i s looks => ?_
  dsimp only
  generalize s.events[event]? = e
  rcases e with _ | _ | _ | _ <;> rfl

theorem abandon (o : Opening) : Blind (abandon o) := modify fun s looks => by
  dsimp only
  split <;> rfl

theorem report (d : Diagnostic) : Blind (report d) := by
  have hclaim : Blind (claim d.span.start) := by
    refine of_get fun i s looks => ?_
    dsimp only
    split <;> rfl
  refine bind hclaim fun b => ?_
  split
  · exact modify fun _ _ => rfl
  · exact pure _

theorem stepwise : Stepwise fun _ p => Blind p where
  pure := pure
  bind := bind
  fault := throw
  spanSince := spanSince
  report d _ := report d
  record := record
  start := start
  amend := amend
  move _ _ := modify fun _ _ => rfl

theorem wrapUnknown : Blind wrapUnknown :=
  get (fun s => stepwise.wrapUnknownFrom s.rest s.position) fun _ _ => rfl

theorem bailOut (limit : Nat) : Blind (bailOut limit) := by
  refine get (fun s => ?_) fun _ _ => rfl
  split
  · exact pure _
  · exact bind currentSpan fun span => read fun i => bind (spanBetween _ _) fun _ => modify fun _ _ => rfl

end Blind

end LuaTree.Parser
