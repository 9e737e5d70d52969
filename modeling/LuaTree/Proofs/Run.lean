import LuaTree.Parser.Basic

/-!
# Proofs/Run — runs of the parser that end without a fault

`Ensures p i s Q` says that `p`, run on the input `i` from the state `s`, ends without a fault, with
an answer and a state of which `Q` holds.  One rule for each way of building a computation carries
such statements from the words of `Parser/Basic` to the productions; `Ensures.loop` is the rule for
repetition, where every round but the last has to lower a measure.

`Yields p i s Q` leaves open whether the run ends: `Q` holds if it does.  Once all runs are known to
end, this is the easier thing to show, as neither looks nor rounds have to be counted.
-/

namespace LuaTree.Parser

variable {α β σ : Type} {p : Parser α} {f : α → Parser β} {i : Input} {s s' : State}

/-- A run of two computations is a run of the first one and a run of the second one. -/
theorem run_bind {b : β} (h : (p >>= f) i s = .ok (b, s')) :
    ∃ a s₁, p i s = .ok (a, s₁) ∧ f a i s₁ = .ok (b, s') := by
  change (p i s >>= fun r => f r.1 i r.2) = _ at h
  cases hp : p i s with
  | error e =>
    rw [hp] at h
    cases h
  | ok r =>
    rw [hp] at h
    exact ⟨r.1, r.2, rfl, h⟩

/-- **A run that ends without a fault**, and what holds of its answer and of the state it leaves. -/
def Ensures (p : Parser α) (i : Input) (s : State) (Q : α → State → Prop) : Prop :=
  ∃ a s', p i s = .ok (a, s') ∧ Q a s'

namespace Ensures

variable {Q R : α → State → Prop} {S : β → State → Prop}

theorem mono (h : Ensures p i s Q) (hQR : ∀ a s', Q a s' → R a s') : Ensures p i s R := by
  obtain ⟨a, s', hrun, hQ⟩ := h
  exact ⟨a, s', hrun, hQR a s' hQ⟩

/-- Two statements about one run hold together: there is only one run. -/
theorem and (h₁ : Ensures p i s Q) (h₂ : Ensures p i s R) :
    Ensures p i s fun a s' => Q a s' ∧ R a s' := by
  obtain ⟨a, s', hrun, hQ⟩ := h₁
  obtain ⟨b, t, hrun', hR⟩ := h₂
  obtain ⟨rfl, rfl⟩ : a = b ∧ s' = t := by
    have := hrun.symm.trans hrun'
    simpa using this
  exact ⟨a, s', hrun, hQ, hR⟩

theorem pure {a : α} (h : Q a s) : Ensures (pure a) i s Q := ⟨a, s, rfl, h⟩

/-- **One computation after the other.** -/
theorem bind (hp : Ensures p i s Q) (hf : ∀ a s', Q a s' → Ensures (f a) i s' S) :
    Ensures (p >>= f) i s S := by
  obtain ⟨a, s', hrun, hQ⟩ := hp
  obtain ⟨b, t, hrun', hS⟩ := hf a s' hQ
  refine ⟨b, t, ?_, hS⟩
  change (p i s >>= fun r => f r.1 i r.2) = _
  rw [hrun]
  exact hrun'

/-- A block of computations is run piece by piece. -/
theorem assoc {δ : Type} {g : β → Parser δ} {S : δ → State → Prop}
    (h : Ensures (p >>= fun a => f a >>= g) i s S) : Ensures (p >>= f >>= g) i s S := by
  rwa [bind_assoc]

/-- What nothing follows is followed by nothing. -/
theorem last (h : Ensures (p >>= Pure.pure) i s Q) : Ensures p i s Q := by
  rwa [bind_pure] at h

theorem get {f : State → Parser β} (h : Ensures (f s) i s S) : Ensures (MonadState.get >>= f) i s S :=
  h

theorem read {f : Input → Parser β} (h : Ensures (f i) i s S) :
    Ensures (MonadReader.read >>= f) i s S :=
  h

theorem set {t : State} {Q : Unit → State → Prop} (h : Q () t) :
    Ensures (MonadState.set t) i s Q :=
  ⟨(), t, rfl, h⟩

theorem modify {g : State → State} {Q : Unit → State → Prop} (h : Q () (g s)) :
    Ensures (modify g) i s Q :=
  ⟨(), g s, rfl, h⟩

theorem setting {t : State} {f : Unit → Parser β} (h : Ensures (f ()) i t S) :
    Ensures (MonadStateOf.set t >>= f) i s S :=
  h

theorem modifying {g : State → State} {f : Unit → Parser β} (h : Ensures (f ()) i (g s) S) :
    Ensures (MonadStateOf.modifyGet (fun s => ((), g s)) >>= f) i s S :=
  h

/-! ## Repeating -/

variable {m : State → Nat} {I : σ → State → Prop} {round : σ → Parser (Round σ α)} {x : σ}

/-- What a round owes: the invariant and a smaller measure if another one follows. -/
def RoundTo (m : State → Nat) (I : σ → State → Prop) (Q : α → State → Prop) (s : State) :
    Round σ α → State → Prop
  | .again x, s' => I x s' ∧ m s' < m s
  | .done a, s' => Q a s'

theorem rounds (hround : ∀ x s, I x s → Ensures (round x) i s (RoundTo m I Q s)) :
    ∀ (n : Nat) (x : σ) (s : State), I x s → m s < n → Ensures (Parser.rounds round n x) i s Q := by
  intro n
  induction n with
  | zero => intro x s _ hm; omega
  | succ n ih =>
    intro x s hx hm
    rw [Parser.rounds]
    refine (hround x s hx).bind fun r s' hr => ?_
    cases r with
    | again y => exact ih y s' hr.1 (by have := hr.2; omega)
    | done a => exact pure hr

/-- **A loop keeps an invariant of its rounds**, if each round that asks for another lowers a
measure that was below the bound. -/
theorem loop (hx : I x s) (hm : m s < i.bound)
    (hround : ∀ x s, I x s → Ensures (round x) i s (RoundTo m I Q s)) :
    Ensures (Parser.loop x round) i s Q :=
  read (rounds hround i.bound x s hx hm)

end Ensures

/-! ## Runs that may end with a fault -/

/-- **What holds of the answer and the state of a run**, if it ends without a fault. -/
def Yields (p : Parser α) (i : Input) (s : State) (Q : α → State → Prop) : Prop :=
  ∀ a s', p i s = .ok (a, s') → Q a s'

namespace Yields

variable {Q R : α → State → Prop} {S : β → State → Prop}

theorem mono (h : Yields p i s Q) (hQR : ∀ a s', Q a s' → R a s') : Yields p i s R :=
  fun a s' hrun => hQR a s' (h a s' hrun)

theorem of_ensures (h : Ensures p i s Q) : Yields p i s Q := by
  obtain ⟨a, s', hrun, hQ⟩ := h
  intro b t hrun'
  obtain ⟨rfl, rfl⟩ : a = b ∧ s' = t := by
    have := hrun.symm.trans hrun'
    simpa using this
  exact hQ

/-- A run that ends has what it yields. -/
theorem ensures (h : Yields p i s Q) (hrun : Ensures p i s R) : Ensures p i s Q := by
  obtain ⟨a, s', hrun, -⟩ := hrun
  exact ⟨a, s', hrun, h a s' hrun⟩

theorem pure {a : α} (h : Q a s) : Yields (pure a) i s Q := of_ensures (.pure h)

theorem bind (hp : Yields p i s Q) (hf : ∀ a s', Q a s' → Yields (f a) i s' S) :
    Yields (p >>= f) i s S := by
  intro b t hrun
  obtain ⟨a, s', hp', hf'⟩ := run_bind hrun
  exact hf a s' (hp a s' hp') b t hf'

theorem assoc {δ : Type} {g : β → Parser δ} {S : δ → State → Prop}
    (h : Yields (p >>= fun a => f a >>= g) i s S) : Yields (p >>= f >>= g) i s S := by
  rwa [bind_assoc]

theorem last (h : Yields (p >>= Pure.pure) i s Q) : Yields p i s Q := by
  rwa [bind_pure] at h

theorem read {f : Input → Parser β} (h : Yields (f i) i s S) :
    Yields (MonadReader.read >>= f) i s S :=
  h

theorem get {f : State → Parser β} (h : Yields (f s) i s S) : Yields (MonadState.get >>= f) i s S :=
  h

theorem setting {t : State} {f : Unit → Parser β} (h : Yields (f ()) i t S) :
    Yields (MonadStateOf.set t >>= f) i s S :=
  h

theorem modifying {g : State → State} {f : Unit → Parser β} (h : Yields (f ()) i (g s) S) :
    Yields (MonadStateOf.modifyGet (fun s => ((), g s)) >>= f) i s S :=
  h

/-- Where no rounds are left, nothing is yielded. -/
theorem exhausted {e : Fault} : Yields (throw e) i s Q := nofun

variable {round : σ → Parser (Round σ α)} {n : Nat} {x : σ}

theorem again {T : σ → State → Prop}
    (h : Yields (round x) i s fun r s' => ∃ y, r = .again y ∧ T y s')
    (hf : ∀ n y s', T y s' → Yields (rounds round n y >>= f) i s' S) :
    Yields (rounds round n x >>= f) i s S := by
  cases n with
  | zero => exact bind (Q := fun _ _ => False) exhausted nofun
  | succ n =>
    refine assoc (h.bind ?_)
    rintro _ s' ⟨y, rfl, hy⟩
    exact hf n y s' hy

theorem done {T : α → State → Prop}
    (h : Yields (round x) i s fun r s' => ∃ a, r = .done a ∧ T a s')
    (hf : ∀ a s', T a s' → Yields (f a) i s' S) : Yields (rounds round n x >>= f) i s S := by
  cases n with
  | zero => exact bind (Q := fun _ _ => False) exhausted nofun
  | succ n =>
    refine assoc (h.bind ?_)
    rintro _ s' ⟨a, rfl, ha⟩
    exact hf a s' ha

end Yields

end LuaTree.Parser
