import LuaTree.Proofs.Limit
import LuaTree.Proofs.Outlook

/-!
# Proofs/Nesting — how deep a run goes

`Costs N p i s Q` is about the runs of `p` that end with nothing reported.  Such a run goes some levels
deeper than it begins: there was room for them under the nesting limit, and under every limit that has
room for them the run is the same (`Descends`).  `Q` holds of the answer, of the state and of these
levels, of which `N` may have been needed before.

Where something has been reported nothing is claimed, so a production is followed through its reports
without a case split.
-/

namespace LuaTree

/-- Where nothing was reported in the end, nothing was before. -/
theorem State.clean_of_prefix {s s' : State} (h : s.diagnostics.toList <+: s'.diagnostics.toList)
    (hclean : s'.Clean) : s.Clean := by
  rw [show s'.diagnostics = #[] from hclean] at h
  exact Array.toList_eq_nil_iff.1 (List.prefix_nil.1 h)

namespace Parser

variable {α β σ : Type} {p : Parser α} {f : α → Parser β} {i : Input} {s s' s₀ s₁ : State}
  {N n : Nat}

/-! ## Runs -/

theorem Draws.look (hs : s.Coherent i) : Draws i s s.look [] :=
  ⟨⟨hs, { hs with }, by simp [State.look, Draft.eventsOfList], rfl, rfl, List.prefix_rfl⟩, trivial⟩

theorem nested_run {p : Parser (Option Closed)} {a : Option Closed} {t : State}
    (hlimit : ∀ k ∈ i.settings.limit, s.depth < k) (hp : p i s.deeper = .ok (a, t)) :
    nested p i s = .ok (a, t.upper) := by
  have hbody : (do
      modify fun s' => { s' with depth := s.depth + 1, looks := State.maxLooks }
      let result ← p
      modify fun s' => { s' with depth := s'.depth - 1, looks := State.maxLooks }
      return result : Parser (Option Closed)) i s = .ok (a, t.upper) := by
    change (p i s.deeper >>= fun r => _) = _
    rw [hp]
    rfl
  obtain ⟨tokens, size, ⟨limit, bare⟩, bound⟩ := i
  cases limit with
  | none => exact hbody
  | some k =>
    change (if k ≤ s.depth then _ else _ : Parser (Option Closed)) _ s = _
    rw [if_neg (Nat.not_le.2 (hlimit k rfl))]
    exact hbody

namespace Nesting

/-! ## Levels -/

/-- A limit has room for `h` more levels at a depth. -/
def Room (limit : Option Nat) (depth h : Nat) : Prop := ∀ k ∈ limit, h = 0 ∨ depth + h ≤ k

theorem room_max {limit : Option Nat} {depth h h' : Nat} :
    Room limit depth (max h h') ↔ Room limit depth h ∧ Room limit depth h' := by
  simp only [Room]
  refine ⟨fun hmax => ⟨fun k hk => ?_, fun k hk => ?_⟩, fun ⟨hroom, hroom'⟩ k hk => ?_⟩
  · have := hmax k hk
    omega
  · have := hmax k hk
    omega
  · have := hroom k hk
    have := hroom' k hk
    omega

/-- **A run that goes `h` levels deeper than it begins**: the limit has room for them, and the run is the
same under each limit that has. -/
structure Descends (p : Parser α) (i : Input) (s : State) (a : α) (s' : State) (h : Nat) : Prop where
  depth : s'.depth = s.depth
  room : Room i.settings.limit s.depth h
  same : ∀ limit, Room limit s.depth h → p (i.limited limit) s = .ok (a, s')

theorem Descends.bind {a : α} {b : β} {h h' : Nat} (hp : Descends p i s a s₁ h)
    (hf : Descends (f a) i s₁ b s' h') : Descends (p >>= f) i s b s' (max h h') := by
  refine ⟨hf.depth.trans hp.depth, room_max.2 ⟨hp.room, hp.depth ▸ hf.room⟩, fun limit hroom => ?_⟩
  obtain ⟨hroom₁, hroom₂⟩ := room_max.1 hroom
  change (p _ s >>= fun r => f r.1 _ r.2) = _
  rw [hp.same limit hroom₁]
  exact hf.same limit (hp.depth.symm ▸ hroom₂)

/-- **What holds after each run that ends with nothing reported**: of the answer, the state, and the
larger of `N` and the levels that the run goes down. -/
def Costs (N : Nat) (p : Parser α) (i : Input) (s : State) (Q : α → State → Nat → Prop) : Prop :=
  ∀ a s', p i s = .ok (a, s') → s'.Clean → s.Clean ∧ ∃ h, Descends p i s a s' h ∧ Q a s' (max N h)

namespace Costs

variable {Q R : α → State → Nat → Prop} {S : β → State → Nat → Prop}

theorem mono (h : Costs N p i s Q) (hQR : ∀ a s' M, s'.Clean → Q a s' M → R a s' M) :
    Costs N p i s R := fun a s' hrun hclean =>
  let ⟨hs, k, hd, hQ⟩ := h a s' hrun hclean
  ⟨hs, k, hd, hQR a s' _ hclean hQ⟩

theorem pure {a : α} (h : s.Clean → Q a s N) : Costs N (pure a) i s Q := by
  intro _ _ hrun hclean
  cases hrun
  exact ⟨hclean, 0, ⟨rfl, fun _ _ => .inl rfl, fun _ _ => rfl⟩, by simpa using h hclean⟩

theorem fault {e : Fault} : Costs N (throw e) i s Q := nofun

/-- Where something has been reported, nothing is claimed. -/
theorem dirty {M : Nat} (hs : ¬ s.Clean) (h : Costs M p i s Q) : Costs N p i s R := fun a s' hrun hclean =>
  absurd (h a s' hrun hclean).1 hs

/-- **One computation after the other**; what the first one leaves is known where nothing has been
reported yet. -/
theorem bind (hp : Costs N p i s Q)
    (hf : ∀ a s₁ M, (s₁.Clean → s.Clean ∧ Q a s₁ M) → Costs M (f a) i s₁ S) : Costs N (p >>= f) i s S := by
  intro b s' hrun hclean
  obtain ⟨a, s₁, hp', hf'⟩ := run_bind hrun
  by_cases h₁ : s₁.Clean
  · obtain ⟨hs, h, hd, hQ⟩ := hp a s₁ hp' h₁
    obtain ⟨-, h', hd', hS⟩ := hf a s₁ (max N h) (fun _ => ⟨hs, hQ⟩) b s' hf' hclean
    exact ⟨hs, max h h', hd.bind hd', Nat.max_assoc .. ▸ hS⟩
  · exact absurd (hf a s₁ 0 (fun h => absurd h h₁) b s' hf' hclean).1 h₁

/-- A part of a computation. -/
theorem step (hp : Costs 0 p i s Q)
    (hf : ∀ a s₁ h, (s₁.Clean → s.Clean ∧ Q a s₁ h) → Costs (max N h) (f a) i s₁ S) :
    Costs N (p >>= f) i s S := by
  have hp' : Costs N p i s fun a s' M => ∃ h, M = max N h ∧ Q a s' h := fun a s' hrun hclean =>
    let ⟨hs, h, hd, hQ⟩ := hp a s' hrun hclean
    ⟨hs, h, hd, h, rfl, Nat.zero_max h ▸ hQ⟩
  refine hp'.bind fun a s₁ M hQ => ?_
  by_cases h₁ : s₁.Clean
  · obtain ⟨hs, h, rfl, ha⟩ := hQ h₁
    exact hf a s₁ h fun _ => ⟨hs, ha⟩
  · exact (hf a s₁ 0 fun h => absurd h h₁).dirty h₁

/-- A part of which something can be said where something has been reported, too. -/
theorem certain (hp : Costs 0 p i s Q) (hQ : ∀ a s', ¬ s'.Clean → ∃ h, Q a s' h)
    (hf : ∀ a s₁ h, Q a s₁ h → Costs (max N h) (f a) i s₁ S) : Costs N (p >>= f) i s S := by
  refine hp.step fun a s₁ h ha => ?_
  by_cases h₁ : s₁.Clean
  · exact hf a s₁ h (ha h₁).2
  · obtain ⟨h', ha'⟩ := hQ a s₁ h₁
    exact (hf a s₁ h' ha').dirty h₁

/-- A part that does not go deeper. -/
theorem level {Q : α → State → Prop} (hp : Costs 0 p i s fun a s' h => h = 0 ∧ Q a s')
    (hf : ∀ a s₁, (s₁.Clean → s.Clean ∧ Q a s₁) → Costs N (f a) i s₁ S) : Costs N (p >>= f) i s S := by
  refine hp.step fun a s₁ h hQ => ?_
  by_cases h₁ : s₁.Clean
  · obtain ⟨hs, rfl, ha⟩ := hQ h₁
    exact (Nat.max_zero N).symm ▸ hf a s₁ fun _ => ⟨hs, ha⟩
  · exact (hf a s₁ fun h => absurd h h₁).dirty h₁

theorem assoc {γ : Type} {g : β → Parser γ} {S : γ → State → Nat → Prop}
    (h : Costs N (p >>= fun a => f a >>= g) i s S) : Costs N (p >>= f >>= g) i s S := by
  rwa [bind_assoc]

theorem last (h : Costs N (p >>= Pure.pure) i s Q) : Costs N p i s Q := by
  rwa [bind_pure] at h

theorem bound {f : Nat → Parser β} (h : Costs N (f i.bound) i s S) :
    Costs N (do f (← read).bound) i s S := fun b s' hrun hclean =>
  let ⟨hs, k, hd, hS⟩ := h b s' hrun hclean
  ⟨hs, k, ⟨hd.depth, hd.room, hd.same⟩, hS⟩

theorem bare {f : BareExpressions → Parser β} (h : Costs N (f i.settings.bare) i s S) :
    Costs N (do f (← read).settings.bare) i s S := fun b s' hrun hclean =>
  let ⟨hs, k, hd, hS⟩ := h b s' hrun hclean
  ⟨hs, k, ⟨hd.depth, hd.room, hd.same⟩, hS⟩

/-- **A word does not go deeper.** -/
theorem word {Q : α → State → Prop} (hp : Neutral p)
    (h : s.Clean → Yields p i s fun a s' => s'.depth = s.depth ∧ Q a s') :
    Costs 0 p i s fun a s' h => h = 0 ∧ Q a s' := by
  intro a s' hrun hclean
  have hs : s.Clean := State.clean_of_prefix (hp.keeps Logs.prefixed i s a s' hrun) hclean
  obtain ⟨hdepth, hQ⟩ := h hs a s' hrun
  exact ⟨hs, 0, ⟨hdepth, fun _ _ => .inl rfl, fun limit _ => (hp.impartial.limited i limit s).trans hrun⟩,
    rfl, hQ⟩

/-- What always reports ends with something reported. -/
theorem reporting (h : Yields p i s fun _ s' => ¬ s'.Clean) : Costs N p i s Q := fun a s' hrun hclean =>
  absurd hclean (h a s' hrun)

/-! ## Repeating -/

/-- What a round leaves. -/
def Kept (I : σ → State → Nat → Prop) (Q : α → State → Nat → Prop) : Round σ α → State → Nat → Prop
  | .again x => I x
  | .done a => Q a

variable {I : σ → State → Nat → Prop} {round : σ → Parser (Round σ α)} {x : σ}

theorem rounds (hround : ∀ x s N, (s.Clean → I x s N) → Costs N (round x) i s (Kept I Q)) :
    ∀ (n : Nat) (x : σ) (s : State) (N : Nat), (s.Clean → I x s N) →
      Costs N (Parser.rounds round n x) i s Q := by
  intro n
  induction n with
  | zero => exact fun _ _ _ _ => .fault
  | succ n ih =>
    intro x s N hx
    rw [Parser.rounds]
    refine (hround x s N hx).bind fun r s₁ M hr => ?_
    cases r with
    | again y => exact ih y s₁ M fun h => (hr h).2
    | done a => exact .pure fun h => (hr h).2

/-- **A loop keeps an invariant of its rounds.** -/
theorem loop (hx : s.Clean → I x s N)
    (hround : ∀ x s N, (s.Clean → I x s N) → Costs N (round x) i s (Kept I Q)) :
    Costs N (Parser.loop x round) i s Q :=
  bound (f := fun n => Parser.rounds round n x) (rounds hround i.bound x s N hx)

end Costs

/-! ## Nesting -/

/-- Where the limit is reached, that is reported, unless it was before. -/
theorem bailOut_dirty (hs : s.Clean → s.limitReached = false) (limit : Nat) :
    Yields (bailOut limit) i s fun _ s' => ¬ s'.Clean :=
  (Logs.bailOut_yields limit).mono fun _ s' ⟨hreached, hbelow⟩ hclean => by
    cases hlimit : s.limitReached with
    | true =>
      rw [hreached hlimit] at hclean
      rw [hs hclean] at hlimit
      cases hlimit
    | false =>
      obtain ⟨-, d, hd, -⟩ := hbelow hlimit
      rw [State.Clean, hd] at hclean
      simp at hclean

/-- **A counted production goes one level deeper.** -/
theorem Costs.nested {p : Parser (Option Closed)} {Q : Option Closed → State → Nat → Prop}
    (hs : s.Clean → s.limitReached = false) (hp : Costs 0 p i s.deeper Q) :
    Costs 0 (nested p) i s fun a s' M => ∃ t h, s' = t.upper ∧ Q a t h ∧ M = h + 1 := by
  intro a s' hrun hclean
  rcases nested_yields a s' hrun with ⟨k, -, -, hbail, -⟩ | ⟨hdepth, t, hp', rfl⟩
  · exact absurd hclean (bailOut_dirty hs k () s' hbail)
  obtain ⟨hs', h, hd, hQ⟩ := hp a t hp' hclean
  refine ⟨hs', h + 1, ⟨?_, fun k hk => ?_, fun limit hroom => ?_⟩, t, h, rfl, Nat.zero_max h ▸ hQ,
    Nat.zero_max _⟩
  · have hdepth : t.depth = s.depth + 1 := hd.depth
    simp [State.upper, hdepth]
  · have hroom : h = 0 ∨ s.depth + 1 + h ≤ k := hd.room k hk
    have := hdepth k hk
    omega
  · refine nested_run (fun k hk => ?_) (hd.same limit fun k hk => ?_)
    · have := hroom k hk
      omega
    · have := hroom k hk
      simp only [State.deeper]
      omega

/-! ## Looking -/

theorem Costs.peekAt {n : Nat} {f : Kind → Parser β} {S : β → State → Nat → Prop}
    (hf : Costs N (f (s.significant[n]?.elim .error Token.kind)) i s.look S) :
    Costs N (peekAt n >>= f) i s S := by
  intro b s' hrun hclean
  obtain ⟨k, s₁, hp, hf'⟩ := run_bind hrun
  obtain ⟨rfl, rfl⟩ := peekAt_yields n k s₁ hp
  obtain ⟨hs, h, hd, hS⟩ := hf b s' hf' hclean
  have hpeek : Descends (Parser.peekAt n) i s _ s.look 0 :=
    ⟨rfl, fun _ _ => .inl rfl, fun limit _ => ((Impartial.peekAt n).limited i limit s).trans hp⟩
  exact ⟨hs, h, Nat.zero_max h ▸ hpeek.bind hd, hS⟩

theorem Costs.peek {f : Kind → Parser β} {S : β → State → Nat → Prop}
    (hf : Costs N (f s.next) i s.look S) : Costs N (peek >>= f) i s S :=
  .peekAt (by rwa [← List.head?_eq_getElem?])

theorem Costs.isAt {f : Bool → Parser β} {S : β → State → Nat → Prop} {k : Kind}
    (hf : Costs N (f (s.next == k)) i s.look S) : Costs N (isAt k >>= f) i s S :=
  .assoc (.peek (by rwa [pure_bind]))

theorem Costs.isAtOneOf {f : Bool → Parser β} {S : β → State → Nat → Prop} {set : KindSet}
    (hf : Costs N (f (set.contains s.next)) i s.look S) : Costs N (isAtOneOf set >>= f) i s S :=
  .assoc (.peek (by rwa [pure_bind]))

end Nesting

end Parser

end LuaTree
