import LuaTree.Proofs.Blind
import LuaTree.Proofs.Consuming
import Mathlib.Logic.Relation

/-!
# Proofs/Speculation — what is left when all that was read since a moment is given up

Between the opening of a node and its rollback the parser may look, consume, report, enter and leave counted
productions and work on the nodes that were opened meanwhile (`Session.Step`).  None of this changes what was
recorded or reported before (`State.Beyond`): nodes that are opened later have later events.  So the rollback
restores everything, and a name that turns out not to begin a named field leaves no trace (`field_eq`).
-/

namespace LuaTree

/-! ## Beyond a moment -/

/-- **What a state has kept since an earlier one**: all that was recorded and reported by then.  It may be some levels
deeper. -/
structure State.Beyond (s : State) (level : Nat) (t : State) : Prop where
  events : s.events.toList <+: t.events.toList
  diagnostics : s.diagnostics.toList <+: t.diagnostics.toList
  depth : t.depth = s.depth + level

theorem State.Beyond.refl (s : State) : s.Beyond 0 s := ⟨List.prefix_rfl, List.prefix_rfl, rfl⟩

/-- A snapshot that was not taken before a moment. -/
structure Snapshot.Since (s : State) (x : Snapshot) : Prop where
  events : s.events.size ≤ x.events
  diagnostics : s.diagnostics.size ≤ x.diagnostics

/-- A node that was not opened before a moment. -/
def Opening.Since (s : State) (o : Opening) : Prop := s.events.size ≤ o.event ∧ o.snapshot.Since s

/-- A closed node that was not opened before a moment. -/
def Closed.Since (s : State) (c : Closed) : Prop := s.events.size ≤ c.event ∧ c.snapshot.Since s

namespace Parser

variable {α β : Type} {i : Input} {s t : State} {level : Nat} {p : Parser α} {f : α → Parser β} {Q : α → Prop}
  {R : β → Prop}

/-- A computation that stays beyond a moment, and what holds of its answers. -/
def Onward (s : State) (level : Nat) (p : Parser α) (Q : α → Prop) : Prop :=
  ∀ i t, s.Beyond level t → Yields p i t fun a t' => s.Beyond level t' ∧ Q a

namespace Onward

theorem pure {a : α} (h : Q a) : Onward s level (Pure.pure a) Q := fun _ _ ht => .pure ⟨ht, h⟩

theorem bind (hp : Onward s level p Q) (hf : ∀ a, Q a → Onward s level (f a) R) : Onward s level (p >>= f) R :=
  fun i t ht => (hp i t ht).bind fun a t' ⟨ht', ha⟩ => hf a ha i t' ht'

theorem fault (e : Fault) : Onward s level (throw e : Parser α) Q := fun _ _ _ => .exhausted

/-- A change of a state that adds to what was recorded. -/
theorem modify {g : State → State} (hg : ∀ t, s.Beyond level t → s.Beyond level (g t)) :
    Onward s level (modify g) fun _ => True := fun _ t ht => .last (.modifying (.pure ⟨hg t ht, trivial⟩))

theorem peekAt (n : Nat) : Onward s level (peekAt n) fun _ => True := by
  intro i t ht
  refine .get ?_
  split
  · exact .exhausted
  · exact .setting (.pure ⟨⟨ht.events, ht.diagnostics, ht.depth⟩, trivial⟩)

theorem currentSpan : Onward s level currentSpan fun _ => True := fun _ _ ht => .get (.read (.pure ⟨ht, trivial⟩))

theorem spanBetween (start stop : Nat) : Onward s level (spanBetween start stop) fun _ => True := by
  rw [Parser.spanBetween]
  split
  · exact pure trivial
  · exact fault _

theorem spanSince (old : Snapshot) : Onward s level (spanSince old) fun _ => True := by
  intro i t ht
  refine .get ?_
  dsimp only
  split
  · exact spanBetween _ _ i t ht
  · exact bind currentSpan (fun _ _ => pure trivial) i t ht

theorem record (e : Event) : Onward s level (record e) fun _ => True :=
  modify fun t ht => ⟨by simpa using ht.events.trans (List.prefix_append ..), ht.diagnostics, ht.depth⟩

theorem report (d : Diagnostic) : Onward s level (report d) fun _ => True := by
  have hclaim : Onward s level (claim d.span.start) fun _ => True := by
    intro i t ht
    refine .get ?_
    split
    · exact .pure ⟨ht, trivial⟩
    · exact .setting (.pure ⟨⟨ht.events, ht.diagnostics, ht.depth⟩, trivial⟩)
  refine bind hclaim fun b _ => ?_
  split
  · exact modify fun t ht => ⟨ht.events, by simpa using ht.diagnostics.trans (List.prefix_append ..), ht.depth⟩
  · exact pure trivial

/-! ## Opening and closing -/

theorem start : Onward s level start (Opening.Since s) := by
  intro i t ht
  have hevents : s.events.size ≤ t.events.size := by simpa using ht.events.length_le
  have hdiagnostics : s.diagnostics.size ≤ t.diagnostics.size := by simpa using ht.diagnostics.length_le
  exact .get (bind (record _) (fun _ _ => pure ⟨hevents, hevents, hdiagnostics⟩) i t ht)

/-- An opening that is not an earlier one may be changed. -/
theorem amend {event : Nat} (change : Kind → Option Nat → Event) (h : s.events.size ≤ event) :
    Onward s level (amend event change) fun _ => True := by
  intro i t ht
  refine .get ?_
  split
  · refine .last (.setting (.pure ⟨⟨?_, ht.diagnostics, ht.depth⟩, trivial⟩))
    obtain ⟨later, hlater⟩ := ht.events
    rw [Array.toList_setIfInBounds, ← hlater, List.set_append_right _ _ (by simpa using h)]
    exact List.prefix_append ..
  · exact .exhausted

theorem complete {o : Opening} (ho : o.Since s) (kind : Kind) : Onward s level (complete o kind) (Closed.Since s) :=
  bind (amend _ ho.1) fun _ _ => bind (record _) fun _ _ => pure ho

theorem abandon {o : Opening} (ho : o.Since s) : Onward s level (abandon o) fun _ => True := by
  refine modify fun t ht => ?_
  split
  · rename_i hsize
    refine ⟨?_, ht.diagnostics, ht.depth⟩
    obtain ⟨later, hlater⟩ := ht.events
    have hne : later ≠ [] := by
      rintro rfl
      have hlength := congrArg List.length hlater
      have hevent := ho.1
      simp at hlength
      omega
    rw [Array.toList_pop, ← hlater, List.dropLast_append_of_ne_nil hne]
    exact List.prefix_append ..
  · exact ht

theorem precede {c : Closed} (hc : c.Since s) : Onward s level (precede c) (Opening.Since s) :=
  bind start fun _ ho => bind (amend _ hc.1) fun _ _ => pure ⟨ho.1, hc.2⟩

/-- What is given up of later nodes was not there before. -/
theorem rollback {o : Opening} (ho : o.Since s) : Onward s level (rollback o) fun _ => True :=
  modify fun t ht => by
    refine ⟨?_, ?_, ht.depth⟩
    · simpa [State.restore] using List.prefix_take_iff.2 ⟨ht.events, by simpa using ho.2.events⟩
    · simpa [State.restore] using List.prefix_take_iff.2 ⟨ht.diagnostics, by simpa using ho.2.diagnostics⟩

/-! ## Consuming -/

theorem wrapUnknownFrom : ∀ (ts : List Token) (index : Nat), Onward s level (wrapUnknownFrom index ts) fun _ => True
  | [], _ => pure trivial
  | u :: us, index => by
    rw [Parser.wrapUnknownFrom]
    split
    · exact wrapUnknownFrom us _
    split
    · refine bind start fun o ho => bind (record _) fun _ _ => bind (modify fun t ht => ?_) fun _ _ =>
        bind (spanSince _) fun _ _ => bind (report _) fun _ _ => bind (complete ho _) fun _ _ => wrapUnknownFrom us _
      exact ⟨ht.events, ht.diagnostics, ht.depth⟩
    · exact pure trivial

theorem wrapUnknown : Onward s level wrapUnknown fun _ => True := fun i t ht =>
  .get (wrapUnknownFrom t.rest t.position i t ht)

theorem reportUnfinished (u : Token) : Onward s level (reportUnfinished u) fun _ => True := by
  rw [Parser.reportUnfinished]
  split
  · split
    · exact pure trivial
    · exact report _
    · exact fault _
  · exact pure trivial

theorem bump : Onward s level bump fun _ => True := by
  refine bind wrapUnknown fun _ _ i t ht => .get ?_
  split
  · exact .exhausted
  · rename_i u us _
    refine .setting (bind (reportUnfinished u) (fun _ _ => wrapUnknown) i _ ⟨?_, ht.diagnostics, ht.depth⟩)
    simpa using ht.events.trans (List.prefix_append ..)

/-! ## Nesting -/

theorem bailOut (limit : Nat) : Onward s level (bailOut limit) fun _ => True := by
  intro i t ht
  refine .get ?_
  split
  · exact .pure ⟨ht, trivial⟩
  refine bind currentSpan (fun span _ i t ht => .read ?_) i t ht
  refine bind (spanBetween _ _) (fun _ _ => modify fun t ht => ?_) i t ht
  refine ⟨?_, by simpa using ht.diagnostics.trans (List.prefix_append ..), ht.depth⟩
  simpa [List.append_assoc] using ht.events.trans (List.prefix_append ..)

end Onward

/-- Enters a counted production, unless the nesting limit is reached. -/
def descend : Parser Bool := do
  let depth := (← get).depth
  match (← read).settings.limit with
  | some limit =>
    if limit ≤ depth then
      bailOut limit
      return false
  | none => pure ()
  modify fun s => { s with depth := depth + 1, looks := State.maxLooks }
  return true

/-- Leaves a counted production. -/
def ascend : Parser Unit := modify fun s => { s with depth := s.depth - 1, looks := State.maxLooks }

/-- **A counted production is entered and, if it was, left again.** -/
theorem nested_eq (p : Parser (Option Closed)) : nested p = do
    if ← descend then
      let result ← p
      ascend
      return result
    else return none := by
  simp only [nested, descend, ascend, bind_assoc]
  refine bind_congr fun s => bind_congr fun i => ?_
  cases i.settings.limit with
  | none => simp
  | some limit => by_cases h : limit ≤ s.depth <;> simp [h]

theorem descend_beyond (ht : s.Beyond level t) :
    Yields descend i t fun entered t' => s.Beyond (level + entered.toNat) t' := by
  have henter : Yields (do
      modify fun s => { s with depth := t.depth + 1, looks := State.maxLooks }
      return true : Parser Bool) i t fun entered t' => s.Beyond (level + entered.toNat) t' :=
    .modifying (.pure ⟨ht.events, ht.diagnostics, by simp [ht.depth, Nat.add_assoc]⟩)
  refine .get (.read ?_)
  split
  · split
    · exact (Onward.bailOut _ i t ht).bind fun _ _ ⟨ht', _⟩ => .pure ht'
    · exact henter
  · exact henter

theorem ascend_beyond (hlevel : level ≠ 0) (ht : s.Beyond level t) :
    Yields ascend i t fun _ t' => s.Beyond (level - 1) t' := by
  refine .last (.modifying (.pure ⟨ht.events, ht.diagnostics, ?_⟩))
  have hdepth := ht.depth
  dsimp only
  omega

/-! ## Sessions -/

/-- **What goes on since a node was opened**: the state, the nodes that have been opened and closed since, and how many
counted productions have been entered and not left. -/
structure Session where
  state : State
  opened : List Opening
  closed : List Closed
  level : Nat

/-- What may be done next.  It is not asked whether a node that was opened is used only once. -/
inductive Session.Step (i : Input) : Session → Session → Prop
  | look {x : Session} {n : Nat} {k : Kind} {s : State} (h : peekAt n i x.state = .ok (k, s)) :
    Step i x { x with state := s }
  | bump {x : Session} {s : State} (h : Parser.bump i x.state = .ok ((), s)) : Step i x { x with state := s }
  | report {x : Session} {d : Diagnostic} {s : State} (h : Parser.report d i x.state = .ok ((), s)) :
    Step i x { x with state := s }
  | start {x : Session} {o : Opening} {s : State} (h : Parser.start i x.state = .ok (o, s)) :
    Step i x { x with state := s, opened := o :: x.opened }
  | complete {x : Session} {o : Opening} {kind : Kind} {c : Closed} {s : State} (ho : o ∈ x.opened)
    (h : Parser.complete o kind i x.state = .ok (c, s)) : Step i x { x with state := s, closed := c :: x.closed }
  | abandon {x : Session} {o : Opening} {s : State} (ho : o ∈ x.opened)
    (h : Parser.abandon o i x.state = .ok ((), s)) : Step i x { x with state := s }
  | precede {x : Session} {c : Closed} {o : Opening} {s : State} (hc : c ∈ x.closed)
    (h : Parser.precede c i x.state = .ok (o, s)) : Step i x { x with state := s, opened := o :: x.opened }
  | rollback {x : Session} {o : Opening} {s : State} (ho : o ∈ x.opened)
    (h : Parser.rollback o i x.state = .ok ((), s)) : Step i x { x with state := s }
  | descend {x : Session} {entered : Bool} {s : State} (h : Parser.descend i x.state = .ok (entered, s)) :
    Step i x { x with state := s, level := x.level + entered.toNat }
  | ascend {x : Session} {s : State} (hlevel : x.level ≠ 0) (h : Parser.ascend i x.state = .ok ((), s)) :
    Step i x { x with state := s, level := x.level - 1 }

/-- A session that goes on beyond a moment, with nodes that were not opened before. -/
structure Session.Beyond (s : State) (x : Session) : Prop where
  state : s.Beyond x.level x.state
  opened : ∀ o ∈ x.opened, o.Since s
  closed : ∀ c ∈ x.closed, c.Since s

/-- **Whatever is done, what was there before stays.** -/
theorem Session.Beyond.step {x y : Session} (hx : x.Beyond s) (h : Step i x y) : y.Beyond s := by
  obtain ⟨hstate, hopened, hclosed⟩ := hx
  cases h with
  | look h => exact ⟨(Onward.peekAt _ i _ hstate _ _ h).1, hopened, hclosed⟩
  | bump h => exact ⟨(Onward.bump i _ hstate _ _ h).1, hopened, hclosed⟩
  | report h => exact ⟨(Onward.report _ i _ hstate _ _ h).1, hopened, hclosed⟩
  | start h =>
    obtain ⟨hstate', ho⟩ := Onward.start i _ hstate _ _ h
    exact ⟨hstate', List.forall_mem_cons.2 ⟨ho, hopened⟩, hclosed⟩
  | complete ho h =>
    obtain ⟨hstate', hc⟩ := Onward.complete (hopened _ ho) _ i _ hstate _ _ h
    exact ⟨hstate', hopened, List.forall_mem_cons.2 ⟨hc, hclosed⟩⟩
  | abandon ho h => exact ⟨(Onward.abandon (hopened _ ho) i _ hstate _ _ h).1, hopened, hclosed⟩
  | precede hc h =>
    obtain ⟨hstate', ho⟩ := Onward.precede (hclosed _ hc) i _ hstate _ _ h
    exact ⟨hstate', List.forall_mem_cons.2 ⟨ho, hopened⟩, hclosed⟩
  | rollback ho h => exact ⟨(Onward.rollback (hopened _ ho) i _ hstate _ _ h).1, hopened, hclosed⟩
  | descend h => exact ⟨descend_beyond hstate _ _ h, hopened, hclosed⟩
  | ascend hlevel h => exact ⟨ascend_beyond hlevel hstate _ _ h, hopened, hclosed⟩

theorem Session.Beyond.steps {x y : Session} (hx : x.Beyond s) (h : Relation.ReflTransGen (Step i) x y) :
    y.Beyond s := by
  induction h with
  | refl => exact hx
  | tail _ hstep ih => exact ih.step hstep

/-- **What was recorded since is given up**, and all is as it was but for the depth. -/
theorem rollback_beyond {o : Opening} (ho : o.snapshot = s.snapshot) (ht : s.Beyond level t) :
    rollback o i t = .ok ((), { s with depth := s.depth + level, looks := State.maxLooks }) := by
  change Except.ok ((), t.restore o.snapshot) = _
  simp only [State.restore, ho, State.snapshot, take_of_prefix ht.events, take_of_prefix ht.diagnostics, ht.depth]

/-! ## Names that do not begin a named field -/

/-- What follows a computation that ends goes on from where it ends. -/
theorem run_of_ok {a : α} (h : p i s = .ok (a, t)) : (p >>= f) i s = f a i t := by
  change (p i s >>= fun r => f r.1 i r.2) = _
  rw [h]
  rfl

theorem report_ensures (d : Diagnostic) : Ensures (report d) i t fun _ t' =>
    t'.rest = t.rest ∧ t'.position = t.position ∧ t'.events = t.events ∧ t'.looks = t.looks := by
  refine .assoc (.get ?_)
  split
  · exact .pure ⟨rfl, rfl, rfl, rfl⟩
  · exact .modify ⟨rfl, rfl, rfl, rfl⟩

/-- The span of a single token. -/
theorem spanSince_ensures {old : Snapshot} {u : Token}
    (h : (old.rest.take (t.position - old.position)).filter (fun v => !v.kind.isTrivia) = [u]) :
    Ensures (spanSince old) i t fun _ t' => t' = t := by
  refine .get ?_
  dsimp only
  rw [h]
  change Ensures (spanBetween u.start u.stop) i t _
  rw [spanBetween, Span.between?, dif_pos (show u.start ≤ u.stop from Nat.le_add_right ..)]
  exact .pure rfl

section Unknown

variable {trivia us : List Token} {u : Token} (hrest : t.rest = trivia ++ u :: us)
  (htrivia : ∀ v ∈ trivia, v.kind.isTrivia = true)
include hrest htrivia

/-- An unknown character is passed over. -/
theorem significant_of_unknown (hu : u.kind = .invalidChar) : t.significant = us.filter Token.isSignificant := by
  have hnone : trivia.filter Token.isSignificant = [] :=
    List.filter_eq_nil_iff.2 fun v hv => by simp [Token.isSignificant, Kind.isSignificant, htrivia v hv]
  rw [State.significant, hrest, List.filter_append, hnone, List.nil_append, List.filter_cons_of_neg]
  simp [Token.isSignificant, Kind.isSignificant, hu]

/-- The first token that is no trivia is all that is consumed up to it. -/
theorem consumed_of_solid (hu : u.kind.isTrivia = false) :
    (t.rest.take (trivia.length + 1)).filter (fun v => !v.kind.isTrivia) = [u] := by
  have hnone : trivia.filter (fun v => !v.kind.isTrivia) = [] :=
    List.filter_eq_nil_iff.2 fun v hv => by simp [htrivia v hv]
  rw [hrest, List.take_length_add_append, List.take_succ_cons, List.take_zero, List.filter_append, hnone,
    List.nil_append, List.filter_cons_of_pos (by simp [hu]), List.filter_nil]

end Unknown

/-- An unknown character is put aside, so what follows goes on behind it. -/
theorem Ensures.aside {u : Token} {us : List Token} {index : Nat} {Q : Unit → State → Prop}
    (hu : u.kind = .invalidChar)
    (hconsumed : (t.rest.take (index + 1 - t.position)).filter (fun v => !v.kind.isTrivia) = [u])
    (hf : ∀ t', t'.rest = us → t'.position = index + 1 → t'.looks = t.looks →
      Ensures (wrapUnknownFrom (index + 1) us) i t' Q) : Ensures (wrapUnknownFrom index (u :: us)) i t Q := by
  rw [Parser.wrapUnknownFrom, hu, if_neg (by decide), if_pos rfl]
  -- the node is opened, the character consumed
  refine Ensures.bind (Q := fun o t₁ => o = ⟨t.events.size, t.snapshot⟩ ∧
    t₁ = { t with events := t.events.push .blank }) ⟨_, _, rfl, rfl, rfl⟩ ?_
  rintro _ _ ⟨rfl, rfl⟩
  refine Ensures.bind (Q := fun _ t₂ => t₂ = { t with
    events := (t.events.push .blank).push (.token index) }) ⟨_, _, rfl, rfl⟩ ?_
  rintro _ _ rfl
  refine Ensures.bind (Q := fun _ t₃ => t₃ = { t with
    events := (t.events.push .blank).push (.token index), position := index + 1, rest := us }) ⟨_, _, rfl, rfl⟩ ?_
  rintro _ _ rfl
  -- it is reported, and the node closed
  refine (spanSince_ensures hconsumed).bind ?_
  rintro span _ rfl
  refine (report_ensures _).bind ?_
  rintro _ t₄ ⟨hrest, hposition, hevents, hlooks⟩
  have hevents : t₄.events.toList = t.events.toList ++ .opening .tombstone none :: [.token index] := by
    rw [hevents]
    simp [Event.blank]
  refine Ensures.bind (Q := fun _ t₅ => t₅.rest = us ∧ t₅.position = index + 1 ∧ t₅.looks = t.looks) ?_ ?_
  · refine (Ensures.amend hevents (by simp)).bind ?_
    rintro _ _ rfl
    exact .modifying (.pure ⟨hrest, hposition, hlooks⟩)
  rintro _ t₅ ⟨hrest₅, hposition₅, hlooks₅⟩
  exact hf t₅ hrest₅ hposition₅ hlooks₅

/-- Unknown characters can always be put aside. -/
theorem wrapUnknownFrom_ensures {ts : List Token} {index : Nat} (trivia : List Token) (hrest : t.rest = trivia ++ ts)
    (hindex : index = t.position + trivia.length) (htrivia : ∀ u ∈ trivia, u.kind.isTrivia = true) :
    Ensures (wrapUnknownFrom index ts) i t fun _ t' => t'.significant = t.significant ∧ t'.looks = t.looks := by
  induction ts generalizing index t trivia with
  | nil => exact .pure ⟨rfl, rfl⟩
  | cons u us ih =>
    by_cases hu : u.kind.isTrivia = true
    · rw [Parser.wrapUnknownFrom, if_pos hu]
      refine ih (trivia ++ [u]) ?_ ?_ ?_
      · rw [hrest, List.append_assoc, List.singleton_append]
      · rw [hindex, List.length_append, List.length_singleton, Nat.add_assoc]
      · exact List.forall_mem_append.2 ⟨htrivia, List.forall_mem_singleton.2 hu⟩
    by_cases hunknown : u.kind = .invalidChar
    · have hlength : index + 1 - t.position = trivia.length + 1 := by omega
      refine Ensures.aside hunknown (hlength ▸ consumed_of_solid hrest htrivia (by simpa using hu)) ?_
      intro t' hrest' hposition hlooks
      refine (ih [] hrest' hposition.symm (List.forall_mem_nil _)).mono ?_
      rintro _ t'' ⟨hsignificant, hlooks'⟩
      refine ⟨?_, hlooks'.trans hlooks⟩
      rw [hsignificant, significant_of_unknown hrest htrivia hunknown, State.significant, hrest']
    · rw [Parser.wrapUnknownFrom, if_neg hu, if_neg hunknown]
      exact .pure ⟨rfl, rfl⟩

theorem wrapUnknown_ensures : Ensures wrapUnknown i t fun _ t' =>
    t'.significant = t.significant ∧ t'.looks = t.looks :=
  .get (wrapUnknownFrom_ensures [] rfl rfl (List.forall_mem_nil _))

/-- A name is always consumed. -/
theorem bump_ensures {u : Token} {us : List Token} (hs : s.significant = u :: us) (hu : u.kind ∉ KindSet.strings) :
    Ensures bump i s fun _ t => t.significant = us ∧ t.looks = State.maxLooks := by
  refine wrapUnknown_ensures.bind ?_
  rintro _ t ⟨ht, -⟩
  refine .get ?_
  obtain ⟨skipped, ts, hrest, hskipped, hsignificant, hts⟩ := List.filter_eq_cons_iff.1 (ht.trans hs)
  have hdrop : t.rest.dropWhile (fun v => !v.isSignificant) = u :: ts := by
    rw [hrest, List.dropWhile_append_of_pos fun v hv => by simpa using hskipped v hv,
      List.dropWhile_cons_of_neg (by simp [hsignificant])]
  rw [hdrop]
  refine .setting ?_
  rw [reportUnfinished, if_neg hu]
  refine wrapUnknown_ensures.mono ?_
  rintro _ t' ⟨ht', hlooks⟩
  exact ⟨ht'.trans hts, hlooks⟩

theorem peekAt_run (hlooks : s.looks ≠ 0) (n : Nat) :
    peekAt n i s = .ok (s.significant[n]?.elim .error Token.kind, s.look) := by
  obtain ⟨looks, hl⟩ := Nat.exists_eq_succ_of_ne_zero hlooks
  have hlook : { s with looks } = s.look := by rw [State.look, hl, Nat.succ_sub_one]
  rw [peekAt]
  refine (run_of_ok (t := s) rfl).trans ?_
  rw [hl]
  dsimp only
  rw [hlook, Token.nthSignificant?_eq]
  rfl

theorem peek_run (hlooks : s.looks ≠ 0) : peek i s = .ok (s.next, s.look) := by
  rw [State.next, List.head?_eq_getElem?]
  exact peekAt_run hlooks 0

/-- What is not next is not consumed. -/
theorem eat_run {k : Kind} (hlooks : s.looks ≠ 0) (hk : s.next ≠ k) : eat k i s = .ok (false, s.look) := by
  have hisAt : isAt k i s = .ok (false, s.look) := by
    refine (run_of_ok (peek_run hlooks)).trans ?_
    rw [beq_false_of_ne hk]
    rfl
  exact run_of_ok hisAt

/-- What is not behind the next token is not next when that one has been consumed. -/
theorem next_ne_of_consumed {u : Token} {us : List Token} {k : Kind} (hs : s.significant = u :: us)
    (ht : t.significant = us) (hk : (s.significant[1]?).map Token.kind ≠ some k) (herror : k ≠ .error) :
    t.next ≠ k := by
  rw [hs, List.getElem?_cons_succ, ← List.head?_eq_getElem?] at hk
  rw [State.next, ht]
  cases hhead : us.head? with
  | none => exact herror.symm
  | some v =>
    rw [hhead] at hk
    exact fun h => hk (congrArg some h)

/-- **A name that no `=` follows is read as the beginning of an expression**, as if nothing else had been tried. -/
theorem field_eq {enter : Enter} (hlooks : s.looks ≠ 0) (hname : s.next = .ident)
    (hequals : (s.significant[1]?).map Token.kind ≠ some .equals) :
    Production.field enter i s = Production.positionalField enter i s.refresh := by
  obtain ⟨u, us, hs, hu⟩ := significant_of_next_ne (by rw [hname]; decide)
  have hquoted : u.kind ∉ KindSet.strings := by
    rw [← hu, hname]
    decide
  -- the name is opened, seen, consumed and not followed by `=`
  set s₁ : State := { s with events := s.events.push .blank } with hs₁
  have hstart : start i s = .ok (⟨s.events.size, s.snapshot⟩, s₁) := rfl
  have hpeek : peek i s₁ = .ok (.ident, s₁.look) := by
    have hrun := peek_run (i := i) (s := s₁) hlooks
    rwa [show s₁.next = .ident from hname] at hrun
  obtain ⟨⟨⟩, t, hbump, ht, htlooks⟩ := bump_ensures (i := i) (s := s₁.look) hs hquoted
  have heat : eat .equals i t = .ok (false, t.look) :=
    eat_run (by rw [htlooks]; decide) (next_ne_of_consumed hs ht hequals (by decide))
  -- all of this is taken back
  have hbeyond : s.Beyond 0 t.look := by
    have h₁ := (Onward.start i s (.refl s) _ _ hstart).1
    have h₂ := (Onward.peekAt 0 i s₁ h₁ _ _ hpeek).1
    have h₃ := (Onward.bump i _ h₂ _ _ hbump).1
    exact ⟨h₃.events, h₃.diagnostics, h₃.depth⟩
  have hrollback : rollback ⟨s.events.size, s.snapshot⟩ i t.look = .ok ((), s.refresh) :=
    rollback_beyond rfl hbeyond
  exact (run_of_ok hstart).trans <| (run_of_ok hpeek).trans <| (run_of_ok hbump).trans <|
    (run_of_ok heat).trans <| run_of_ok hrollback

/-! ## Looks -/

/-- The answer of a run and all that it leaves but the looks. -/
def outcome (p : Parser α) (i : Input) (s : State) : Except Fault (α × State) :=
  (p i s).map fun r => (r.1, r.2.refresh)

/-- A computation for which it does not matter how many looks are left. -/
def Carefree (p : Parser α) : Prop := ∀ i s t, s.refresh = t.refresh → outcome p i s = outcome p i t

namespace Carefree

theorem pure (a : α) : Carefree (Pure.pure a : Parser α) := fun _ _ _ h =>
  congrArg (fun t => Except.ok (a, t)) h

theorem bind (hp : Carefree p) (hf : ∀ a, Carefree (f a)) : Carefree (p >>= f) := by
  intro i s t h
  have hrun := hp i s t h
  change Except.map _ (p i s >>= fun r => f r.1 i r.2) = Except.map _ (p i t >>= fun r => f r.1 i r.2)
  unfold outcome at hrun
  cases hs : p i s with
  | error e =>
    cases ht : p i t with
    | error e' =>
      rw [hs, ht] at hrun
      cases hrun
      rfl
    | ok r => rw [hs, ht] at hrun; cases hrun
  | ok r =>
    cases ht : p i t with
    | error e' => rw [hs, ht] at hrun; cases hrun
    | ok r' =>
      obtain ⟨a, s'⟩ := r
      obtain ⟨b, t'⟩ := r'
      rw [hs, ht] at hrun
      obtain ⟨rfl, hrest⟩ := Prod.mk.inj (Except.ok.inj hrun)
      exact hf a i s' t' hrest

/-- It is enough to compare with the same state with another number of looks. -/
theorem of_looks (h : ∀ i s looks, outcome p i { s with looks } = outcome p i s) : Carefree p := by
  intro i s t hst
  have hs : outcome p i s = outcome p i s.refresh := h i s.refresh s.looks
  have ht : outcome p i t = outcome p i t.refresh := h i t.refresh t.looks
  rw [hs, hst, ht]

/-- A computation that asks for the state. -/
theorem get {f : State → Parser β}
    (hf : ∀ i s looks, outcome (f { s with looks }) i { s with looks } = outcome (f s) i s) :
    Carefree (MonadState.get >>= f) := of_looks hf

/-- A computation that asks for what does not change. -/
theorem read {f : Input → Parser β} (hf : ∀ j, Carefree (f j)) : Carefree (MonadReader.read >>= f) := fun i =>
  hf i i

theorem of_blind (hp : Blind p) : Carefree p := of_looks fun i s looks => by
  rw [outcome, hp, outcome]
  cases p i s <;> rfl

/-- **A counted production starts with all looks** or does not start. -/
theorem nested (p : Parser (Option Closed)) : Carefree (nested p) := by
  refine get fun i s looks => ?_
  have hbody : Carefree (do
      modify fun t => { t with depth := s.depth + 1, looks := State.maxLooks }
      let result ← p
      modify fun t => { t with depth := t.depth - 1, looks := State.maxLooks }
      return result) := of_looks fun _ _ _ => rfl
  refine read (fun j => ?_) i _ _ rfl
  dsimp only
  split
  · split
    · exact bind (of_blind (.bailOut _)) fun _ => pure _
    · exact hbody
  · exact hbody

theorem enter : ∀ (n : Nat) (e : Entry), Carefree (Production.enter n e)
  | 0, _ => of_blind (.throw _)
  | _ + 1, _ => nested _

theorem positionalField (n : Nat) : Carefree (Production.positionalField (Production.enter n)) := by
  refine bind (of_blind .start) fun o => bind (enter n _) fun c => ?_
  split
  · exact bind (of_blind (.abandon o)) fun _ => pure _
  · exact bind (bind (of_blind (Blind.stepwise.complete o _)) fun _ => pure _) fun _ => pure _

end Carefree

/-- **Speculation leaves no trace.**  Whatever has been done since a node was opened, its rollback restores all but the
depth, which is as it was if every counted production has been left again.  So a name in a table that no `=` follows is
read as if it had not been tried as the name of a field, by a parser that may look at it at all. -/
theorem speculation_leaves_no_trace :
    (∀ (i : Input) (s : State), ∃ o t, start i s = .ok (o, t) ∧
      ∀ x, Relation.ReflTransGen (Session.Step i) ⟨t, [], [], 0⟩ x →
        rollback o i x.state = .ok ((), { s with depth := s.depth + x.level, looks := State.maxLooks })) ∧
    ∀ (n : Nat) (i : Input) (s : State), s.looks ≠ 0 → s.next = .ident →
      (s.significant[1]?).map Token.kind ≠ some .equals →
      outcome (Production.field (Production.enter n)) i s =
        outcome (Production.positionalField (Production.enter n)) i s := by
  refine ⟨fun i s => ⟨_, _, rfl, fun x hx => ?_⟩, fun n i s hlooks hname hequals => ?_⟩
  · have hbegin : Session.Beyond s ⟨{ s with events := s.events.push .blank }, [], [], 0⟩ :=
      ⟨(Onward.start i s (.refl s) _ _ rfl).1, nofun, nofun⟩
    exact rollback_beyond rfl (hbegin.steps hx).state
  · have hfield : outcome (Production.field (Production.enter n)) i s =
        outcome (Production.positionalField (Production.enter n)) i s.refresh :=
      congrArg (Except.map _) (field_eq hlooks hname hequals)
    rw [hfield]
    exact Carefree.positionalField n i s.refresh s rfl

/-- A character behind the name has then been consumed twice and is reported once. -/
theorem stray_behind_name : ∃ i s, s.looks ≠ 0 ∧ s.next = .ident ∧ (s.significant[1]?).map Token.kind ≠ some .equals ∧
    outcome (Production.field (Production.enter 4)) i s =
      outcome (Production.positionalField (Production.enter 4)) i s ∧
    (outcome (Production.field (Production.enter 4)) i s).toOption.map (fun r => (r.1, r.2.diagnostics.size)) =
      some (true, 1) :=
  ⟨.ofTokens (lex "x $ \x7d") 5 .standard, .initial (lex "x $ \x7d"), by decide, by decide +kernel, by decide +kernel,
    speculation_leaves_no_trace.2 4 _ _ (by decide) (by decide +kernel) (by decide +kernel), by decide +kernel⟩

end Parser

end LuaTree
