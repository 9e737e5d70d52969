import LuaTree.Proofs.Need
import LuaTree.Proofs.Nesting

/-!
# Proofs/Nesting/Row — how deep a run goes, and what it records meanwhile

What was recorded between two states is read as trees (`Read`), so that the levels that a run goes down
can be compared with what the trees need (`Row`).
-/

namespace LuaTree.Parser

open Grammar

variable {α β σ : Type} {p : Parser α} {f : α → Parser β} {i : Input} {s s' s₀ s₁ : State}
  {N m n : Nat}

theorem Draws.settled (h : Draws i s s' []) (hs : s.Settled) : s'.Settled := by
  rw [State.Settled, show s'.ahead = s.ahead from h.ahead.symm]
  exact hs

theorem Draws.next (h : Draws i s s' []) : s'.next = s.next := by
  rw [State.next, State.next, State.significant_eq, State.significant_eq, show s'.ahead = s.ahead from h.ahead.symm]

theorem spanSince_yields (old : Snapshot) : Yields (spanSince old) i s fun _ s' => s' = s := by
  refine .get ?_
  dsimp only
  split
  · rw [spanBetween]
    split
    · exact .pure rfl
    · exact .exhausted
  · exact Yields.bind (p := currentSpan) (Q := fun _ s' => s' = s) (.get (.read (.pure rfl)))
      fun _ _ h => .pure h

/-- The nodes around unknown characters hold nothing that is entered. -/
theorem light_of_unknown {ls : List (Token × Nat)} {t : Tree}
    (h : t ∈ Draft.treesOfList (unknownNodes ls)) : t.IsLight ∧ t.kind = .error := by
  induction ls with
  | nil => simp [unknownNodes, Draft.treesOfList] at h
  | cons l ls ih =>
    rw [unknownNodes] at h
    split at h
    · rcases List.mem_cons.1 h with rfl | h
      · exact ⟨⟨by simp [Branch.tree, Draft.treesOfList, Draft.trees, Tree.need_node],
          show Kind.error ∉ _ by decide⟩, rfl⟩
      · exact ih h
    · simp [Draft.treesOfList] at h

/-- Consuming records leaves, and nodes around unknown characters. -/
theorem bump_yields (hs : s.Sound i) : Yields bump i s fun _ s' => s'.Settled ∧
    ∃ F, Draws i s s' F ∧ ∀ t ∈ Draft.treesOfList F, t.IsLight := by
  refine (bump_outlook hs).mono fun _ _ ⟨l, ls, hl, hg, _, hsettled⟩ => ?_
  refine ⟨hsettled, _, hg, List.forall_mem_cons.2 ⟨?_, fun t ht => (light_of_unknown ht).1⟩⟩
  have hmem : l ∈ s.ahead := hl ▸ List.mem_cons_self
  exact Tree.isLight_of_isToken (hs.input.kinds _ (mem_of_mem_ahead hs.toCoherent hmem)) _

theorem eat_yields (hs : s.Sound i) (k : Kind) : Yields (eat k) i s fun _ s' => s'.Settled ∧
    ∃ F, Draws i s s' F ∧ ∀ t ∈ Draft.treesOfList F, t.IsLight := by
  have hlook : s.look.Sound i := { hs.toCoherent with settled := hs.settled }
  refine .assoc ((peekAt_yields 0).bind fun _ s₁ ⟨hs₁, _⟩ => ?_)
  subst hs₁
  rw [pure_bind]
  split
  · refine (bump_yields hlook).bind fun _ _ ⟨hsettled, F, hg, hF⟩ => .pure ⟨hsettled, F, ?_, hF⟩
    exact (Draws.look hs.toCoherent).trans hg
  · exact .pure ⟨hlook.settled, [], .look hs.toCoherent, nofun⟩

namespace Nesting

/-! ## What is recorded -/

/-- The parser may go on from here, as far as nothing has been reported. -/
def Ready (i : Input) (s : State) : Prop := s.Clean → s.Sound i

/-- **What is known of the trees recorded between two states**, after the drafts `ds`, as long as nothing
has been reported; `G` is what else is known then. -/
def Read (i : Input) (s₀ s : State) (G : Prop) (ds : List Draft) (K : List Tree → Prop) : Prop :=
  s.Clean → G ∧ s.Settled ∧ ∃ F, Draws i s₀ s (ds ++ F) ∧ K (Draft.treesOfList F)

/-- Nothing was recorded that is entered, or in which something is. -/
abbrev Light (i : Input) (s₀ s : State) (G : Prop) (ds : List Draft) : Prop :=
  Read i s₀ s G ds fun ts => ∀ t ∈ ts, t.IsLight

/-- **The trees recorded between two states need `m` levels**, where `place` tells whether the expressions
among them are entered that come after the drafts `ds`. -/
abbrev Row (i : Input) (s₀ s : State) (G : Prop) (ds : List Draft) (place : Bool) (m : Nat) : Prop :=
  Read i s₀ s G ds fun ts =>
    max (Tree.needOfList false (Draft.treesOfList ds)) (Tree.needOfList place ts) = m

/-- **A node was recorded between two states**, which can still be wrapped. -/
def Made (i : Input) (s₀ s : State) (x : Closed) (P : Tree → Prop) : Prop :=
  s.Clean → s.Settled ∧ x.snapshot.rest <:+ i.tokens ∧ ∃ b : Branch, Draws i s₀ s [.grown b] ∧
    x.event + b.width = s.events.size ∧ P b.tree

/-- An expression was recorded that needs `m` levels itself. -/
abbrev Built (i : Input) (s₀ s : State) (x : Closed) (m : Nat) : Prop :=
  Made i s₀ s x fun t => t.kind ∈ expressionKinds ∧ t.need = m

variable {G : Prop} {ds : List Draft} {K K' K'' : List Tree → Prop} {P P' : Tree → Prop} {place : Bool}
  {x : Closed}

theorem Ready.look (hs : Ready i s) : Ready i s.look := fun hclean =>
  { (hs hclean).toCoherent with settled := (hs hclean).settled }

namespace Read

theorem ready (h : Read i s₀ s G ds K) : Ready i s := fun hclean =>
  let ⟨_, hsettled, _, hg, _⟩ := h hclean
  { hg.coherent with settled := hsettled }

theorem mono (h : Read i s₀ s G ds K) (hK : ∀ ts, K ts → K' ts) : Read i s₀ s G ds K' := fun hclean =>
  let ⟨hG, hsettled, F, hg, hF⟩ := h hclean
  ⟨hG, hsettled, F, hg, hK _ hF⟩

theorem trans (h : Read i s₀ s₁ G ds K) (h' : Read i s₁ s True [] K')
    (hK : ∀ ts us, K ts → K' us → K'' (ts ++ us)) : Read i s₀ s G ds K'' := by
  intro hclean
  obtain ⟨-, hsettled, F', hg', hF'⟩ := h' hclean
  obtain ⟨hG, -, F, hg, hF⟩ := h (hg'.clean_of_clean hclean)
  refine ⟨hG, hsettled, F ++ F', ?_, ?_⟩
  · rw [← List.append_assoc]
    exact hg.trans hg'
  · rw [Draft.treesOfList_append]
    exact hK _ _ hF hF'

end Read

theorem Row.trans {m' : Nat} (h : Row i s₀ s₁ G ds place m) (h' : Row i s₁ s True [] place m') :
    Row i s₀ s G ds place (max m m') := by
  refine Read.trans h h' fun ts us hm hm' => ?_
  rw [Tree.needOfList_append, ← hm, ← hm']
  simp [Draft.treesOfList, Nat.max_assoc]

theorem Row.light (h : Row i s₀ s₁ G ds place m) (h' : Light i s₁ s True []) : Row i s₀ s G ds place m := by
  refine Read.trans h h' fun ts us hm hus => ?_
  rw [Tree.needOfList_append, Tree.needOfList_of_light hus, Nat.max_zero, hm]

theorem Light.trans (h : Light i s₀ s₁ G ds) (h' : Light i s₁ s True []) : Light i s₀ s G ds :=
  Read.trans h h' fun _ _ hts hus => List.forall_mem_append.2 ⟨hts, hus⟩

theorem Light.row (h : Light i s₀ s G ds) (place : Bool) :
    Row i s₀ s G ds place (Tree.needOfList false (Draft.treesOfList ds)) :=
  h.mono fun _ hts => by rw [Tree.needOfList_of_light hts, Nat.max_zero]

theorem Light.refl (hs : Ready i s) : Light i s s True [] := fun hclean =>
  ⟨trivial, (hs hclean).settled, [], .refl (hs hclean).toCoherent, nofun⟩

theorem Light.blank (h : Light i s₀ s G [.blank]) (place : Bool) : Row i s₀ s G [.blank] place 0 :=
  h.row place

theorem Row.refl (hs : Ready i s) : Row i s s True [] place 0 := (Light.refl hs).row place

/-- A node among the trees around it. -/
theorem Made.read (h : Made i s₀ s x P) : Read i s₀ s True [] fun ts => ∃ t, ts = [t] ∧ t.isLeaf = false ∧ P t := by
  intro hclean
  obtain ⟨hsettled, -, b, hg, -, hP⟩ := h hclean
  exact ⟨trivial, hsettled, [.grown b], hg, b.tree, rfl, b.isLeaf_tree, hP⟩

theorem Made.row (h : Made i s₀ s x P)
    (hP : ∀ t : Tree, t.isLeaf = false → P t → t.need + (t.isEntered place).toNat = m) :
    Row i s₀ s True [] place m := by
  refine h.read.mono ?_
  rintro _ ⟨t, rfl, hleaf, ht⟩
  have hneed : Tree.needOfList place [t] = m := by
    rw [Tree.needOfList, Tree.needOfRow_node hleaf, hP t hleaf ht, Tree.needOfList_nil, Nat.max_zero]
  simp [hneed, Draft.treesOfList]

/-- **An expression needs one level more where it is entered.** -/
theorem Built.row (h : Built i s₀ s x m) (place : Bool) :
    Row i s₀ s True [] place (m + place.toNat) := by
  refine Made.row h fun t _ ⟨hkind, hneed⟩ => ?_
  rw [hneed, Tree.isEntered, decide_eq_false, decide_eq_true hkind, Bool.and_true, Bool.false_or]
  exact fun hblock => absurd (hblock ▸ hkind) (by decide)

/-! ## Computations -/

/-- **A computation that only looks.** -/
def Looks (p : Parser α) : Prop :=
  ∀ (i : Input) (s : State), Ready i s → Costs 0 p i s fun _ s' h => h = 0 ∧ Draws i s s' []

/-- **A computation that goes no deeper** and records nothing that is entered. -/
def Plain (p : Parser α) : Prop :=
  ∀ (i : Input) (s : State), Ready i s → Costs 0 p i s fun _ s' h => h = 0 ∧ Light i s s' True []

/-- **A computation that goes as deep as the trees need that it records**, in places of one sort. -/
def Adds (place : Bool) (p : Parser α) : Prop :=
  ∀ (i : Input) (s : State), Ready i s → Costs 0 p i s fun _ s' h => Row i s s' True [] place h

section

variable {S : β → State → Nat → Prop}

/-- What a part records comes after what was recorded before it. -/
theorem Row.step (w : Row i s₀ s G ds place m) (hp : Adds place p)
    (hf : ∀ a s' h, Row i s₀ s' G ds place (max m h) → Costs (max N h) (f a) i s' S) :
    Costs N (p >>= f) i s S :=
  (hp i s w.ready).step fun a s₁ h hr => hf a s₁ h (w.trans fun hclean => (hr hclean).2 hclean)

theorem Row.plain (w : Row i s₀ s G ds place m) (hp : Plain p)
    (hf : ∀ a s', Row i s₀ s' G ds place m → Costs N (f a) i s' S) : Costs N (p >>= f) i s S :=
  (hp i s w.ready).level fun a s₁ hr => hf a s₁ (w.light fun hclean => (hr hclean).2 hclean)

theorem Light.plain (w : Light i s₀ s G ds) (hp : Plain p)
    (hf : ∀ a s', Light i s₀ s' G ds → Costs N (f a) i s' S) : Costs N (p >>= f) i s S :=
  (hp i s w.ready).level fun a s₁ hr => hf a s₁ (w.trans fun hclean => (hr hclean).2 hclean)

/-- Nothing was recorded. -/
theorem Read.unchanged (w : Read i s₀ s₁ G ds K) (h : s.Clean → s₁.Clean ∧ Draws i s₁ s []) :
    Read i s₀ s G ds K := by
  intro hclean
  obtain ⟨hclean₁, hg'⟩ := h hclean
  obtain ⟨hG, hsettled, F, hg, hF⟩ := w hclean₁
  exact ⟨hG, hg'.settled hsettled, F, by simpa using hg.trans hg', hF⟩

theorem Made.unchanged (w : Made i s₀ s₁ x P) (h : s.Clean → s₁.Clean ∧ Draws i s₁ s []) :
    Made i s₀ s x P := by
  intro hclean
  obtain ⟨hclean₁, hg'⟩ := h hclean
  obtain ⟨hsettled, hx, b, hg, hevent, hP⟩ := w hclean₁
  refine ⟨hg'.settled hsettled, hx, b, by simpa using hg.trans hg', ?_, hP⟩
  have hevents : s.events = s₁.events := by simpa [Draft.eventsOfList] using congrArg List.toArray hg'.events
  rw [hevent, hevents]

/-- A node that was recorded after a look. -/
theorem Made.behind (hx : Made i s₁ s x P) (h : s₁.Clean → s₀.Clean ∧ Draws i s₀ s₁ []) :
    Made i s₀ s x P := by
  intro hclean
  obtain ⟨hsettled, hsnapshot, b, hg, hb⟩ := hx hclean
  exact ⟨hsettled, hsnapshot, b, (h (hg.clean_of_clean hclean)).2.trans hg, hb⟩

theorem Read.looked (w : Read i s₀ s G ds K) : Read i s₀ s.look G ds K := fun hclean =>
  w.unchanged (fun h => ⟨h, .look (w.ready h).toCoherent⟩) hclean

theorem Made.looked (w : Made i s₀ s x P) : Made i s₀ s.look x P := fun hclean =>
  w.unchanged (fun h => ⟨h, .look (w.read.ready h).toCoherent⟩) hclean

namespace Adds

theorem bind (hp : Adds place p) (hf : ∀ a, Adds place (f a)) : Adds place (p >>= f) := fun _ _ hs =>
  (Row.refl hs).step hp fun a _ _ w => .last (w.step (hf a) fun _ _ _ w => .pure fun _ => by simpa using w)

theorem loop {round : σ → Parser (Round σ α)} (hround : ∀ x, Adds place (round x)) (x : σ) :
    Adds place (loop x round) := by
  refine fun i s hs => Costs.loop (I := fun _ s' N => Row i s s' True [] place N) (fun _ => .refl hs)
    fun x s' N h => ?_
  have w : Row i s s' True [] place N := fun hclean => h hclean hclean
  refine .last (w.step (hround x) fun r s₁ h w => .pure fun _ => ?_)
  cases r with
  | again y => exact w
  | done a => exact w

end Adds

namespace Plain

theorem adds (hp : Plain p) : Adds place p := fun i s hs =>
  (hp i s hs).mono fun _ _ _ _ ⟨hh, hl⟩ => hh ▸ hl.row place

theorem pure (a : α) : Plain (Pure.pure a : Parser α) := fun _ _ hs => .pure fun _ => ⟨rfl, .refl hs⟩

theorem bind (hp : Plain p) (hf : ∀ a, Plain (f a)) : Plain (p >>= f) := by
  intro i s hs
  refine (hp i s hs).level fun a s₁ hr => ?_
  have hlight : Light i s s₁ True [] := fun hclean => (hr hclean).2 hclean
  exact (hf a i s₁ hlight.ready).mono fun _ _ _ _ ⟨hh, hl⟩ => ⟨hh, hlight.trans hl⟩

theorem loop {round : σ → Parser (Round σ α)} (hround : ∀ x, Plain (round x)) (x : σ) :
    Plain (loop x round) := by
  intro i s hs
  refine Costs.loop (I := fun _ s' N => N = 0 ∧ Light i s s' True []) (fun _ => ⟨rfl, .refl hs⟩) fun x s' N h => ?_
  by_cases hclean : s'.Clean
  swap
  · exact (hround x i s' fun h => absurd h hclean).dirty hclean
  obtain ⟨rfl, hlight⟩ := h hclean
  refine (hround x i s' hlight.ready).mono fun r _ _ _ ⟨hh, hl⟩ => ?_
  cases r with
  | again y => exact ⟨hh, hlight.trans hl⟩
  | done a => exact ⟨hh, hlight.trans hl⟩

/-- A word records leaves and the nodes around unknown characters. -/
theorem word (hp : Neutral p)
    (h : ∀ {i : Input} {s : State}, s.Sound i → Yields p i s fun _ s' => s'.Settled ∧
      ∃ F, Draws i s s' F ∧ ∀ t ∈ Draft.treesOfList F, t.IsLight) : Plain p := fun _ _ hs =>
  .word hp fun hclean => (h (hs hclean)).mono fun _ _ ⟨hsettled, F, hg, hF⟩ =>
    ⟨hg.depth, fun _ => ⟨trivial, hsettled, F, hg, hF⟩⟩

end Plain

/-! ## Looking and reporting -/

namespace Looks

theorem plain (hp : Looks p) : Plain p := fun i s hs =>
  .last ((hp i s hs).level fun _ _ h => .pure fun _ => ⟨rfl, (Light.refl hs).unchanged h⟩)

theorem pure (a : α) : Looks (Pure.pure a : Parser α) := fun _ _ hs => .pure fun hclean =>
  ⟨rfl, .refl (hs hclean).toCoherent⟩

theorem bind (hp : Looks p) (hf : ∀ a, Looks (f a)) : Looks (p >>= f) := fun i s hs =>
  (hp i s hs).level fun a s₁ h => (hf a i s₁ ((Light.refl hs).unchanged h).ready).mono
    fun _ _ _ _ ⟨hh, hg⟩ => ⟨hh, by simpa using (h (hg.clean_of_clean ‹_›)).2.trans hg⟩

theorem peekAt (n : Nat) : Looks (peekAt n) := fun _ _ hs =>
  .word (.peekAt n) fun hclean => (peekAt_yields n).mono fun _ _ ⟨h, _⟩ => by
    rw [h]
    exact ⟨rfl, .look (hs hclean).toCoherent⟩

theorem peek : Looks peek := peekAt 0

theorem isAt (k : Kind) : Looks (isAt k) := peek.bind fun _ => pure _

theorem isAtOneOf (set : KindSet) : Looks (isAtOneOf set) := peek.bind fun _ => pure _

theorem currentSpan : Looks currentSpan := fun _ _ hs =>
  .word .currentSpan fun hclean => .get (.read (.pure
    ⟨rfl, .refl (hs hclean).toCoherent⟩))

theorem spanSince (old : Snapshot) : Looks (spanSince old) := fun _ _ hs =>
  .word (.spanSince old) fun hclean => (spanSince_yields old).mono fun _ _ h => by
    rw [h]
    exact ⟨rfl, .refl (hs hclean).toCoherent⟩

theorem require (k : Kind) : Looks (require k) := by
  refine peek.bind fun found => ?_
  split
  · exact fun _ _ _ => .fault
  · exact pure _

end Looks

theorem Read.look (w : Read i s₀ s G ds K) (hp : Looks p)
    (hf : ∀ a s', Read i s₀ s' G ds K → Costs N (f a) i s' S) : Costs N (p >>= f) i s S :=
  (hp i s w.ready).level fun a s₁ h => hf a s₁ (w.unchanged h)

theorem Row.look (w : Row i s₀ s G ds place m) (hp : Looks p)
    (hf : ∀ a s', Row i s₀ s' G ds place m → Costs N (f a) i s' S) : Costs N (p >>= f) i s S :=
  Read.look w hp hf

theorem Made.look (w : Made i s₀ s x P) (hp : Looks p)
    (hf : ∀ a s', Made i s₀ s' x P → Costs N (f a) i s' S) : Costs N (p >>= f) i s S :=
  (hp i s w.read.ready).level fun a s₁ h => hf a s₁ (w.unchanged h)

namespace Plain

theorem report {d : Diagnostic} (hd : d.problem ∉ [.recursionLimitExceeded, .unfinishedComment]) :
    Plain (report d) :=
  .word (.report hd) fun hs =>
    (Yields.of_ensures (report_outlook hs.toCoherent)).mono fun _ _ ⟨hg, hstays, _⟩ =>
      ⟨hstays.settled hs.settled, [], hg, nofun⟩

theorem problem {p : Problem} (hp : p ∉ [.recursionLimitExceeded, .unfinishedComment])
    (detail : Option String) : Plain (problem p detail) :=
  Looks.currentSpan.plain.bind fun _ => report hp

/-! ## Consuming -/

theorem bump : Plain bump := .word .bump bump_yields

theorem eat (k : Kind) : Plain (eat k) := by
  refine (Looks.isAt k).plain.bind fun b => ?_
  split
  · exact bump.bind fun _ => pure _
  · exact pure _

theorem expect (k : Kind) : Plain (expect k) := by
  refine (eat k).bind fun b => ?_
  split
  · exact pure _
  · exact (problem (by decide) _).bind fun _ => pure _

theorem expectClosing (k : Kind) (note : String) (span : Span) : Plain (expectClosing k note span) := by
  refine (eat k).bind fun b => ?_
  split
  · exact pure _
  · exact Looks.currentSpan.plain.bind fun _ => (report (by simp)).bind fun _ => pure _

end Plain

/-! ## What is missing -/

theorem Ready.report {f : Unit → Parser β} {d : Diagnostic} (hs : Ready i s)
    (hd : d.problem ∉ [.recursionLimitExceeded, .unfinishedComment])
    (hf : ∀ s', ¬ s'.Clean → Costs N (f ()) i s' S) : Costs N (Parser.report d >>= f) i s S := by
  have hreport : Costs 0 (Parser.report d) i s fun _ s' h => h = 0 ∧ ¬ s'.Clean :=
    .word (.report hd) fun hclean =>
      (Yields.of_ensures (Ensures.report (hs hclean).toCoherent)).mono fun _ _ h => ⟨h.1.depth, h.2.1⟩
  exact hreport.level fun _ s₁ h => hf s₁ fun hclean => (h hclean).2 hclean

theorem Ready.problem {f : Unit → Parser β} {p : Problem} {detail : Option String} (hs : Ready i s)
    (hp : p ∉ [.recursionLimitExceeded, .unfinishedComment])
    (hf : ∀ s', ¬ s'.Clean → Costs N (f ()) i s' S) : Costs N (Parser.problem p detail >>= f) i s S :=
  .assoc ((Light.refl hs).look .currentSpan fun _ _ w => w.ready.report hp hf)

/-- Where another token stands than the closing one, that is reported. -/
theorem Ready.unmet {f : Bool → Parser β} {k : Kind} {note : String} {span : Span} (hs : Ready i s)
    (hk : s.Clean → s.next ≠ k) (hf : ∀ b s', ¬ s'.Clean → Costs N (f b) i s' S) :
    Costs N (Parser.expectClosing k note span >>= f) i s S := by
  by_cases hclean : s.Clean
  swap
  · refine (Plain.expectClosing k note span i s hs).level fun b s₁ h => hf b s₁ fun hclean₁ => ?_
    exact hclean (h hclean₁).1
  refine .assoc (.assoc (.assoc (.peek ?_)))
  rw [pure_bind, beq_eq_false_iff_ne.2 (hk hclean), if_neg (by simp), pure_bind, if_neg (by simp)]
  have w : Light i s.look s.look True [] := .refl hs.look
  exact .assoc (w.look .currentSpan fun _ s₁ w => .assoc (w.ready.report (by simp) fun s₂ hdirty =>
    hf false s₂ hdirty))

/-! ## Opening -/

/-- **A node was opened**, and nothing has been recorded in it. -/
structure Fresh (i : Input) (s : State) (o : Opening) (s' : State) : Prop where
  read : Read i s s' (Opens i s o .blank) [.blank] (· = [])
  next : s'.Clean → s'.next = s.next

theorem Fresh.light {o : Opening} (w : Fresh i s o s') : Light i s s' (Opens i s o .blank) [.blank] :=
  w.read.mono fun ts h => by simp [h]

theorem Fresh.row {o : Opening} (w : Fresh i s o s') (place : Bool) :
    Row i s s' (Opens i s o .blank) [.blank] place 0 :=
  w.read.mono fun ts h => by simp [h, Draft.treesOfList, Draft.trees]

theorem Ready.start {f : Opening → Parser β} (hs : Ready i s)
    (hf : ∀ o s', Fresh i s o s' → Costs N (f o) i s' S) : Costs N (Parser.start >>= f) i s S := by
  have hstart : Costs 0 Parser.start i s fun o s' h => h = 0 ∧ Fresh i s o s' :=
    .word .start fun hclean => .get (.modifying (.pure
      ⟨rfl, fun _ => ⟨opens_start (hs hclean).toCoherent, (hs hclean).settled, [],
        ⟨.blank (hs hclean).toCoherent, trivial⟩, rfl⟩, fun _ => rfl⟩))
  exact hstart.level fun o s₁ h => hf o s₁ ⟨fun hclean => (h hclean).2.read hclean,
    fun hclean => (h hclean).2.next hclean⟩

/-- **What looking for a name with a `=` behind it leaves**: both in a node, or nothing. -/
def Tried (i : Input) (s s' : State) : Opening × Kind × Bool → Prop
  | (o, _, true) => Light i s s' (Opens i s o .blank) [.blank]
  | (o, k, false) => if k = .ident then s'.Clean → s.Clean ∧ Draws i s s' [] else Fresh i s o s'

theorem Ready.tryName {f : Opening × Kind × Bool → Parser β} (hs : Ready i s)
    (hf : ∀ r s', Tried i s s' r → Costs N (f r) i s' S) : Costs N (Parser.tryName >>= f) i s S := by
  have htry : Costs 0 Parser.tryName i s fun r s' h => h = 0 ∧ Tried i s s' r := by
    refine .word .tryName fun hclean => ?_
    have hs := hs hclean
    have ho : Opens i s ⟨s.events.size, s.snapshot⟩ .blank := opens_start hs.toCoherent
    have hblank : Draws i s { s with events := s.events.push .blank } [.blank] := ⟨.blank hs.toCoherent, trivial⟩
    refine Yields.bind (p := Parser.start)
      (Q := fun o s' => o = ⟨s.events.size, s.snapshot⟩ ∧ s' = { s with events := s.events.push .blank })
      (.get (.modifying (.pure ⟨rfl, rfl⟩))) ?_
    rintro _ s₁ ⟨rfl, rfl⟩
    refine (peekAt_yields 0).bind fun k s₂ ⟨hs₂, hk⟩ => ?_
    subst hs₂
    have hlook := hblank.trans (Draws.look hblank.coherent)
    split
    · refine (bump_yields { hlook.coherent with settled := hs.settled }).bind fun _ s₃ ⟨h₃, F, hg, hF⟩ => ?_
      refine (eat_yields { hg.coherent with settled := h₃ } _).bind fun b s₄ ⟨h₄, F', hg', hF'⟩ => ?_
      have hg' := (hlook.trans hg).trans hg'
      split
      · refine .pure ⟨hg'.depth, fun _ => ⟨ho, h₄, F ++ F', by simpa using hg', ?_⟩⟩
        rw [Draft.treesOfList_append]
        exact List.forall_mem_append.2 ⟨hF, hF'⟩
      · refine (Yields.of_ensures (Grows.rollback ho hg'.toGrows)).bind ?_
        rintro _ _ rfl
        refine .pure ⟨rfl, ?_⟩
        rw [Tried, if_pos ‹_›]
        exact fun _ => ⟨hclean, (Grows.refl hs.toCoherent).refresh, trivial⟩
    · refine .pure ⟨rfl, ?_⟩
      rw [Tried, if_neg ‹_›]
      exact ⟨fun _ => ⟨ho, hs.settled, [], hlook, rfl⟩, fun _ => rfl⟩
  refine htry.certain (fun r s' hdirty => ⟨0, rfl, ?_⟩) ?_
  · obtain ⟨o, k, named⟩ := r
    cases named with
    | true => exact fun h => absurd h hdirty
    | false =>
      rw [Tried]
      split
      · exact fun h => absurd h hdirty
      · exact ⟨fun h => absurd h hdirty, fun h => absurd h hdirty⟩
  · rintro r s' _ ⟨rfl, hr⟩
    exact (Nat.max_zero N).symm ▸ hf r s' hr

/-! ## Closing -/

/-- **An opening becomes a node** around all that was recorded since. -/
theorem Read.complete {f : Closed → Parser β} {o : Opening} {d : Draft} {k : Kind}
    (w : Read i s₀ s G [d] K) (ho : G → Opens i s₀ o d) (hk : k ≠ .tombstone)
    (hP : ∀ ts, G → K ts → P (.node k (d.trees ++ ts)))
    (hf : ∀ x s', Made i s₀ s' x P → Costs N (f x) i s' S) :
    Costs N (Parser.complete o k >>= f) i s S := by
  have hcomplete : Costs 0 (Parser.complete o k) i s fun x s' h => h = 0 ∧ Made i s₀ s' x P := by
    refine .word (.complete o k) fun hclean => ?_
    obtain ⟨hG, hsettled, F, hg, hK⟩ := w hclean
    refine (Yields.of_ensures (Grows.complete (ho hG) hg.toGrows)).mono ?_
    rintro _ s' ⟨⟨hg', rfl, hevent⟩, hstill⟩
    have htree : (d.close k F).tree = .node k (d.trees ++ Draft.treesOfList F) :=
      Draft.tree_close (ho hG).waits k F
    refine ⟨hg'.depth.trans hg.depth.symm, fun _ => ⟨hstill.settled hsettled, (ho hG).snapshot,
      d.close k F, ⟨hg', ?_⟩, hevent, htree ▸ hP _ hG hK⟩⟩
    simp only [Draft.treesOfList, Draft.trees, htree, List.append_nil]
    exact ⟨⟨hk, hg.named⟩, trivial⟩
  exact hcomplete.level fun x s₁ h => hf x s₁ fun hclean => (h hclean).2 hclean

/-- A node whose places are all alike needs what its children do. -/
theorem Row.complete {f : Closed → Parser β} {o : Opening} {k : Kind}
    (w : Row i s₀ s (Opens i s₀ o .blank) [.blank] (Tree.entersFirst k) m)
    (hk : k ∉ [.indexExpression, .binaryExpression, .returnStatement, .tombstone])
    (hf : ∀ x s', Made i s₀ s' x (fun t => t.kind = k ∧ t.need = m) → Costs N (f x) i s' S) :
    Costs N (Parser.complete o k >>= f) i s S := by
  refine Read.complete w id (fun h => hk (by simp [h])) (fun ts _ hm => ⟨rfl, ?_⟩) hf
  rw [Draft.trees, List.nil_append, Tree.need_node (fun h => hk (by simp at h ⊢; tauto))]
  simpa [Draft.treesOfList, Draft.trees] using hm

/-- An expression is closed. -/
theorem Row.build {f : Closed → Parser β} {o : Opening} {k : Kind}
    (w : Row i s₀ s (Opens i s₀ o .blank) [.blank] (Tree.entersFirst k) m)
    (hk : k ∈ expressionKinds ∧ k ∉ [.indexExpression, .binaryExpression])
    (hf : ∀ x s', Built i s₀ s' x m → Costs N (f x) i s' S) :
    Costs N (Parser.complete o k >>= f) i s S := by
  refine w.complete (fun h => ?_) fun x s' hx => hf x s' fun hclean => ?_
  · simp only [List.mem_cons, List.not_mem_nil, or_false, not_or] at h hk
    rcases h with h | h | rfl | rfl
    · exact hk.2.1 h
    · exact hk.2.2 h
    · exact absurd hk.1 (by decide)
    · exact absurd hk.1 (by decide)
  · obtain ⟨hsettled, hx, b, hg, hevent, hkind, hneed⟩ := hx hclean
    exact ⟨hsettled, hx, b, hg, hevent, hkind ▸ hk.1, hneed⟩

/-- The end of an expression. -/
theorem Row.built {o : Opening} {k : Kind}
    (w : Row i s₀ s (Opens i s₀ o .blank) [.blank] (Tree.entersFirst k) m)
    (hk : k ∈ expressionKinds ∧ k ∉ [.indexExpression, .binaryExpression]) (hN : N = m) :
    Costs N (Parser.complete o k) i s fun x s' h => Built i s₀ s' x h :=
  .last (w.build hk fun _ _ hx => .pure fun _ => hN ▸ hx)

/-- A node that is neither an expression nor a block is closed. -/
theorem Row.finish {f : Unit → Parser β} {o : Opening} {k : Kind}
    (w : Row i s₀ s (Opens i s₀ o .blank) [.blank] (Tree.entersFirst k) m)
    (hk : k ∉ [.returnStatement, .tombstone, .block] ++ expressionKinds)
    (hf : ∀ s', (∀ place, Row i s₀ s' True [] place m) → Costs N (f ()) i s' S) :
    Costs N (Production.finish o k >>= f) i s S := by
  simp only [List.mem_append, List.mem_cons, List.not_mem_nil, or_false, not_or] at hk
  have hexpression (h : k = .indexExpression ∨ k = .binaryExpression) : k ∈ expressionKinds := by
    rcases h with rfl | rfl <;> decide
  refine .assoc (w.complete (fun h => ?_) fun x s' hx => hf s' fun place => hx.row ?_)
  · simp only [List.mem_cons, List.not_mem_nil, or_false] at h
    tauto
  · rintro t - ⟨rfl, hneed⟩
    simp [hneed, Tree.isEntered, hk]

/-- The end of a production. -/
theorem Row.finished {o : Opening} {k : Kind}
    (w : Row i s₀ s (Opens i s₀ o .blank) [.blank] (Tree.entersFirst k) m)
    (hk : k ∉ [.returnStatement, .tombstone, .block] ++ expressionKinds) (hN : N = m) :
    Costs N (Production.finish o k) i s fun _ s' h => Row i s₀ s' True [] place h :=
  .last (w.finish hk fun _ w => .pure fun _ => hN ▸ w place)

/-! ## Wrapping an expression -/

/-- An expression is the first child of a node that is open. -/
structure Leads (i : Input) (s₀ : State) (o : Opening) (b : Branch) (m : Nat) : Prop where
  opens : Opens i s₀ o (.wrapping b)
  kind : b.tree.kind ∈ expressionKinds
  need : b.tree.need = m

theorem Leads.ne_block {o : Opening} {b : Branch} (h : Leads i s₀ o b m) : b.tree.kind ≠ .block :=
  fun hkind => absurd (hkind ▸ h.kind) (by decide)

/-- The first child is not entered. -/
theorem Leads.needOfList {o : Opening} {b : Branch} (h : Leads i s₀ o b m) :
    Tree.needOfList false (Draft.treesOfList [.wrapping b]) = m := by
  change Tree.needOfList false [b.tree] = m
  rw [Tree.needOfList, Tree.needOfRow_node b.isLeaf_tree, Tree.needOfList_nil, Nat.max_zero, h.need,
    Tree.isEntered, decide_eq_false h.ne_block]
  rfl

/-- **An expression goes on as the first child of a node that is opened around it.** -/
theorem Made.precede {f : Opening → Parser β} (hx : Built i s₀ s x m)
    (hf : ∀ o b s', Read i s₀ s' (Leads i s₀ o b m) [.wrapping b] (· = []) →
      (s'.Clean → s'.next = s.next) → Costs N (f o) i s' S) : Costs N (Parser.precede x >>= f) i s S := by
  have hprecede : Costs 0 (Parser.precede x) i s fun o s' h => h = 0 ∧ s'.next = s.next ∧
      ∃ b, Read i s₀ s' (Leads i s₀ o b m) [.wrapping b] (· = []) := by
    refine .word (.precede x) fun hclean => ?_
    obtain ⟨hsettled, hsnapshot, b, hg, hevent, hkind, hneed⟩ := hx hclean
    refine (Yields.of_ensures (hg.toGrows.precede hsnapshot hevent)).mono fun o s' ⟨ho, hg', hstill⟩ => ?_
    exact ⟨hg'.depth.trans hg.depth.symm, hstill.next, b, fun _ =>
      ⟨⟨ho, hkind, hneed⟩, hstill.settled hsettled, [], ⟨hg', hg.named⟩, rfl⟩⟩
  refine hprecede.level fun o s₁ h => ?_
  by_cases hclean : s₁.Clean
  · obtain ⟨-, hnext, b, w⟩ := h hclean
    exact hf o b s₁ w fun _ => hnext
  · exact hf o (.node .error []) s₁ (fun h => absurd h hclean) fun h => absurd h hclean

theorem Leads.row {o : Opening} {b : Branch} (w : Read i s₀ s (Leads i s₀ o b m) [.wrapping b] (· = []))
    (place : Bool) : Row i s₀ s (Leads i s₀ o b m) [.wrapping b] place m := by
  intro hclean
  obtain ⟨hb, hsettled, F, hg, hF⟩ := w hclean
  exact ⟨hb, hsettled, F, hg, by simp [hF, hb.needOfList]⟩

/-- What is entered in an index is the key, and in a call nothing. -/
theorem Row.wrap {f : Closed → Parser β} {o : Opening} {b : Branch} {k : Kind} {n : Nat}
    (w : Row i s₀ s (Leads i s₀ o b n) [.wrapping b] (k = .indexExpression) m)
    (hk : k ∈ [.indexExpression, .callExpression]) (hf : ∀ x s', Built i s₀ s' x m → Costs N (f x) i s' S) :
    Costs N (Parser.complete o k >>= f) i s S := by
  refine Read.complete w Leads.opens (fun h => absurd (h ▸ hk) (by decide)) (fun ts hb hts => ?_) hf
  rcases List.mem_cons.1 hk with rfl | hk
  · rw [hb.needOfList, ← hb.need] at hts
    refine ⟨show Kind.indexExpression ∈ expressionKinds by decide, ?_⟩
    rw [Draft.trees, List.singleton_append, Tree.need_index b.isLeaf_tree hb.ne_block, ← hts]
    rfl
  · obtain rfl := List.mem_singleton.1 hk
    refine ⟨show Kind.callExpression ∈ expressionKinds by decide, ?_⟩
    rw [Tree.need_node (by decide), Tree.needOfList_append, ← hts]
    rfl

/-- **An opening is given up**; all that was recorded since is kept. -/
theorem Read.abandon {f : Unit → Parser β} {o : Opening}
    (w : Read i s₀ s (Opens i s₀ o .blank) [.blank] K)
    (hf : ∀ s', Read i s₀ s' True [] K → (s'.Clean → s.Clean ∧ s'.next = s.next) → Costs N (f ()) i s' S) :
    Costs N (Parser.abandon o >>= f) i s S := by
  have habandon : Costs 0 (Parser.abandon o) i s fun _ s' h => h = 0 ∧ Read i s₀ s' True [] K ∧
      s'.next = s.next := by
    refine .word (.abandon o) fun hclean => ?_
    obtain ⟨ho, hsettled, F, hg, hK⟩ := w hclean
    refine (Yields.of_ensures (Grows.abandon ho hg.toGrows)).mono fun _ s' ⟨⟨F', hg', hF'⟩, hstill⟩ => ?_
    have htrees : Draft.treesOfList F' = Draft.treesOfList F := by rcases hF' with rfl | rfl <;> rfl
    refine ⟨hg'.depth.trans hg.depth.symm, fun _ => ⟨trivial, hstill.settled hsettled, F', ⟨hg', ?_⟩,
      htrees ▸ hK⟩, hstill.next⟩
    rw [List.nil_append, htrees]
    exact hg.named
  exact habandon.level fun _ s₁ h => hf s₁ (fun hclean => (h hclean).2.1 hclean)
    fun hclean => (h hclean).imp_right And.right

/-- Where nothing was found since, the parser stands where it stood. -/
theorem Fresh.abandon {f : Unit → Parser β} {o : Opening} (w : Fresh i s o s₁) (hl : Light i s₁ s' True [])
    (hnext : s'.Clean → s'.next = s₁.next)
    (hf : ∀ t, Light i s t True [] → (t.Clean → t.next = s.next) → Costs N (f ()) i t S) :
    Costs N (Parser.abandon o >>= f) i s' S := by
  refine (w.light.trans hl).abandon fun t wt hstill => hf t wt fun hclean => ?_
  obtain ⟨hclean', heq⟩ := hstill hclean
  obtain ⟨-, -, _, hg, -⟩ := hl hclean'
  rw [heq, hnext hclean', w.next (hg.clean_of_clean hclean')]

/-! ## Nodes around one token -/

/-- The next token is recorded, with the unknown characters behind it. -/
theorem Ready.bump (hs : Ready i s) : Costs 0 Parser.bump i s fun _ s' h => h = 0 ∧
    Read i s s' True [] fun ts => ∃ y us, ts = .leaf s.next y :: us ∧
      ∀ u ∈ us, u.IsLight ∧ u.kind = .error := by
  refine .word .bump fun hclean => (bump_outlook (hs hclean)).mono ?_
  rintro _ s' ⟨l, ls, hl, hg, -, hsettled⟩
  have hready : s.outlook.Ready i := ⟨faces_of_coherent (hs hclean).toCoherent, (hs hclean).settled⟩
  have hnext : s.next = l.1.kind := by
    rw [State.next, ← s.significant_outlook, hready.significant hl]
    rfl
  exact ⟨hg.depth, fun _ => ⟨trivial, hsettled, _, hg, l.1.text, _, by rw [hnext]; rfl,
    fun u hu => light_of_unknown hu⟩⟩

theorem single_made {f : Closed → Parser β} {k : Kind} (hs : Ready i s) (hk : k ≠ .tombstone)
    (hP : s.Clean → ∀ y us, (∀ u ∈ us, u.IsLight ∧ u.kind = .error) → P (.node k (.leaf s.next y :: us)))
    (hf : ∀ x s', Made i s s' x P → Costs N (f x) i s' S) :
    Costs N (Production.single k >>= f) i s S := by
  refine .assoc (hs.start fun o s₁ w => .assoc (w.read.ready.bump.level fun _ s₂ h => ?_))
  have hbump : Read i s₁ s₂ True [] fun ts => P (.node k ts) := fun hclean => by
    obtain ⟨hclean₁, -, hsettled, F, hg, y, us, hF, hus⟩ := (h hclean).imp_right fun h => h hclean
    refine ⟨trivial, hsettled, F, hg, ?_⟩
    obtain ⟨-, -, _, hg₁, -⟩ := w.read hclean₁
    rw [hF, w.next hclean₁]
    exact hP (hg₁.clean_of_clean hclean₁) y us hus
  have w' : Read i s s₂ (Opens i s o .blank) [.blank] fun ts => P (.node k ts) :=
    w.read.trans hbump fun _ _ hts hus => by rwa [hts, List.nil_append]
  exact w'.complete id hk (fun _ _ h => h) hf

/-- **A computation that answers with the expression it records**, and goes as deep as that needs. -/
def Builds (p : Parser Closed) : Prop :=
  ∀ (i : Input) (s : State), Ready i s → Costs 0 p i s fun x s' h => Built i s s' x h

theorem Builds.adds {p : Parser Closed} (hp : Builds p) : Adds false p := fun i s hs =>
  (hp i s hs).mono fun _ _ _ _ hx => hx.row false

theorem single_builds {k : Kind} (hk : k ∈ expressionKinds ∧
    k ∉ Tree.enteringKinds ++ [.indexExpression, .binaryExpression]) : Builds (Production.single k) := by
  simp only [List.mem_append, List.mem_cons, List.not_mem_nil, or_false, not_or] at hk
  refine fun i s hs => .last (single_made hs ?_ (fun _ y us hus => ⟨hk.1, ?_⟩) fun x s' h => .pure fun _ => h)
  · rintro rfl
    exact absurd hk.1 (by decide)
  · have hreturn : k ≠ .returnStatement := by
      rintro rfl
      exact absurd hk.1 (by decide)
    rw [Tree.need_node (by simp [hk, hreturn]), Tree.needOfList_leaf,
      Tree.needOfList_of_light fun u hu => (hus u hu).1]

theorem single_plain {k : Kind} (hk : k ∉ [.tombstone, .block, .expressionList, .returnStatement] ++
    expressionKinds) : Plain (Production.single k) := by
  simp only [List.mem_append, List.mem_cons, List.not_mem_nil, or_false, not_or] at hk
  have hkinds : k ≠ .indexExpression ∧ k ≠ .binaryExpression := by
    constructor <;> rintro rfl <;> exact absurd hk.2 (by decide)
  refine fun i s hs => .last (single_made (P := Tree.IsLight) hs hk.1.1 (fun _ y us hus => ⟨?_, ?_⟩)
    fun x s' h => .pure fun _ => ⟨rfl, h.read.mono ?_⟩)
  · rw [Tree.need_node (by simp [hk, hkinds]), Tree.needOfList_leaf,
      Tree.needOfList_of_light fun u hu => (hus u hu).1]
  · simp [Tree.kind, hk]
  · rintro _ ⟨t, rfl, -, ht⟩
    simpa using ht

end

end Nesting

end LuaTree.Parser
