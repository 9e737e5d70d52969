import LuaTree.Proofs.Reading

/-!
# Proofs/Words — what looking, reporting, opening and closing do to what was read

One lemma for each word of `Parser/Basic` that consumes nothing.  Most are stated as steps: from what
was read before the word follows what was read after it, and the rest of the computation goes on from
there.
-/

namespace LuaTree

open Grammar

theorem Token.nthSignificant?_eq (n : Nat) (ts : List Token) :
    nthSignificant? n ts = (ts.filter isSignificant)[n]? := by
  induction ts generalizing n with
  | nil => simp [nthSignificant?]
  | cons t ts ih =>
    by_cases ht : t.isSignificant
    · rw [List.filter_cons_of_pos ht]
      cases n with
      | zero => simp [nthSignificant?, ht]
      | succ n => simp [nthSignificant?, ht, ih]
    · rw [List.filter_cons_of_neg ht, ← ih]
      simp [nthSignificant?, ht]

namespace Parser

variable {gaps : Bool} {i : Input} {c c' : Nat} {s s' s₀ : State} {ds : List Draft}
  {L M : Language Tree} {α β : Type} {Q : β → State → Prop}

/-! ## Looking -/

theorem Since.peekAt {f : Kind → Parser β} (w : Since gaps i c s₀ s ds L) (n : Nat)
    (hc : c < State.maxLooks)
    (hf : Since gaps i (c + 1) s₀ s.look ds L →
      Ensures (f (s.significant[n]?.elim .error Token.kind)) i s.look Q) :
    Ensures (Parser.peekAt n >>= f) i s Q := by
  obtain ⟨looks, hl⟩ : ∃ looks, s.looks = looks + 1 :=
    Nat.exists_eq_succ_of_ne_zero (by have := w.used; simp only [State.used] at this; omega)
  have hlook : { s with looks } = s.look := by rw [State.look, hl, Nat.add_sub_cancel]
  rw [Parser.peekAt]
  refine .assoc (.get ?_)
  rw [hl]
  refine .assoc (.setting ?_)
  rw [hlook, Token.nthSignificant?_eq, pure_bind]
  exact hf w.look

theorem Since.peek {f : Kind → Parser β} (w : Since gaps i c s₀ s ds L) (hc : c < State.maxLooks)
    (hf : Since gaps i (c + 1) s₀ s.look ds L → Ensures (f s.next) i s.look Q) :
    Ensures (Parser.peek >>= f) i s Q := by
  refine w.peekAt 0 hc fun w => ?_
  rw [← List.head?_eq_getElem?]
  exact hf w

theorem Since.isAt {f : Bool → Parser β} {k : Kind} (w : Since gaps i c s₀ s ds L)
    (hc : c < State.maxLooks)
    (yes : s.next = k → Since gaps i (c + 1) s₀ s.look ds L → Ensures (f true) i s.look Q)
    (no : s.next ≠ k → Since gaps i (c + 1) s₀ s.look ds L → Ensures (f false) i s.look Q) :
    Ensures (Parser.isAt k >>= f) i s Q := by
  refine .assoc (w.peek hc fun w => ?_)
  change Ensures (f (s.next == k)) i s.look Q
  by_cases h : s.next = k
  · rw [beq_iff_eq.2 h]
    exact yes h w
  · rw [beq_eq_false_iff_ne.2 h]
    exact no h w

theorem Since.isAtOneOf {f : Bool → Parser β} {set : KindSet} (w : Since gaps i c s₀ s ds L)
    (hc : c < State.maxLooks)
    (yes : s.next ∈ set → Since gaps i (c + 1) s₀ s.look ds L → Ensures (f true) i s.look Q)
    (no : s.next ∉ set → Since gaps i (c + 1) s₀ s.look ds L → Ensures (f false) i s.look Q) :
    Ensures (Parser.isAtOneOf set >>= f) i s Q := by
  refine .assoc (w.peek hc fun w => ?_)
  change Ensures (f (set.contains s.next)) i s.look Q
  by_cases h : s.next ∈ set
  · rw [KindSet.mem_iff_contains.1 h]
    exact yes h w
  · rw [Bool.eq_false_iff.2 (mt KindSet.mem_iff_contains.2 h)]
    exact no h w

theorem Since.require {f : Unit → Parser β} {k : Kind} (w : Since gaps i c s₀ s ds L)
    (hc : c < State.maxLooks) (hk : s.next = k)
    (hf : Since gaps i (c + 1) s₀ s.look ds L → Ensures (f ()) i s.look Q) :
    Ensures (Parser.require k >>= f) i s Q := by
  refine .assoc (w.peek hc fun w => ?_)
  rw [if_neg (not_not.2 hk)]
  exact hf w

/-- The next significant token, or the end, begins within the source. -/
theorem Ensures.currentSpan {f : Span → Parser β} (hs : s.Coherent i)
    (hf : ∀ span : Span, span.start ≤ i.size → Ensures (f span) i s Q) :
    Ensures (Parser.currentSpan >>= f) i s Q := by
  refine hf _ ?_
  cases h : s.rest.find? Token.isSignificant with
  | none => exact Nat.le_refl _
  | some t =>
    have ht : t ∈ i.tokens :=
      List.mem_of_mem_drop (hs.rest ▸ List.mem_of_find?_eq_some h)
    exact (Nat.le_add_right ..).trans (hs.input.within t ht)

/-! ## Reporting -/

/-- **After a report something is reported**: what keeps a diagnostic back is another one. -/
theorem Ensures.report {d : Diagnostic} (hs : s.Coherent i) :
    Ensures (report d) i s fun _ s' => Grows i s s' [] ∧ ¬ s'.Clean ∧ s.Stays s' := by
  refine .assoc (.get ?_)
  by_cases h : s.limitReached || s.lastReported == some d.span.start
  · rw [if_pos h]
    refine .pure ⟨.refl hs, fun hclean => ?_, .refl s⟩
    obtain ⟨h₁, h₂⟩ := hs.reported hclean
    simp [h₁, h₂] at h
  · rw [if_neg h]
    have hdirty : ¬ State.Clean { s with
        lastReported := some d.span.start, diagnostics := s.diagnostics.push d } := by
      simp [State.Clean]
    refine Ensures.modify ⟨⟨hs, ⟨hs.input, hs.rest, hs.position_le, fun h => ?_⟩,
      by simp [Draft.eventsOfList], rfl, rfl, by simp⟩, hdirty, rfl, rfl⟩
    exact absurd h hdirty

theorem Since.report {f : Unit → Parser β} {d : Diagnostic} (w : Since gaps i c s₀ s ds L)
    (hf : ∀ s', Since gaps i c s₀ s' ds L → ¬ s'.Clean → s.Stays s' →
      Ensures (f ()) i s' Q) :
    Ensures (Parser.report d >>= f) i s Q := by
  refine (Ensures.report w.sound.toCoherent).bind fun _ s' ⟨hg, hd, hstays⟩ => ?_
  have hr : Reads gaps i c s s' 1 :=
    ⟨hstays.settled w.settled, hstays.used.trans_le w.used, [], hg, fun _ => ⟨trivial, rfl⟩,
      fun _ => Draft.tiedBehind_nil trivial⟩
  exact hf s' (by simpa using w.trans hr) hd hstays

theorem Since.problem {f : Unit → Parser β} {p : Problem} {detail : Option String}
    (w : Since gaps i c s₀ s ds L)
    (hf : ∀ s', Since gaps i c s₀ s' ds L → ¬ s'.Clean → s.Stays s' →
      Ensures (f ()) i s' Q) :
    Ensures (Parser.problem p detail >>= f) i s Q :=
  Ensures.currentSpan w.sound.toCoherent fun _ _ => w.report hf

/-! ## Spans -/

theorem start_le_stop_of_pairwise {ts : List Token} (h : ts.Pairwise fun t u => t.stop ≤ u.start)
    {t u : Token} (ht : ts.head? = some t) (hu : ts.getLast? = some u) : t.start ≤ u.stop := by
  have hle : ∀ v : Token, v.start ≤ v.stop := fun v => Nat.le_add_right ..
  obtain ⟨us, rfl⟩ : ∃ us, ts = t :: us := by
    cases ts with
    | nil => simp at ht
    | cons v us => exact ⟨us, by simpa using ht⟩
  rcases List.mem_cons.1 (List.mem_of_getLast? hu) with rfl | hmem
  · exact hle u
  · exact (hle t).trans ((List.rel_of_pairwise_cons h hmem).trans (hle u))

theorem Ensures.spanSince {f : Span → Parser β} {old : Snapshot} (hs : s.Coherent i)
    (ho : old.rest <:+ i.tokens) (hf : ∀ span, Ensures (f span) i s Q) :
    Ensures (Parser.spanSince old >>= f) i s Q := by
  refine .assoc (.get ?_)
  have hsub : ((old.rest.take (s.position - old.position)).filter
      fun t => !t.kind.isTrivia).Sublist i.tokens :=
    List.filter_sublist.trans ((List.take_sublist ..).trans ho.sublist)
  dsimp only
  split
  · rename_i first last hfirst hlast
    have hle : first.start ≤ last.stop :=
      start_le_stop_of_pairwise (hs.input.ordered.sublist hsub) hfirst hlast
    rw [spanBetween, Span.between?, dif_pos hle]
    exact hf _
  · exact .assoc (.currentSpan hs fun span _ => hf _)

/-! ## Opening -/

theorem Grows.blank (hs : s.Coherent i) : Grows i s { s with events := s.events.push .blank } [.blank] :=
  ⟨hs, { hs with }, by simp [Draft.eventsOfList, Draft.events], rfl, rfl, List.prefix_rfl⟩

theorem opens_start (hs : s.Coherent i) : Opens i s ⟨s.events.size, s.snapshot⟩ .blank := by
  refine ⟨trivial, rfl, ?_, fun _ => rfl⟩
  change s.rest <:+ i.tokens
  exact hs.rest ▸ List.drop_suffix ..

/-- What is read from now on goes into a new node. -/
theorem Since.start {f : Opening → Parser β} (w : Since gaps i c s₀ s ds L)
    (hf : ∀ o s', Opens i s o .blank → Since gaps i c s s' [.blank] 1 → s.Still s' →
      Ensures (f o) i s' Q) : Ensures (Parser.start >>= f) i s Q := by
  have hs := w.sound.toCoherent
  refine hf _ { s with events := s.events.push .blank } (opens_start hs) ?_ ⟨⟨rfl, rfl⟩, rfl⟩
  exact ⟨w.settled, w.used, [], .blank hs, fun _ => ⟨trivial, rfl⟩, fun _ => Draft.tiedBehind_blank trivial⟩

theorem Ensures.amend {event : Nat} {change : Kind → Option Nat → Event} {A B : List Event}
    {k : Kind} {link : Option Nat} (hs : s.events.toList = A ++ .opening k link :: B)
    (he : event = A.length) : Ensures (Parser.amend event change) i s fun _ s' =>
      s' = { s with events := (A ++ change k link :: B).toArray } := by
  have hget : s.events[event]? = some (.opening k link) := by
    rw [← Array.getElem?_toList, hs, he, List.getElem?_append_right (Nat.le_refl _), Nat.sub_self]
    rfl
  refine Ensures.get ?_
  rw [hget]
  refine Ensures.set ?_
  congr 1
  rw [← Array.toList_inj, Array.toList_setIfInBounds, hs, he, List.set_append_right _ _ (Nat.le_refl _),
    Nat.sub_self, List.set_cons_zero]

/-- **A closed node goes on as the first child of the node that is opened around it.** -/
theorem Grows.precede {x : Closed} {b : Branch} (hg : Grows i s₀ s [.grown b])
    (hx : x.snapshot.rest <:+ i.tokens) (hevent : x.event + b.width = s.events.size) :
    Ensures (Parser.precede x) i s fun o s' =>
      Opens i s₀ o (.wrapping b) ∧ Grows i s₀ s' [.wrapping b] ∧ s.Still s' := by
  obtain ⟨A, B, hB, hev⟩ := b.exists_events_eq
  have hevents : (s.events.push .blank).toList =
      s₀.events.toList ++ A ++ .opening b.kind none :: (B ++ [.blank]) := by
    rw [Array.toList_push, hg.events, Draft.eventsOfList, Draft.eventsOfList, Draft.events, hev]
    simp
  have hsize : s.events.size = s₀.events.size + A.length + B.length + 1 := by
    have := congrArg List.length hevents
    simp at this
    omega
  have hat : x.event = (s₀.events.toList ++ A).length := by
    simp
    omega
  have hdistance : s.events.size - x.event = b.width := by omega
  refine Ensures.bind (Q := fun o s' => o = ⟨s.events.size, s.snapshot⟩ ∧
    s' = { s with events := s.events.push .blank }) ⟨_, _, rfl, rfl, rfl⟩ ?_
  rintro _ _ ⟨rfl, rfl⟩
  refine Ensures.bind (Ensures.amend hevents hat) ?_
  rintro _ _ rfl
  refine .pure ⟨⟨trivial, ?_, hx, nofun⟩, ⟨hg.before, { hg.coherent with }, ?_, hg.ahead, hg.depth,
    hg.diagnostics⟩, ⟨rfl, rfl⟩, rfl⟩
  · simp [Draft.before, hev, hsize]
    omega
  · simp [Draft.eventsOfList, Draft.events, hev, hdistance]

theorem Ensures.precede {f : Opening → Parser β} {x : Closed} (h : Closes gaps i c s₀ s x L)
    (hf : ∀ o b s', Opens i s₀ o (.wrapping b) → Since gaps i c s₀ s' [.wrapping b] L → s.Still s' →
      Ensures (f o) i s' Q) : Ensures (Parser.precede x >>= f) i s Q := by
  obtain ⟨hs, hu, hx, b, hg, hfits, hevent, -, htied⟩ := h
  refine (hg.precede hx hevent).bind fun o s' ⟨ho, hg', hstill⟩ => hf o b s' ho ?_ hstill
  exact ⟨hstill.settled hs, hstill.used.trans_le hu, [], hg',
    fun hgaps => hfits (hgaps.imp_left hstill.clean.1), fun h => Draft.tiedBehind_wrapping (htied h)⟩

/-! ## Closing -/

theorem Grows.complete {o : Opening} {d : Draft} {F : List Draft} {k : Kind} (ho : Opens i s₀ o d)
    (hg : Grows i s₀ s (d :: F)) : Ensures (Parser.complete o k) i s fun x s' =>
      (Grows i s₀ s' [.grown (d.close k F)] ∧ x = ⟨o.event, k, o.snapshot⟩ ∧
        x.event + (d.close k F).width = s'.events.size) ∧ s.Still s' := by
  have hevents : s.events.toList =
      s₀.events.toList ++ d.before ++ .opening .tombstone none :: Draft.eventsOfList F := by
    rw [hg.events, Draft.eventsOfList, Draft.events_of_waits ho.waits]
    simp [Event.blank]
  refine Ensures.bind (Ensures.amend hevents (by simp [ho.event])) ?_
  rintro _ _ rfl
  refine Ensures.bind (Q := fun _ s' => s' = { s with events := _ }) ⟨_, _, rfl, rfl⟩ ?_
  rintro _ _ rfl
  refine Ensures.pure ⟨⟨⟨hg.before, { hg.coherent with }, ?_, ?_, hg.depth, hg.diagnostics⟩, rfl, ?_⟩,
    ⟨⟨rfl, rfl⟩, rfl⟩⟩
  · simp [Draft.eventsOfList, Draft.events, Draft.events_close]
  · have hleaves : Draft.leavesOfList [.grown (d.close k F)] = Draft.leavesOfList (d :: F) := by
      rw [← Draft.leaves_close ho.waits k F]
      exact List.append_nil _
    rw [hleaves]
    exact hg.ahead
  · simp [ho.event]
    omega

/-- **An opening becomes a node around all that was read since**, if that is what nodes of its kind
consist of. -/
theorem Ensures.complete {o : Opening} {d : Draft} {k : Kind} (ho : Opens i s₀ o d)
    (w : Since gaps i c s₀ s [d] L) (hk : k ≠ .error ∧ k ≠ .tombstone)
    (hL : (s.Clean ∨ gaps) → L ≤ production gaps k) :
    Ensures (Parser.complete o k) i s fun x s' =>
      Closes gaps i c s₀ s' x (around k L) ∧ s.Still s' := by
  obtain ⟨hs, hu, F, hg, hf, htied⟩ := w
  have htrees : Draft.treesOfList [.grown (d.close k F)] = [.node k (Draft.treesOfList ([d] ++ F))] := by
    simp [Draft.treesOfList, Draft.trees, Draft.tree_close ho.waits]
  refine (Grows.complete ho hg).mono ?_
  rintro x s' ⟨⟨hg', rfl, hevent⟩, hstill⟩
  refine ⟨⟨hstill.settled hs, hstill.used.trans_le hu, ho.snapshot, d.close k F, hg', fun hgaps => ?_,
    hevent, by simp, fun h => Draft.tied_close hk.2 (htied h)⟩, hstill⟩
  obtain ⟨h₁, h₂⟩ := hf (hgaps.imp_left hstill.clean.1)
  rw [htrees]
  refine ⟨⟨⟨hL (hgaps.imp_left hstill.clean.1) h₂, h₁⟩, trivial⟩, Draft.treesOfList ([d] ++ F), ?_, h₂⟩
  simp [clear, isError_node hk.1]

theorem Closes.reads {x : Closed} (h : Closes gaps i c s s' x L) : Reads gaps i c s s' L :=
  let ⟨hs, hu, _, b, hg, hf, _, _, htied⟩ := h
  ⟨hs, hu, [.grown b], hg, hf, fun h => Draft.tiedBehind_nil ⟨htied h, trivial⟩⟩

theorem Closes.of_look {x : Closed} (hs : s₀.Sound i) (h : Closes gaps i c s₀.look s x L) :
    Closes gaps i c s₀ s x L :=
  let ⟨h₁, h₂, h₃, b, hg, hb⟩ := h
  ⟨h₁, h₂, h₃, b, hg.of_look hs, hb⟩

theorem Closes.node {x : Closed} {k : Kind} (h : Closes gaps i c s s' x (around k L)) :
    Reads gaps i c s s' (node k) :=
  h.reads.mono (Nat.le_refl c) fun _ => around_le_node

theorem Closes.look {x : Closed} (h : Closes gaps i c s₀ s x L) :
    Closes gaps i (c + 1) s₀ s.look x L := by
  have w := h.reads.look
  obtain ⟨-, -, h₃, b, hg, hb⟩ := h
  exact ⟨w.settled, w.used, h₃, b, { hg with coherent := w.sound.toCoherent }, hb⟩

/-- A report leaves the node as it is. -/
theorem Closes.report {f : Unit → Parser β} {x : Closed} {d : Diagnostic}
    (h : Closes gaps i c s₀ s x L)
    (hf : ∀ s', Closes gaps i c s₀ s' x L → ¬ s'.Clean → s.Stays s' → Ensures (f ()) i s' Q) :
    Ensures (Parser.report d >>= f) i s Q := by
  refine (Ensures.report h.reads.sound.toCoherent).bind fun _ s' ⟨hg', hdirty, hstays⟩ => ?_
  obtain ⟨hsettled, hu, hsnapshot, b, hg, hfits, hevent, hb⟩ := h
  refine hf s' ⟨hstays.settled hsettled, hstays.used.trans_le hu, hsnapshot, b, ?_, ?_, ?_, hb⟩
    hdirty hstays
  · exact hg.trans hg'
  · exact fun hgaps => hfits (hgaps.imp_left fun h => absurd h hdirty)
  · rw [hevent, ← Array.length_toList, ← Array.length_toList, hg'.events]
    simp [Draft.eventsOfList]

theorem Closes.problem {f : Unit → Parser β} {x : Closed} {p : Problem} {detail : Option String}
    (h : Closes gaps i c s₀ s x L)
    (hf : ∀ s', Closes gaps i c s₀ s' x L → ¬ s'.Clean → s.Stays s' → Ensures (f ()) i s' Q) :
    Ensures (Parser.problem p detail >>= f) i s Q :=
  .currentSpan h.reads.sound.toCoherent fun _ _ => h.report hf

/-- The kind of a finished node is known. -/
theorem Closes.of_kind {x : Closed} (h : Closes gaps i c s₀ s x L)
    (hL : ∀ ts ∈ L, (∀ t ∈ ts, t.kind = x.kind) → ts ∈ M) : Closes gaps i c s₀ s x M := by
  obtain ⟨hs, hu, hx, b, hg, hf, hevent, hkind, htied⟩ := h
  refine ⟨hs, hu, hx, b, hg, fun hgaps => ⟨(hf hgaps).1, hL _ (hf hgaps).2 fun t ht => ?_⟩, hevent,
    hkind, htied⟩
  have ht : t = b.tree := by
    simpa [Draft.treesOfList, Draft.trees] using (List.mem_filter.1 ht).1
  rw [ht, Branch.kind_tree, hkind]

theorem Closes.mono {x : Closed} (h : Closes gaps i c s s' x L) (hc : c ≤ c')
    (hL : (s'.Clean ∨ gaps) → L ≤ M) : Closes gaps i c' s s' x M :=
  let ⟨hs, hu, hx, b, hg, hf, hb⟩ := h
  ⟨hs, hu.trans hc, hx, b, hg, hf.mono hL, hb⟩

theorem Ensures.finish {o : Opening} {d : Draft} {k : Kind} (ho : Opens i s₀ o d)
    (w : Since gaps i c s₀ s [d] L) (hk : k ≠ .error ∧ k ≠ .tombstone)
    (hL : (s.Clean ∨ gaps) → L ≤ production gaps k) :
    Ensures (Production.finish o k) i s fun _ s' =>
      Reads gaps i c s₀ s' (around k L) ∧ s.Still s' :=
  (Ensures.complete ho w hk hL).bind fun _ _ ⟨h, hstill⟩ => .pure ⟨h.reads, hstill⟩

theorem Since.finish {f : Unit → Parser β} {o : Opening} {d : Draft} {k : Kind}
    (w : Since gaps i c s₀ s [d] L) (ho : Opens i s₀ o d) (hk : k ≠ .error ∧ k ≠ .tombstone)
    (hL : (s.Clean ∨ gaps) → L ≤ production gaps k)
    (hf : ∀ s', Reads gaps i c s₀ s' (node k) → s'.remaining = s.remaining →
      Ensures (f ()) i s' Q) : Ensures (Production.finish o k >>= f) i s Q := by
  refine (Ensures.finish ho w hk hL).bind fun _ s' ⟨hr, hstill⟩ => ?_
  exact hf s' (hr.mono (Nat.le_refl c) fun _ => around_le_node) hstill.remaining

/-- The end of a production that has consumed something. -/
theorem finish_consumed {o : Opening} {d : Draft} {k : Kind}
    (w : Since gaps i c s₀ s [d] L) (ho : Opens i s₀ o d) (hk : k ≠ .error ∧ k ≠ .tombstone)
    (hL : (s.Clean ∨ gaps) → L ≤ production gaps k) (hc : c ≤ c')
    (hlt : s.remaining < s₀.remaining) :
    Ensures (Production.finish o k) i s fun _ s' => Reads gaps i c' s₀ s' (node k) ∧
      s'.remaining < s₀.remaining :=
  .last (w.finish ho hk hL fun _ hr heq => .pure ⟨hr.weaken hc, heq.trans_lt hlt⟩)

/-- The end of a production that may be empty. -/
theorem finish_reads {o : Opening} {d : Draft} {k : Kind}
    (w : Since gaps i c s₀ s [d] L) (ho : Opens i s₀ o d) (hk : k ≠ .error ∧ k ≠ .tombstone)
    (hL : (s.Clean ∨ gaps) → L ≤ production gaps k) (hc : c ≤ c') :
    Ensures (Production.finish o k) i s fun _ s' => Reads gaps i c' s₀ s' (node k) ∧ True :=
  .last (w.finish ho hk hL fun _ hr _ => .pure ⟨hr.weaken hc, trivial⟩)

/-- **An opening that is given up leaves what was read since.** -/
theorem Grows.abandon {o : Opening} {F : List Draft} (ho : Opens i s₀ o .blank)
    (hg : Grows i s₀ s (.blank :: F)) : Ensures (Parser.abandon o) i s fun _ s' =>
      (∃ F', Grows i s₀ s' F' ∧ (F' = F ∨ F' = .blank :: F)) ∧ s.Still s' := by
  have hsize : s.events.size = o.event + 1 + (Draft.eventsOfList F).length := by
    have := congrArg List.length hg.events
    simp [Draft.eventsOfList, Draft.events] at this
    rw [ho.event, this]
    simp [Draft.before]
    omega
  by_cases h : s.events.size = o.event + 1
  · obtain rfl : F = [] := Draft.eq_nil_of_eventsOfList (List.length_eq_zero_iff.1 (by omega))
    refine ⟨(), { s with events := s.events.pop }, ?_, ⟨[], ⟨hg.before, { hg.coherent with }, ?_,
      hg.ahead, hg.depth, hg.diagnostics⟩, .inl rfl⟩, ⟨rfl, rfl⟩, rfl⟩
    · change Except.ok ((), if _ then _ else _) = _
      rw [if_pos h]
    · simp [hg.events, Draft.eventsOfList, Draft.events]
  · refine ⟨(), s, ?_, ⟨.blank :: F, hg, .inr rfl⟩, .refl s, rfl⟩
    change Except.ok ((), if _ then _ else _) = _
    rw [if_neg h]

theorem Ensures.abandon {o : Opening} (ho : Opens i s₀ o .blank)
    (w : Since gaps i c s₀ s [.blank] L) :
    Ensures (Parser.abandon o) i s fun _ s' => Reads gaps i c s₀ s' L ∧ s.Still s' := by
  obtain ⟨hs, hu, F, hg, hf, htied⟩ := w
  refine (Grows.abandon ho hg).mono fun _ s' ⟨⟨F', hg', hF'⟩, hstill⟩ => ⟨?_, hstill⟩
  have htrees : Draft.treesOfList F' = Draft.treesOfList F := by rcases hF' with rfl | rfl <;> rfl
  have htied' (h : gaps = false) : Draft.TiedInList F' := by
    rcases hF' with rfl | rfl
    · exact (htied h).2
    · exact ⟨trivial, (htied h).2⟩
  refine ⟨hstill.settled hs, hstill.used.trans_le hu, F', hg', fun hgaps => ?_,
    fun h => Draft.tiedBehind_nil (htied' h)⟩
  rw [List.nil_append, htrees]
  exact hf (hgaps.imp_left hstill.clean.1)

/-- What an array begins with is what it is cut back to. -/
theorem take_of_prefix {γ : Type} {a b : Array γ} (h : b.toList <+: a.toList) : a.take b.size = b := by
  obtain ⟨as⟩ := a
  obtain ⟨bs⟩ := b
  obtain ⟨cs, rfl⟩ := h
  simp

/-- **A node that is rolled back leaves nothing.** -/
theorem Grows.rollback {o : Opening} {F : List Draft} (ho : Opens i s₀ o .blank)
    (hg : Grows i s₀ s F) : Ensures (Parser.rollback o) i s fun _ s' => s' = s₀.refresh := by
  refine Ensures.modify ?_
  rw [ho.blank rfl]
  simp only [State.restore, State.snapshot, State.refresh, hg.depth, take_of_prefix ⟨_, hg.events.symm⟩,
    take_of_prefix hg.diagnostics]

end Parser

end LuaTree
