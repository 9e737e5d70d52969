import LuaTree.Proofs.Words

/-!
# Proofs/Consuming — what the words that consume tokens read

A token is consumed together with the unknown characters around it, so that the next token that is no
trivia is significant again.  The unknown characters stand in nodes of their own, which the grammar does
not see; wherever there is one, something is reported.
-/

namespace LuaTree

open Grammar Computability

/-- **Tokens ahead without trouble of their own**: no unknown characters, and every string is finished. -/
structure State.Tidy (s : State) : Prop where
  known : ∀ l ∈ s.ahead, l.1.kind ≠ .invalidChar
  closed : ∀ l ∈ s.ahead, Token.closesString? l.1.kind l.1.text.toList = some true

/-- Tokens stay tidy where nothing is consumed. -/
theorem State.Stays.tidy {s s' : State} (h : s.Stays s') (hs : s.Tidy) : s'.Tidy :=
  ⟨h.ahead ▸ hs.known, h.ahead ▸ hs.closed⟩

namespace Parser

variable {gaps : Bool} {i : Input} {c c' : Nat} {s s' s₀ : State} {ds F : List Draft}
  {L M : Language Tree} {α β : Type} {Q : β → State → Prop}

/-! ## One token -/

theorem mem_of_mem_ahead (hs : s.Coherent i) {l : Token × Nat} (h : l ∈ s.ahead) : l.1 ∈ i.tokens := by
  have hmem : ∀ {n : Nat} {ts : List Token}, l ∈ solidFrom n ts → l.1 ∈ ts := by
    intro n ts h
    induction ts generalizing n with
    | nil => simp [solidFrom] at h
    | cons t ts ih =>
      rw [solidFrom] at h
      split at h
      · exact List.mem_cons_of_mem _ (ih h)
      · rcases List.mem_cons.1 h with rfl | h
        · exact List.mem_cons_self
        · exact List.mem_cons_of_mem _ (ih h)
  exact List.mem_of_mem_drop (hs.rest ▸ hmem h)

theorem settled_of_tidy (h : s.Tidy) : s.Settled := fun l hl => h.known l (List.mem_of_head? hl)

/-- What lies ahead later lies ahead now. -/
theorem Grows.tidy (hg : Grows i s s' F) (h : s.Tidy) : s'.Tidy where
  known l hl := h.known l (hg.ahead ▸ List.mem_append_right _ hl)
  closed l hl := h.closed l (hg.ahead ▸ List.mem_append_right _ hl)

theorem Grows.leaf {t : Token} {index : Nat} {ts : List Token} (hs : s.Coherent i)
    (hts : i.tokens.drop index = t :: ts) (ha : s.ahead = solidFrom index (t :: ts))
    (ht : t.kind.isTrivia = false) : Grows i s (s.consume index ts) [.leaf index t] := by
  have hlt : index < i.tokens.length := by
    have := congrArg List.length hts
    simp at this
    omega
  refine ⟨hs, ⟨hs.input, ?_, hlt, hs.reported⟩, ?_, ?_, rfl, List.prefix_rfl⟩
  · rw [State.consume, ← List.drop_drop, hts, List.drop_one, List.tail_cons]
  · simp [State.consume, Draft.eventsOfList, Draft.events]
  · rw [ha, solidFrom, if_neg (by simp [ht])]
    rfl

/-! ## Unknown characters -/

/-- What the parser cannot read stands in a node that the grammar does not see. -/
theorem fits_error (hs : ¬ s.Clean) (ls : List (Token × Nat)) :
    Fits gaps s 1 [.grown (.node .error (Draft.row ls))] := by
  intro hgaps
  obtain rfl : gaps = true := hgaps.resolve_left hs
  refine ⟨⟨⟨?_, ?_⟩, trivial⟩, rfl⟩
  · rw [Draft.treesOfList_row]
    refine mem_kstar_of_forall fun t ht => ?_
    obtain ⟨l, -, rfl⟩ := List.mem_map.1 (List.mem_of_mem_filter ht)
    exact ⟨l.1.kind, by simp [KindSet.mem_iff_contains], l.1.text, rfl⟩
  · rw [Draft.treesOfList_row, Tree.everywhereInList_iff]
    intro t ht
    obtain ⟨l, -, rfl⟩ := List.mem_map.1 ht
    trivial

theorem tied_error (ls : List (Token × Nat)) : Draft.TiedInList [.grown (.node .error (Draft.row ls))] :=
  ⟨⟨by decide, Draft.tiedInList_row ls⟩, trivial⟩

/-- An unknown character stands in a node that is opened in front of it; what is left to do is to report it and to
close the node. -/
theorem Ensures.wrap {t : Token} {ts : List Token} {index : Nat} {Q : Unit → State → Prop} (hs : s.Coherent i)
    (hts : i.tokens.drop index = t :: ts) (ha : s.ahead = (t, index) :: solidFrom (index + 1) ts)
    (hunknown : t.kind = .invalidChar)
    (hf : ∀ s₁, s₁ = { s with events := s.events.push .blank }.consume index ts →
      Grows i s s₁ [.blank, .leaf index t] → Ensures (do
        Parser.report ⟨.unexpectedCharacter, ← Parser.spanSince s.snapshot, none, []⟩
        let _ ← Parser.complete ⟨s.events.size, s.snapshot⟩ .error
        wrapUnknownFrom (index + 1) ts) i s₁ Q) :
    Ensures (wrapUnknownFrom index (t :: ts)) i s Q := by
  have hsolid : t.kind.isTrivia = false := by rw [hunknown]; rfl
  have hleaf : Grows i { s with events := s.events.push .blank }
      ({ s with events := s.events.push .blank }.consume index ts) [.leaf index t] :=
    .leaf (Grows.blank hs).coherent hts (by rw [solidFrom, if_neg (by simp [hsolid])]; exact ha) hsolid
  rw [wrapUnknownFrom, if_neg (by simp [hsolid]), if_pos hunknown]
  refine Ensures.bind (Q := fun o s' => o = ⟨s.events.size, s.snapshot⟩ ∧
    s' = { s with events := s.events.push .blank }) ⟨_, _, rfl, rfl, rfl⟩ ?_
  rintro _ _ ⟨rfl, rfl⟩
  exact .modifying (.modifying (hf _ rfl ((Grows.blank hs).trans hleaf)))

theorem wrapUnknownFrom_reads : ∀ (ts : List Token) {index : Nat} {s : State}, s.Coherent i →
    i.tokens.drop index = ts → s.ahead = solidFrom index ts →
    Ensures (wrapUnknownFrom index ts) i s fun _ s' => Reads gaps i s.used s s' 1 ∧
      s'.significant = s.significant ∧ (s.Settled → s' = s)
  | [], index, s, hs, hts, ha => by
    refine .pure ⟨.refl { hs with settled := ?_ } (Nat.le_refl _), rfl, fun _ => rfl⟩
    simp [State.Settled, ha, solidFrom]
  | t :: ts, index, s, hs, hts, ha => by
    have hdrop : i.tokens.drop (index + 1) = ts := by
      rw [← List.drop_drop, hts, List.drop_one, List.tail_cons]
    by_cases htrivia : t.kind.isTrivia = true
    · rw [wrapUnknownFrom, if_pos htrivia]
      exact wrapUnknownFrom_reads ts hs hdrop (by rw [ha, solidFrom, if_pos htrivia])
    rw [solidFrom, if_neg htrivia] at ha
    by_cases hunknown : t.kind = .invalidChar
    swap
    · rw [wrapUnknownFrom, if_neg htrivia, if_neg hunknown]
      refine .pure ⟨.refl { hs with settled := ?_ } (Nat.le_refl _), rfl, fun _ => rfl⟩
      simp [State.Settled, ha, hunknown]
    refine .wrap hs hts ha hunknown ?_
    intro s₁ hs₁ hg₁
    refine .spanSince hg₁.coherent (opens_start hs).snapshot fun span => ?_
    refine (Ensures.report hg₁.coherent).bind ?_
    rintro _ s₂ ⟨hg₂, hdirty, hstays⟩
    refine (Grows.complete (opens_start hs) (hg₁.trans hg₂)).bind ?_
    rintro x s₃ ⟨⟨hg₃, -⟩, hstill⟩
    have ha₃ : s₃.ahead = solidFrom (index + 1) ts := by
      rw [hstill.ahead, hstays.ahead, hs₁]
      rfl
    have hused : s₃.used = s.used := by
      rw [hstill.used, hstays.used, hs₁]
      rfl
    refine (wrapUnknownFrom_reads ts hg₃.coherent hdrop ha₃).mono ?_
    rintro _ s' ⟨hr, hsig, -⟩
    refine ⟨?_, ?_, fun h => absurd hunknown (h (t, index) (by simp [ha]))⟩
    · have hdirty₃ : ¬ s₃.Clean := fun h => hdirty (hstill.clean.1 h)
      simpa [hused] using Since.after hg₃ (fits_error hdirty₃ [(t, index)]) (tied_error [(t, index)]) hr
    · rw [hsig, State.significant_eq, State.significant_eq, ha₃, ha]
      simp [Token.isSignificant, Kind.isSignificant, hunknown]

theorem wrapUnknown_reads (gaps : Bool) (hs : s.Coherent i) : Ensures wrapUnknown i s fun _ s' =>
    Reads gaps i s.used s s' 1 ∧ s'.significant = s.significant ∧ (s.Settled → s' = s) :=
  .get (wrapUnknownFrom_reads s.rest hs hs.rest.symm rfl)

theorem wrapUnknown_settled (hs : s.Sound i) : Ensures wrapUnknown i s fun _ s' => s' = s :=
  (wrapUnknown_reads true hs.toCoherent).mono fun _ _ h => h.2.2 hs.settled

/-! ## Consuming a token -/

/-- A string without its closing mark is reported; every token has the text to tell. -/
theorem reportUnfinished_reads {t : Token} (hs : s.Coherent i) (ht : t.text ≠ "") :
    Ensures (reportUnfinished t) i s fun _ s' => Grows i s s' [] ∧ s.Stays s' ∧
      (Token.closesString? t.kind t.text.toList = some true → s' = s) := by
  rw [reportUnfinished]
  split
  swap
  · exact .pure ⟨.refl hs, .refl s, fun _ => rfl⟩
  split
  · exact .pure ⟨.refl hs, .refl s, fun _ => rfl⟩
  · rename_i h
    refine (Ensures.report hs).mono fun _ s' ⟨hg, _, hstays⟩ => ⟨hg, hstays, fun h' => ?_⟩
    rw [h] at h'
    simp at h'
  · rename_i h
    -- only the empty text has no opening quote
    have hne : t.text.toList ≠ [] := by simpa using ht
    obtain ⟨q, cs, hq⟩ := List.exists_cons_of_ne_nil hne
    rw [hq, Token.closesString?] at h
    split at h
    · simp at h
    · split at h <;> simp at h

/-- In front of the next significant token stands only trivia. -/
theorem eq_append_of_significant {t : Token} {ts : List Token} (hs : s.Sound i)
    (h : s.significant = t :: ts) : ∃ trivia us, s.rest = trivia ++ t :: us ∧
      (∀ u ∈ trivia, u.kind.isTrivia) ∧ t.isSignificant ∧ us.filter Token.isSignificant = ts ∧
      s.ahead = (t, s.position + trivia.length) :: solidFrom (s.position + trivia.length + 1) us := by
  obtain ⟨l, R, hl⟩ : ∃ l R, s.ahead = l :: R := by
    refine List.exists_cons_of_ne_nil fun hnil => ?_
    rw [s.significant_eq, hnil] at h
    simp at h
  obtain ⟨trivia, us, hrest, htrivia, hsolid, hindex, hR⟩ := eq_append_of_solidFrom hl
  have hknown : l.1.kind ≠ .invalidChar := hs.settled l (by simp [hl])
  have hsig : l.1.isSignificant = true := by
    simp [Token.isSignificant, Kind.isSignificant, hsolid, hknown]
  obtain ⟨rfl, rfl⟩ : l.1 = t ∧ us.filter Token.isSignificant = ts := by
    rw [State.significant, hrest, List.filter_append, List.filter_eq_nil_iff.2 ?_, List.nil_append,
      List.filter_cons_of_pos hsig] at h
    · simpa using h
    · exact fun u hu => by simp [Token.isSignificant, Kind.isSignificant, htrivia u hu]
  refine ⟨trivia, us, hrest, htrivia, hsig, rfl, ?_⟩
  rw [hl, ← hindex, hR]

/-- **The next significant token is consumed.** -/
theorem bump_reads (gaps : Bool) {t : Token} {ts : List Token} (hs : s.Sound i) (h : s.significant = t :: ts) :
    Ensures bump i s fun _ s' => Reads gaps i 0 s s' {[t.tree]} ∧ s'.significant = ts ∧
      (s.Tidy → (∃ index, Grows i s s' [.leaf index t]) ∧ s'.diagnostics = s.diagnostics) := by
  obtain ⟨trivia, us, hrest, htrivia, hsig, hus, ha⟩ := eq_append_of_significant hs h
  have hskip : ∀ u ∈ trivia, (!u.isSignificant) = true := fun u hu => by
    simp [Token.isSignificant, Kind.isSignificant, htrivia u hu]
  have hdropWhile : s.rest.dropWhile (fun u => !u.isSignificant) = t :: us := by
    rw [hrest, List.dropWhile_append_of_pos hskip, List.dropWhile_cons_of_neg (by simp [hsig])]
  have htakeWhile : s.rest.takeWhile (fun u => !u.isSignificant) = trivia := by
    rw [hrest, List.takeWhile_append_of_pos hskip, List.takeWhile_cons_of_neg (by simp [hsig]),
      List.append_nil]
  have hsolid : t.kind.isTrivia = false := by
    simp only [Token.isSignificant, Kind.isSignificant, Bool.and_eq_true, Bool.not_eq_true'] at hsig
    exact hsig.1
  have hdrop : i.tokens.drop (s.position + trivia.length) = t :: us := by
    rw [← List.drop_drop, ← hs.rest, hrest, List.drop_left]
  have hmem : t ∈ i.tokens := List.mem_of_mem_drop (hdrop ▸ List.mem_cons_self)
  have hleaf : Grows i s _ [.leaf (s.position + trivia.length) t] :=
    .leaf hs.toCoherent hdrop (by rw [ha, solidFrom, if_neg (by simp [hsolid])]) hsolid
  have hfits : ∀ s', Fits gaps s' {[t.tree]} [.leaf (s.position + trivia.length) t] :=
    fun _ _ => ⟨⟨trivial, trivial⟩, rfl⟩
  refine (wrapUnknown_settled hs).bind fun _ s₀ hs₀ => .get ?_
  rw [hs₀, hdropWhile, htakeWhile]
  refine .setting ?_
  let s₁ := State.refresh (s.consume (s.position + trivia.length) us)
  change Ensures _ i s₁ _
  have hg₁ : Grows i s s₁ [.leaf (s.position + trivia.length) t] := hleaf.refresh
  refine (reportUnfinished_reads hg₁.coherent (hs.input.filled t hmem)).bind ?_
  rintro _ s₂ ⟨hg₂, hstays, hquiet⟩
  refine (wrapUnknown_reads gaps hg₂.coherent).mono ?_
  rintro _ s' ⟨hr, hsig', hstill⟩
  have hused : s₂.used = 0 := hstays.used.trans (State.used_refresh _)
  refine ⟨?_, ?_, fun htidy => ?_⟩
  · simpa [hused] using Since.after (hg₁.trans hg₂) (by simpa using hfits s₂) ⟨trivial, trivial⟩ hr
  · rw [hsig', hstays.significant, ← hus]
    rfl
  · rw [hstill (settled_of_tidy ((hg₁.trans hg₂).tidy htidy)),
      hquiet (htidy.closed (t, _) (ha ▸ List.mem_cons_self))]
    exact ⟨⟨_, hg₁⟩, rfl⟩

theorem significant_of_next_ne (h : s.next ≠ .error) :
    ∃ t ts, s.significant = t :: ts ∧ s.next = t.kind := by
  obtain ⟨t, ts, hts⟩ : ∃ t ts, s.significant = t :: ts := by
    refine List.exists_cons_of_ne_nil fun hnil => h ?_
    rw [State.next, hnil]
    rfl
  exact ⟨t, ts, hts, by rw [State.next, hts]; rfl⟩

theorem Since.bump {f : Unit → Parser β} {k : Kind} (w : Since gaps i c s₀ s ds L) (hk : s.next = k)
    (hne : k ≠ .error) (hf : ∀ s', Since gaps i 0 s₀ s' ds (L * token k) →
      s'.remaining < s.remaining → s'.significant = s.significant.tail → Ensures (f ()) i s' Q) :
    Ensures (Parser.bump >>= f) i s Q := by
  obtain ⟨t, ts, hts, hnext⟩ := significant_of_next_ne (hk ▸ hne)
  refine Ensures.bind (bump_reads gaps w.sound hts) fun _ s' ⟨hr, hsig, _⟩ => hf s' ?_ ?_ (by rw [hsig, hts]; rfl)
  · refine w.trans (hr.mono (Nat.le_refl 0) fun _ => ?_)
    rintro _ rfl
    exact ⟨t.text, by rw [← hk, hnext]; rfl⟩
  · rw [State.remaining, State.remaining, hsig, hts]
    exact Nat.lt_succ_self _

/-- A node that begins with a token. -/
theorem Since.begin {f : Opening → Parser β} {k : Kind}
    (w : Reads gaps i c s s 1) (hnext : s.next = k) (hne : k ≠ .error)
    (hf : ∀ o s', Opens i s o .blank → Since gaps i 0 s s' [.blank] (token k) →
      s'.remaining < s.remaining → Ensures (f o) i s' Q) :
    Ensures (Parser.start >>= fun o => Parser.bump >>= fun _ => f o) i s Q := by
  refine w.start fun o s₁ ho w hstill => ?_
  refine w.bump (hstill.next.trans hnext) hne fun s₂ w hlt _ => ?_
  exact hf o s₂ ho (one_mul (token k) ▸ w) (hlt.trans_eq hstill.remaining)

/-- A node that begins with a token to which a note will point. -/
theorem Since.beginNoted {f : Opening → Span → Parser β} {k : Kind}
    (w : Reads gaps i c s s 1) (hnext : s.next = k) (hne : k ≠ .error)
    (hf : ∀ o span s', Opens i s o .blank → Since gaps i 0 s s' [.blank] (token k) →
      s'.remaining < s.remaining → Ensures (f o span) i s' Q) :
    Ensures (Parser.start >>= fun o => currentSpan >>= fun span => Parser.bump >>= fun _ => f o span) i s Q := by
  refine w.start fun o s₁ ho w hstill => .currentSpan w.sound.toCoherent fun span _ => ?_
  refine w.bump (hstill.next.trans hnext) hne fun s₂ w hlt _ => ?_
  exact hf o span s₂ ho (one_mul (token k) ▸ w) (hlt.trans_eq hstill.remaining)

theorem Since.eat {f : Bool → Parser β} {k : Kind} (w : Since gaps i c s₀ s ds L)
    (hc : c < State.maxLooks) (hne : k ≠ .error)
    (yes : ∀ s', s.next = k → Since gaps i 0 s₀ s' ds (L * token k) → s'.remaining < s.remaining →
      Ensures (f true) i s' Q)
    (no : s.next ≠ k → Since gaps i (c + 1) s₀ s.look ds L → Ensures (f false) i s.look Q) :
    Ensures (Parser.eat k >>= f) i s Q := by
  refine .assoc (w.isAt hc (fun hk w => ?_) fun hk w => ?_)
  · exact .assoc (w.bump hk hne fun s' w hlt _ => yes s' hk w hlt)
  · exact no hk w

/-- **A token that is missing is reported.** -/
theorem Since.expectOr {f : Bool → Parser β} {k : Kind} (w : Since gaps i c s₀ s ds L)
    (hc : c < State.maxLooks) (hne : k ≠ .error)
    (yes : ∀ s', s.next = k → Since gaps i 0 s₀ s' ds (L * token k) → s'.remaining < s.remaining →
      Ensures (f true) i s' Q)
    (no : ∀ s', s.next ≠ k → Since gaps i (c + 1) s₀ s' ds L → s'.remaining = s.remaining →
      ¬ s'.Clean → Ensures (f false) i s' Q) : Ensures (Parser.expect k >>= f) i s Q := by
  refine .assoc (w.eat hc hne (fun s' hk w hlt => yes s' hk w hlt) fun hk w => ?_)
  exact .assoc (w.problem fun s' w hdirty hstays => no s' hk w hstays.remaining hdirty)

/-- A piece that consists of one token. -/
theorem Since.expect {f : Bool → Parser β} {k : Kind} (w : Since gaps i c s₀ s ds L)
    (hc : c < State.maxLooks) (hne : k ≠ .error)
    (hf : ∀ b s', Since gaps i (c + 1) s₀ s' ds (L * hole gaps (token k)) →
      s'.remaining ≤ s.remaining → Ensures (f b) i s' Q) : Ensures (Parser.expect k >>= f) i s Q := by
  refine w.expectOr hc hne (fun s' _ w hlt => ?_) fun s' _ w heq hdirty => ?_
  · exact hf true s' (w.present.weaken (Nat.zero_le _)) hlt.le
  · exact hf false s' (w.missing hdirty) heq.le

/-- Where another token stands, the report is certain. -/
theorem Since.unmet {f : Bool → Parser β} {k : Kind} (w : Since gaps i c s₀ s ds L)
    (hc : c < State.maxLooks) (hne : k ≠ .error) (hk : s.next ≠ k)
    (hf : ∀ s', Since gaps i (c + 1) s₀ s' ds L → s'.remaining = s.remaining → ¬ s'.Clean →
      Ensures (f false) i s' Q) : Ensures (Parser.expect k >>= f) i s Q :=
  w.expectOr hc hne (fun _ hk' _ _ => absurd hk' hk) fun s' _ => hf s'

theorem Since.expectClosingOr {f : Bool → Parser β} {k : Kind} {note : String} {span : Span}
    (w : Since gaps i c s₀ s ds L) (hc : c < State.maxLooks) (hne : k ≠ .error)
    (yes : ∀ s', s.next = k → Since gaps i 0 s₀ s' ds (L * token k) → s'.remaining < s.remaining →
      Ensures (f true) i s' Q)
    (no : ∀ s', s.next ≠ k → Since gaps i (c + 1) s₀ s' ds L → s'.remaining = s.remaining →
      ¬ s'.Clean → Ensures (f false) i s' Q) :
    Ensures (Parser.expectClosing k note span >>= f) i s Q := by
  refine .assoc (w.eat hc hne (fun s' hk w hlt => yes s' hk w hlt) fun hk w => .assoc ?_)
  refine .currentSpan w.sound.toCoherent fun _ _ => .assoc (w.report fun s' w hdirty hstays => ?_)
  exact no s' hk w hstays.remaining hdirty

theorem Since.expectClosing {f : Bool → Parser β} {k : Kind} {note : String} {span : Span}
    (w : Since gaps i c s₀ s ds L) (hc : c < State.maxLooks) (hne : k ≠ .error)
    (hf : ∀ b s', Since gaps i (c + 1) s₀ s' ds (L * hole gaps (token k)) →
      s'.remaining ≤ s.remaining → Ensures (f b) i s' Q) :
    Ensures (Parser.expectClosing k note span >>= f) i s Q := by
  refine w.expectClosingOr hc hne (fun s' _ w hlt => ?_) fun s' _ w heq hdirty => ?_
  · exact hf true s' (w.present.weaken (Nat.zero_le _)) hlt.le
  · exact hf false s' (w.missing hdirty) heq.le

/-! ## Nesting -/

theorem filterMap_zipIdx_eq (n : Nat) (ts : List Token) :
    (ts.zipIdx n).filterMap (fun (t, i) => if t.kind.isTrivia then none else some (Event.token i)) =
      (solidFrom n ts).map fun l => .token l.2 := by
  induction ts generalizing n with
  | nil => rfl
  | cons t ts ih =>
    rw [List.zipIdx_cons, List.filterMap_cons, solidFrom]
    by_cases ht : t.kind.isTrivia <;> simp [ht, ih]

/-- The state after all that is left has gone into one node, with a diagnostic for it. -/
def bailed (s : State) (d : Diagnostic) : State :=
  let leaves := (s.rest.zipIdx s.position).filterMap fun (t, i) =>
    if t.kind.isTrivia then none else some (Event.token i)
  { s with
    position := s.position + s.rest.length
    rest := []
    events := (s.events.push (.opening .error none) ++ leaves).push .closing
    diagnostics := s.diagnostics.push d
    lastReported := some d.span.start
    limitReached := true }

theorem ahead_bailed (s : State) (d : Diagnostic) : (bailed s d).ahead = [] := rfl

theorem not_clean_bailed (s : State) (d : Diagnostic) : ¬ (bailed s d).Clean := by
  simp [State.Clean, bailed]

theorem Grows.bailed (hs : s.Coherent i) (d : Diagnostic) :
    Grows i s (bailed s d) [.grown (.node .error (Draft.row s.ahead))] := by
  have hposition : s.position + s.rest.length = i.tokens.length := by
    rw [hs.rest, List.length_drop, Nat.add_sub_of_le hs.position_le]
  refine ⟨hs, ⟨hs.input, ?_, ?_, fun h => absurd h (not_clean_bailed s d)⟩, ?_, ?_, rfl, ?_⟩
  · simp [Parser.bailed, hposition]
  · simp [Parser.bailed, hposition]
  · simp [Parser.bailed, filterMap_zipIdx_eq, Draft.eventsOfList, Draft.events, Branch.events, State.ahead]
  · simp [ahead_bailed, Draft.leavesOfList, Draft.leaves, Branch.leaves]
  · simp [Parser.bailed]

/-- **When the nesting limit is reached, all that is left goes into one node.** -/
theorem bailOut_reads (gaps : Bool) {limit : Nat} (hs : s.Sound i) (hc : s.used ≤ c) :
    Ensures (bailOut limit) i s fun _ s' => Reads gaps i c s s' 1 ∧ ¬ s'.Clean := by
  refine .get ?_
  by_cases hlimit : s.limitReached
  · rw [if_pos hlimit]
    refine .pure ⟨.refl hs hc, fun hclean => ?_⟩
    simp [(hs.reported hclean).2] at hlimit
  rw [if_neg hlimit]
  refine .currentSpan hs.toCoherent fun span hspan => .read ?_
  rw [spanBetween, Span.between?, dif_pos hspan]
  refine Ensures.bind (Q := fun _ s' => s' = s) ⟨_, _, rfl, rfl⟩ fun span s₀ hs₀ => .modify ?_
  rw [hs₀]
  change Reads gaps i c s (bailed s ⟨.recursionLimitExceeded, span, some limit.repr, []⟩) 1 ∧ _
  have hdirty := not_clean_bailed s ⟨.recursionLimitExceeded, span, some limit.repr, []⟩
  exact ⟨⟨by simp [State.Settled, ahead_bailed], hc, _, .bailed hs.toCoherent _, fits_error hdirty s.ahead,
    fun _ => Draft.tiedBehind_nil (tied_error s.ahead)⟩, hdirty⟩

/-- **A counted production** is run one level deeper, or everything that is left is put aside. -/
theorem nested_ensures {p : Parser (Option Closed)} {Q : Option Closed → State → Prop}
    (hs : s.Sound i) (hc : s.used ≤ c)
    (hbail : ∀ s', Reads gaps i c s s' 1 → ¬ s'.Clean → Q none s')
    (hp : Ensures p i s.deeper fun a s' => Q a s'.upper) : Ensures (nested p) i s Q := by
  have hbody : Ensures (do
      modify fun s' => { s' with depth := s.depth + 1, looks := State.maxLooks }
      let result ← p
      modify fun s' => { s' with depth := s'.depth - 1, looks := State.maxLooks }
      return result) i s Q :=
    .modifying (hp.bind fun a s' hQ => .modifying (.pure hQ))
  refine .get (.read ?_)
  cases i.settings.limit with
  | none => exact hbody
  | some limit =>
    dsimp only
    split
    · exact (bailOut_reads gaps hs hc).bind fun _ s' ⟨hr, hdirty⟩ => .pure (hbail s' hr hdirty)
    · exact hbody

/-- What a counted production does: either the limit is reached, or it is run one level deeper. -/
theorem nested_yields {p : Parser (Option Closed)} : Yields (nested p) i s fun c s' =>
    (∃ k ∈ i.settings.limit, k ≤ s.depth ∧ bailOut k i s = .ok ((), s') ∧ c = none) ∨
    ((∀ k ∈ i.settings.limit, s.depth < k) ∧ ∃ t, p i s.deeper = .ok (c, t) ∧ s' = t.upper) := by
  have hbody (hlimit : ∀ k ∈ i.settings.limit, s.depth < k) : Yields (do
      modify fun s' => { s' with depth := s.depth + 1, looks := State.maxLooks }
      let result ← p
      modify fun s' => { s' with depth := s'.depth - 1, looks := State.maxLooks }
      return result) i s fun c s' => (∃ k ∈ i.settings.limit, k ≤ s.depth ∧
        bailOut k i s = .ok ((), s') ∧ c = none) ∨
      ((∀ k ∈ i.settings.limit, s.depth < k) ∧ ∃ t, p i s.deeper = .ok (c, t) ∧ s' = t.upper) := by
    refine .modifying (Yields.bind (Q := fun c t => p i s.deeper = .ok (c, t)) (fun _ _ h => h) ?_)
    exact fun c t h => .modifying (.pure (.inr ⟨hlimit, t, h, rfl⟩))
  refine .get (.read ?_)
  split
  · rename_i limit hsettings
    split
    · rename_i hlimit
      refine Yields.bind (Q := fun _ s' => bailOut limit i s = .ok ((), s')) (fun _ _ h => h) ?_
      exact fun _ s' h => .pure (.inl ⟨limit, hsettings, hlimit, h, rfl⟩)
    · rename_i hlimit
      exact hbody (by simpa [hsettings] using hlimit)
  · rename_i hsettings
    exact hbody (by simp [hsettings])

/-- Without a nesting limit a counted production is run one level deeper. -/
theorem Yields.nested {p : Parser (Option Closed)} {Q : Option Closed → State → Prop}
    (hlimit : i.settings.limit = none) (hp : Yields p i s.deeper Q) :
    Yields (Parser.nested p) i s fun a s' => ∃ t, Q a t ∧ s' = t.upper :=
  nested_yields.mono fun a s' h => by
    rcases h with ⟨k, hk, -⟩ | ⟨-, t, hrun, rfl⟩
    · exact absurd hk (by simp [hlimit])
    · exact ⟨t, hp a t hrun, rfl⟩

theorem Grows.deeper {F : List Draft} (h : Grows i s s' F) : Grows i s.deeper s'.deeper F := by
  refine ⟨{ h.before with }, { h.coherent with }, h.events, h.ahead, ?_, h.diagnostics⟩
  simp [State.deeper, h.depth]

theorem Grows.upper {F : List Draft} (hs : s.Coherent i) (h : Grows i s.deeper s' F) :
    Grows i s s'.upper F := by
  refine ⟨hs, { h.coherent with }, h.events, h.ahead, ?_, h.diagnostics⟩
  simp [State.upper, h.depth, State.deeper]

theorem Since.upper (hs : s.Coherent i) (h : Since gaps i c s.deeper s' ds L) :
    Since gaps i 0 s s'.upper ds L :=
  let ⟨hsettled, _, _, hg, hf⟩ := h
  ⟨hsettled, by simp [State.used, State.upper], _, hg.upper hs, hf⟩

theorem Closes.deeper {x : Closed} (h : Closes gaps i c s₀ s x L) :
    Closes gaps i 0 s₀.deeper s.deeper x L := by
  obtain ⟨hsettled, -, hx, b, hg, hf, hb⟩ := h
  exact ⟨hsettled, by simp [State.used, State.deeper], hx, b, hg.deeper, hf, hb⟩

theorem nested_reads {m : Nat} {p : Parser (Option Closed)} {L : Option Closed → Language Tree}
    {R : Option Closed → State → Prop} (hL : 1 ≤ L none) (hR : ∀ s', ¬ s'.Clean → R none s')
    (hup : ∀ a s', R a s' → R a s'.upper) (hp : Recognizes gaps i 0 m p s.deeper L R) :
    Recognizes gaps i c c (nested p) s L R := by
  intro hs hc
  refine nested_ensures hs hc (fun s' hr hdirty => ⟨hr.mono (Nat.le_refl c) fun _ => hL, hR s' hdirty⟩) ?_
  have hs₁ : s.deeper.Sound i := { hs with }
  refine (hp hs₁ (by simp [State.used, State.deeper])).mono fun a s' ⟨hr, hR'⟩ => ⟨?_, hup a s' hR'⟩
  exact (hr.upper hs.toCoherent).weaken (Nat.zero_le c)

/-! ## Repeating -/

/-- What a round owes: a piece and progress if another one follows, or the end. -/
def RoundReads (gaps : Bool) (i : Input) (c c' : Nat) (s : State) (L M : Language Tree) :
    Round Unit Unit → State → Prop
  | .again _, s' => Reads gaps i c s s' L ∧ s'.remaining < s.remaining
  | .done _, s' => Reads gaps i c' s s' M

/-- **A loop reads the pieces of its rounds**, one after the other, and what the last round reads. -/
theorem loop_reads {round : Parser (Round Unit Unit)} {n : Nat} (hn : s.remaining ≤ n)
    (hround : ∀ s : State, s.remaining ≤ n → Reads gaps i c s s 1 →
      Ensures round i s (RoundReads gaps i c c' s L M)) :
    Recognizes gaps i c c' (loop () fun _ => round) s (fun _ => L∗ * M) fun _ _ => True := by
  intro hs hc
  have hbound : s.remaining < i.bound :=
    (State.remaining_le_length hs.toCoherent).trans_lt hs.input.bound
  refine Ensures.loop (m := State.remaining) (I := fun _ s₁ => Reads gaps i c s s₁ L∗)
    ((Since.refl hs hc).mono (Nat.le_refl c) fun _ => one_le_kstar) hbound fun _ s₁ w => ?_
  refine (hround s₁ (w.remaining_le.trans hn) w.restart).mono ?_
  rintro (_ | _) s' hr
  · exact ⟨(w.trans hr.1).mono (Nat.le_refl c) fun _ => kstar_mul_le_kstar, hr.2⟩
  · exact ⟨w.trans hr, trivial⟩

end Parser

end LuaTree
