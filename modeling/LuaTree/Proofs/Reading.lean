import LuaTree.Proofs.Draft
import LuaTree.Proofs.Inclusion
import LuaTree.Proofs.Run

/-!
# Proofs/Reading — what the parser has read between two moments

A production is described by the states before and after it.  `Reads gaps i c s s' L` says that between
`s` and `s'` the events of some drafts were recorded, that the drafts hold the tokens consumed in
between, that at most `c` looks are used up in `s'`, and that the trees of the drafts are a row of `L`
in which every node conforms to the grammar — with gaps, or without if nothing has been reported up to
`s'`.  `Since` says the same of the time since a node was opened, and `Closes` of one finished node.

So a production is read off its text: `Since.step` appends what a part of it reads, and the language
that has been collected in this way is compared with the production at the closing.
-/

namespace LuaTree

open Grammar

/-- **Tokens that are pieces of a source**, in order, within its size, and fewer than the bound. -/
structure Input.Sound (i : Input) : Prop where
  kinds : ∀ t ∈ i.tokens, t.kind.isToken
  filled : ∀ t ∈ i.tokens, t.text ≠ ""
  ordered : i.tokens.Pairwise fun t u => t.stop ≤ u.start
  within : ∀ t ∈ i.tokens, t.stop ≤ i.size
  bound : i.tokens.length < i.bound

namespace State

/-- The coming tokens that the grammar sees. -/
def significant (s : State) : List Token := s.rest.filter Token.isSignificant

/-- The kind of the next of them; `error` stands for the end of the input. -/
def next (s : State) : Kind := s.significant.head?.elim .error Token.kind

/-- How many of them there are. -/
def remaining (s : State) : Nat := s.significant.length

/-- The coming tokens that are no trivia, with their numbers. -/
def ahead (s : State) : List (Token × Nat) := solidFrom s.position s.rest

/-- Nothing has been reported. -/
def Clean (s : State) : Prop := s.diagnostics = #[]

/-- No unknown character stands in front of the next significant token. -/
def Settled (s : State) : Prop := ∀ l ∈ s.ahead.head?, l.1.kind ≠ .invalidChar

/-- The state after one more look. -/
def look (s : State) : State := { s with looks := s.looks - 1 }

/-- The state with all looks allowed again. -/
def refresh (s : State) : State := { s with looks := maxLooks }

/-- The state one level deeper, with all looks allowed. -/
def deeper (s : State) : State := { s with depth := s.depth + 1, looks := maxLooks }

/-- The state one level up, with all looks allowed. -/
def upper (s : State) : State := { s with depth := s.depth - 1, looks := maxLooks }

/-- The state after the token with a number has been recorded, with `ts` behind it. -/
def consume (s : State) (index : Nat) (ts : List Token) : State :=
  { s with position := index + 1, rest := ts, events := s.events.push (.token index) }

/-- How many looks have been used up since all of them were allowed. -/
def used (s : State) : Nat := maxLooks - s.looks

@[simp] theorem used_refresh (s : State) : s.refresh.used = 0 := Nat.sub_self _

@[simp] theorem significant_look (s : State) : s.look.significant = s.significant := rfl
@[simp] theorem next_look (s : State) : s.look.next = s.next := rfl
@[simp] theorem remaining_look (s : State) : s.look.remaining = s.remaining := rfl

/-- **What holds in every state of a parse**: the rest is the rest, and a mark that something was
reported or given up is backed by a diagnostic. -/
structure Coherent (i : Input) (s : State) : Prop where
  input : i.Sound
  rest : s.rest = i.tokens.drop s.position
  position_le : s.position ≤ i.tokens.length
  reported : s.Clean → s.lastReported = none ∧ s.limitReached = false

/-- A coherent state in front of a significant token or of the end. -/
structure Sound (i : Input) (s : State) : Prop extends s.Coherent i where
  settled : s.Settled

/-- The significant tokens are those ahead that are no unknown characters. -/
theorem significant_eq (s : State) :
    s.significant = (s.ahead.map Prod.fst).filter Token.isSignificant := by
  have h : ∀ (n : Nat) (ts : List Token), ts.filter Token.isSignificant =
      ((solidFrom n ts).map Prod.fst).filter Token.isSignificant := by
    intro n ts
    induction ts generalizing n with
    | nil => rfl
    | cons t ts ih =>
      rw [solidFrom]
      by_cases ht : t.kind.isTrivia = true
      · rw [if_pos ht, ← ih, List.filter_cons_of_neg]
        simp [Token.isSignificant, Kind.isSignificant, ht]
      · rw [if_neg ht, List.map_cons, List.filter_cons, List.filter_cons, ← ih]
  exact h s.position s.rest

/-- Nothing was consumed and no look used. -/
structure Stays (s s' : State) : Prop where
  ahead : s'.ahead = s.ahead
  looks : s'.looks = s.looks

namespace Stays

variable {s s' s₁ : State}

theorem refl (s : State) : s.Stays s := ⟨rfl, rfl⟩

theorem significant (h : s.Stays s') : s'.significant = s.significant := by
  rw [significant_eq, significant_eq, h.ahead]

theorem next (h : s.Stays s') : s'.next = s.next := by rw [State.next, State.next, h.significant]

theorem remaining (h : s.Stays s') : s'.remaining = s.remaining := by
  rw [State.remaining, State.remaining, h.significant]

theorem used (h : s.Stays s') : s'.used = s.used := by rw [State.used, State.used, h.looks]

theorem settled (h : s.Stays s') (hs : s.Settled) : s'.Settled := by rwa [Settled, h.ahead]

end Stays

/-- Nothing was consumed or reported, and no look used. -/
structure Still (s s' : State) : Prop extends Stays s s' where
  diagnostics : s'.diagnostics = s.diagnostics

theorem Still.clean {s s' : State} (h : s.Still s') : s'.Clean ↔ s.Clean := by
  rw [Clean, Clean, h.diagnostics]

theorem remaining_le_length {i : Input} {s : State} (h : s.Coherent i) :
    s.remaining ≤ i.tokens.length := by
  have h₁ : s.remaining ≤ s.rest.length := List.length_filter_le ..
  have h₂ : s.rest.length ≤ i.tokens.length := by
    rw [h.rest, List.length_drop]
    omega
  omega

end State

namespace Parser

variable {gaps : Bool} {i : Input} {c c' c₁ c₂ : Nat} {s s' s₀ s₁ s₂ : State} {F F' : List Draft}
  {L L' M : Language Tree} {α β : Type}

/-- **The drafts that were recorded between two states.** -/
structure Grows (i : Input) (s s' : State) (F : List Draft) : Prop where
  before : s.Coherent i
  coherent : s'.Coherent i
  events : s'.events.toList = s.events.toList ++ Draft.eventsOfList F
  ahead : s.ahead = Draft.leavesOfList F ++ s'.ahead
  depth : s'.depth = s.depth
  diagnostics : s.diagnostics.toList <+: s'.diagnostics.toList

namespace Grows

theorem refl (h : s.Coherent i) : Grows i s s [] :=
  ⟨h, h, by simp [Draft.eventsOfList], rfl, rfl, List.prefix_rfl⟩

theorem trans (h₁ : Grows i s s₁ F) (h₂ : Grows i s₁ s₂ F') : Grows i s s₂ (F ++ F') where
  before := h₁.before
  coherent := h₂.coherent
  events := by rw [h₂.events, h₁.events, Draft.eventsOfList_append, List.append_assoc]
  ahead := by rw [h₁.ahead, h₂.ahead, Draft.leavesOfList_append, List.append_assoc]
  depth := h₂.depth.trans h₁.depth
  diagnostics := h₁.diagnostics.trans h₂.diagnostics

theorem refresh (h : Grows i s s' F) : Grows i s s'.refresh F :=
  { h with coherent := { h.coherent with } }

/-- A look does not belong to what is recorded after it. -/
theorem of_look (hs : s.Sound i) (h : Grows i s.look s' F) : Grows i s s' F :=
  { h with before := hs.toCoherent }

theorem clean_of_clean (h : Grows i s s' F) (hs : s'.Clean) : s.Clean := by
  obtain ⟨ds, hds⟩ := h.diagnostics
  rw [State.Clean] at hs
  rw [hs, Array.toList_empty, List.append_eq_nil_iff] at hds
  exact Array.toList_eq_nil_iff.1 hds.1

theorem remaining_le (h : Grows i s s' F) : s'.remaining ≤ s.remaining := by
  rw [State.remaining, State.remaining, s.significant_eq, s'.significant_eq, h.ahead,
    List.map_append, List.filter_append, List.length_append]
  omega

end Grows

/-- Trees that stand one after the other, each with conforming nodes. -/
def ConformInList (gaps : Bool) (ts : List Tree) : Prop :=
  Tree.EverywhereInList (fun k cs => clear cs ∈ production gaps k) ts

/-- **The trees of drafts are a conforming row of a language**, if nothing has been reported or gaps are
allowed. -/
def Fits (gaps : Bool) (s : State) (L : Language Tree) (F : List Draft) : Prop :=
  (s.Clean ∨ gaps) → ConformInList gaps (Draft.treesOfList F) ∧ clear (Draft.treesOfList F) ∈ L

theorem clear_append (ts us : List Tree) : clear (ts ++ us) = clear ts ++ clear us :=
  List.filter_append ..

theorem Fits.append (h : Fits gaps s L F) (hd : s'.Clean → s.Clean) (h' : Fits gaps s' L' F') :
    Fits gaps s' (L * L') (F ++ F') := by
  intro hs
  obtain ⟨h₁, h₂⟩ := h (hs.imp_left hd)
  obtain ⟨h₃, h₄⟩ := h' hs
  rw [Draft.treesOfList_append, clear_append]
  exact ⟨Tree.everywhereInList_append.2 ⟨h₁, h₃⟩, Language.append_mem_mul h₂ h₄⟩

theorem Fits.mono (h : Fits gaps s L F) (hL : (s.Clean ∨ gaps) → L ≤ L') : Fits gaps s L' F :=
  fun hs => ⟨(h hs).1, hL hs (h hs).2⟩

/-! ## Rows, open nodes and finished nodes -/

/-- **What was read between two states**: after the drafts `ds` a row of drafts, such that all of them
are a row of `L`, with at most `c` looks used up in the end.  Without gaps nothing is loose, whatever is reported. -/
structure Since (gaps : Bool) (i : Input) (c : Nat) (s s' : State) (ds : List Draft)
    (L : Language Tree) : Prop where
  settled : s'.Settled
  used : s'.used ≤ c
  row : ∃ F, Grows i s s' (ds ++ F) ∧ Fits gaps s' L (ds ++ F) ∧ (gaps = false → Draft.TiedBehind ds F)

/-- **Between two states a row of a language was read.** -/
abbrev Reads (gaps : Bool) (i : Input) (c : Nat) (s s' : State) (L : Language Tree) : Prop :=
  Since gaps i c s s' [] L

/-- **An opening that waits for its kind**, with the draft `d` behind the events of `s`. -/
structure Opens (i : Input) (s : State) (o : Opening) (d : Draft) : Prop where
  waits : d.Waits
  event : o.event = s.events.size + d.before.length
  snapshot : o.snapshot.rest <:+ i.tokens
  blank : d = .blank → o.snapshot = s.snapshot

/-- **Between two states one node was read**, which can still be wrapped. -/
structure Closes (gaps : Bool) (i : Input) (c : Nat) (s s' : State) (x : Closed) (L : Language Tree) :
    Prop where
  settled : s'.Settled
  used : s'.used ≤ c
  snapshot : x.snapshot.rest <:+ i.tokens
  branch : ∃ b : Branch, Grows i s s' [.grown b] ∧ Fits gaps s' L [.grown b] ∧
    x.event + b.width = s'.events.size ∧ x.kind = b.kind ∧ (gaps = false → b.Tied)

variable {ds : List Draft}

namespace Since

theorem sound (h : Since gaps i c s s' ds L) : s'.Sound i :=
  let ⟨hs, _, _, hg, _⟩ := h
  { hg.coherent with settled := hs }

theorem refl (h : s.Sound i) (hc : s.used ≤ c) : Reads gaps i c s s 1 :=
  ⟨h.settled, hc, [], .refl h.toCoherent, fun _ => ⟨trivial, rfl⟩, fun _ => Draft.tiedBehind_nil trivial⟩

theorem trans (h₁ : Since gaps i c s s₁ ds L) (h₂ : Reads gaps i c' s₁ s₂ L') :
    Since gaps i c' s s₂ ds (L * L') := by
  obtain ⟨-, -, F, hg, hf, htied⟩ := h₁
  obtain ⟨hs, hu, F', hg', hf', htied'⟩ := h₂
  refine ⟨hs, hu, F ++ F', ?_, ?_, fun h => (htied h).append (htied' h).2⟩
  · simpa using hg.trans hg'
  · simpa using hf.append hg'.clean_of_clean hf'

/-- Drafts that fit go in front of a row. -/
theorem after (hg : Grows i s s₁ F) (hf : Fits gaps s₁ L F) (htied : Draft.TiedInList F)
    (h : Reads gaps i c s₁ s₂ L') : Reads gaps i c s s₂ (L * L') :=
  let ⟨hs, hu, _, hg', hf', htied'⟩ := h
  ⟨hs, hu, _, hg.trans hg', hf.append hg'.clean_of_clean hf',
    fun h => Draft.tiedBehind_nil (Draft.tiedInList_append.2 ⟨htied, (htied' h).2⟩)⟩

theorem mono (h : Since gaps i c s s' ds L) (hc : c ≤ c') (hL : (s'.Clean ∨ gaps) → L ≤ L') :
    Since gaps i c' s s' ds L' :=
  let ⟨hs, hu, F, hg, hf, htied⟩ := h
  ⟨hs, hu.trans hc, F, hg, hf.mono hL, htied⟩

theorem weaken (h : Since gaps i c s s' ds L) (hc : c ≤ c') : Since gaps i c' s s' ds L :=
  h.mono hc fun _ => le_refl L

theorem remaining_le (h : Since gaps i c s s' ds L) : s'.remaining ≤ s.remaining :=
  let ⟨_, _, _, hg, _⟩ := h
  hg.remaining_le

theorem clean_of_clean (h : Since gaps i c s s' ds L) (hs : s'.Clean) : s.Clean :=
  let ⟨_, _, _, hg, _⟩ := h
  hg.clean_of_clean hs

theorem look (h : Since gaps i c s s' ds L) : Since gaps i (c + 1) s s'.look ds L := by
  obtain ⟨hs, hu, F, hg, hf⟩ := h
  have hle : s'.look.used ≤ s'.used + 1 := by
    simp only [State.used, State.look]
    omega
  exact ⟨hs, by omega, F, { hg with coherent := { hg.coherent with } }, hf⟩

theorem of_look (hs : s.Sound i) (h : Since gaps i c s.look s' ds L) : Since gaps i c s s' ds L :=
  let ⟨h₁, h₂, F, hg, hf⟩ := h
  ⟨h₁, h₂, F, hg.of_look hs, hf⟩

theorem refresh (h : Since gaps i c s s' ds L) : Since gaps i 0 s s'.refresh ds L :=
  let ⟨hs, _, F, hg, hf⟩ := h
  ⟨hs, by simp, F, hg.refresh, hf⟩

/-- Nothing has been read since now. -/
theorem restart (h : Since gaps i c s s' ds L) : Reads gaps i c s' s' 1 := .refl h.sound h.used

/-- What was read last may be read as more. -/
theorem last (h : Since gaps i c s s' ds (L * M)) (hM : (s'.Clean ∨ gaps) → M ≤ L') :
    Since gaps i c s s' ds (L * L') :=
  h.mono (Nat.le_refl c) fun hgaps => mul_le_mul_right (hM hgaps) L

/-- A piece is not missing. -/
theorem present (h : Since gaps i c s s' ds (L * M)) : Since gaps i c s s' ds (L * hole gaps M) :=
  h.last fun _ => le_hole

/-- A piece is missing, which was reported. -/
theorem missing (h : Since gaps i c s s' ds L) (hs : ¬ s'.Clean) :
    Since gaps i c s s' ds (L * hole gaps M) := by
  refine (mul_one L ▸ h).last fun hgaps => ?_
  obtain rfl : gaps = true := hgaps.resolve_left hs
  exact one_le_hole

end Since

/-- **A computation that reads a row of a language**, when it is started in a sound state in which at
most `c` looks are used up; in the end it is at most `c'`, and `R` is what else holds of its answer and
the state after it. -/
def Recognizes (gaps : Bool) (i : Input) (c c' : Nat) (p : Parser α) (s : State)
    (L : α → Language Tree) (R : α → State → Prop) : Prop :=
  s.Sound i → s.used ≤ c → Ensures p i s fun a s' => Reads gaps i c' s s' (L a) ∧ R a s'

theorem Recognizes.intro {p : Parser α} {L' : α → Language Tree} {R : α → State → Prop}
    (h : Reads gaps i c s s 1 →
      Ensures p i s fun a s' => Reads gaps i c' s s' (L' a) ∧ R a s') :
    Recognizes gaps i c c' p s L' R :=
  fun hs hu => h (.refl hs hu)

theorem Recognizes.mono {p : Parser α} {L₁ L₂ : α → Language Tree} {R : α → State → Prop}
    (h : Recognizes gaps i c c' p s L₁ R) (hL : ∀ a, L₁ a ≤ L₂ a) : Recognizes gaps i c c' p s L₂ R :=
  fun hs hu => (h hs hu).mono fun a _ ⟨hr, hR⟩ => ⟨hr.mono (Nat.le_refl c') fun _ => hL a, hR⟩

/-- **What a part of a production reads is appended to what was read before it.** -/
theorem Since.step {p : Parser α} {f : α → Parser β} {L' : α → Language Tree}
    {R : α → State → Prop} {Q : β → State → Prop} (w : Since gaps i c s₀ s ds L)
    (hp : Recognizes gaps i c₁ c' p s L' R) (hc : c ≤ c₁)
    (hf : ∀ a s', Since gaps i c' s₀ s' ds (L * L' a) → s'.remaining ≤ s.remaining →
      R a s' → Ensures (f a) i s' Q) : Ensures (p >>= f) i s Q := by
  refine (hp w.sound (w.used.trans hc)).bind fun a s' ⟨hr, hR⟩ => ?_
  exact hf a s' (w.trans hr) hr.remaining_le hR

end Parser

end LuaTree
