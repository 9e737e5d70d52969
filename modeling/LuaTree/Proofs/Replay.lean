import LuaTree.Proofs.Draft

/-!
# Proofs/Replay — the replay of a record grows the tree of its drafts

`Tree.ofEvents` follows links, blanks out openings that it has used and flushes trivia as it goes.
`Draft.grow` says in one recursion what comes out of it: the trees of the drafts, where trivia stands
in front of the node or token that follows it and outside of a node that opens there.
`Tree.ofEvents_grown` joins the two.
-/

namespace LuaTree

section Grow

variable (tokens : List Token)

/-- The trivia from a number on, up to the next token that is none. -/
def triviaFrom (n : Nat) : List Token := (tokens.drop n).takeWhile (·.kind.isTrivia)

mutual

/-- The tree of a branch with its trivia, from the token with number `n` on, and the number of the
next token. -/
def Branch.grow (n : Nat) : Branch → Tree × Nat
  | .node k ds => (.node k (Draft.growList n ds).1, (Draft.growList n ds).2)
  | .wrap b k ds =>
    (.node k ((b.grow n).1 :: (Draft.growList (b.grow n).2 ds).1), (Draft.growList (b.grow n).2 ds).2)

/-- The trees of a draft, after the trivia in front of it. -/
def Draft.grow (n : Nat) : Draft → List Tree × Nat
  | .blank => ([], n)
  | .leaf i _ => (((tokens.drop n).take (i + 1 - n)).map Token.tree, n + (i + 1 - n))
  | .grown b | .wrapping b =>
    let trivia := triviaFrom tokens n
    (trivia.map Token.tree ++ [(b.grow (n + trivia.length)).1], (b.grow (n + trivia.length)).2)

/-- The trees of drafts that stand one after the other. -/
def Draft.growList (n : Nat) : List Draft → List Tree × Nat
  | [] => ([], n)
  | d :: ds =>
    ((d.grow n).1 ++ (Draft.growList (d.grow n).2 ds).1, (Draft.growList (d.grow n).2 ds).2)

end

end Grow

/-! ## Steps of the replay

A builder *stands* at an event when the events from there on have not been touched.  The blanks that
a link has left behind are all in front of it or are told apart in what is to come. -/

namespace Builder

variable {tokens : List Token} {b b' : Builder} {p n m : Nat} {E : List Event}
  {U : List (Kind × List Tree)} {i c : Nat}

/-- The builder has placed the first `c` tokens, has `U` open, and the events `E` are to come. -/
structure Stands (tokens : List Token) (p : Nat) (E : List Event) (c : Nat)
    (U : List (Kind × List Tree)) (b : Builder) : Prop where
  events : b.events.toList.drop p = E
  pending : b.pending = tokens.drop c
  placed : b.placed = c
  le : c ≤ tokens.length
  unclosed : b.unclosed = U
  roots : b.roots = []

/-- The builder takes `n` steps from the event with number `p` on. -/
def Takes (p n : Nat) (b b' : Builder) : Prop :=
  (List.range' p n).foldlM step b = .ok b'

theorem Takes.zero : Takes p 0 b b := rfl

theorem Takes.one (h : step b p = .ok b') : Takes p 1 b b' := by
  simp only [Takes, List.range'_one, List.foldlM_cons, List.foldlM_nil, h]
  rfl

theorem Takes.trans {b₁ b₂ b₃ : Builder} (h₁ : Takes p n b₁ b₂) (h₂ : Takes (p + n) m b₂ b₃) :
    Takes p (n + m) b₁ b₃ := by
  rw [Takes, ← List.range'_append_1, List.foldlM_append, show (List.range' p n).foldlM step b₁ = _ from h₁]
  exact h₂

/-- The event that a builder stands at. -/
theorem Stands.head {e : Event} (h : Stands tokens p (e :: E) c U b) : b.events[p]? = some e := by
  have := congrArg List.head? h.events
  simpa using this

theorem Stands.next {e : Event} (h : Stands tokens p (e :: E) c U b) : Stands tokens (p + 1) E c U b where
  events := by rw [← List.drop_drop, h.events, List.drop_one, List.tail_cons]
  pending := h.pending
  placed := h.placed
  le := h.le
  unclosed := h.unclosed
  roots := h.roots

/-- **A blank opens nothing.** -/
theorem Stands.blank (h : Stands tokens p (.blank :: E) c U b) :
    Takes p 1 b b ∧ Stands tokens (p + 1) E c U b := by
  refine ⟨.one ?_, h.next⟩
  simp only [step, h.head, Event.blank]
  rfl

/-- Placing tokens in an open node. -/
theorem Stands.place {k : Kind} {ts : List Tree} (h : Stands tokens p E c ((k, ts) :: U) b)
    (hn : c + n ≤ tokens.length) :
    ∃ b', place n b = .ok b' ∧ b'.events = b.events ∧ Stands tokens p E (c + n)
      ((k, (((tokens.drop c).take n).map Token.tree).reverse ++ ts) :: U) b' := by
  induction n generalizing b c ts with
  | zero => exact ⟨b, rfl, rfl, by simpa using h⟩
  | succ n ih =>
    have hlt : c < tokens.length := by omega
    have hdrop : tokens.drop c = tokens[c] :: tokens.drop (c + 1) := List.drop_eq_getElem_cons hlt
    have hadd : Stands tokens p E (c + 1) ((k, tokens[c].tree :: ts) :: U)
        (add (.leaf tokens[c].kind tokens[c].text)
          { b with pending := tokens.drop (c + 1), placed := b.placed + 1 }) := by
      simp only [add, h.unclosed]
      exact ⟨h.events, rfl, by simp [h.placed], by omega, rfl, h.roots⟩
    obtain ⟨b', hplace, hev, hb'⟩ := ih hadd (by omega)
    refine ⟨b', ?_, ?_, ?_⟩
    · rw [Builder.place, h.pending, hdrop]
      exact hplace
    · rw [hev]
      simp only [add, h.unclosed]
    · rw [hdrop, List.take_succ_cons, List.map_cons, List.reverse_cons, List.append_assoc,
        show c + (n + 1) = c + 1 + n by omega]
      exact hb'

theorem take_triviaFrom : (tokens.drop c).take (triviaFrom tokens c).length = triviaFrom tokens c :=
  List.prefix_iff_eq_take.1 (List.takeWhile_prefix _) |>.symm

theorem length_triviaFrom_le (h : c ≤ tokens.length) :
    c + (triviaFrom tokens c).length ≤ tokens.length := by
  have hle := (List.takeWhile_prefix (·.kind.isTrivia) (l := tokens.drop c)).length_le
  rw [List.length_drop] at hle
  rw [triviaFrom]
  omega

/-- **A token event places the tokens up to its own.** -/
theorem Stands.token {k : Kind} {ts : List Tree} (h : Stands tokens p (.token i :: E) c ((k, ts) :: U) b)
    (hi : i < tokens.length) :
    ∃ b', Takes p 1 b b' ∧ Stands tokens (p + 1) E (c + (i + 1 - c))
      ((k, (((tokens.drop c).take (i + 1 - c)).map Token.tree).reverse ++ ts) :: U) b' := by
  obtain ⟨b', hplace, -, hb'⟩ := h.place (n := i + 1 - c) (by have := h.le; omega)
  refine ⟨b', .one ?_, hb'.next⟩
  simp only [step, h.head, h.placed]
  exact hplace

/-- **A closing inside of the root closes the innermost node.** -/
theorem Stands.close {k k' : Kind} {ts ts' : List Tree}
    (h : Stands tokens p (.closing :: E) c ((k, ts) :: (k', ts') :: U) b) :
    ∃ b', Takes p 1 b b' ∧ Stands tokens (p + 1) E c ((k', .node k ts.reverse :: ts') :: U) b' := by
  refine ⟨{ b with unclosed := (k', .node k ts.reverse :: ts') :: U }, .one ?_, ?_⟩
  · simp only [step, h.head, h.unclosed, Builder.close, add]
    rfl
  · exact ⟨h.next.events, h.pending, h.placed, h.le, rfl, h.roots⟩

end Builder

/-! ## Following the links of a branch

At the first opening of a branch the replay follows the links to all the others, opens their nodes at
once and blanks them out.  `Branch.body` is what is left of the events then. -/

namespace Branch

/-- The innermost kind and the link that its opening holds. -/
def head (link : Option Nat) : Branch → Kind × Option Nat
  | node k _ => (k, link)
  | wrap b _ _ => b.head (some b.width)

/-- The events after the first one. -/
def tail (link : Option Nat) : Branch → List Event
  | node _ ds => Draft.eventsOfList ds ++ [.closing]
  | wrap b k ds => b.tail (some b.width) ++ .opening k link :: (Draft.eventsOfList ds ++ [.closing])

/-- The events after the first one, with blanks for the openings that links lead to. -/
def body : Branch → List Event
  | node _ ds => Draft.eventsOfList ds ++ [.closing]
  | wrap b _ ds => b.body ++ .blank :: (Draft.eventsOfList ds ++ [.closing])

/-- The kinds of the nodes around the first child, outermost first. -/
def kinds : Branch → List Kind
  | node k _ => [k]
  | wrap b k _ => k :: b.kinds

/-- The number of links inside of the branch. -/
def links : Branch → Nat
  | node .. => 0
  | wrap b _ _ => b.links + 1

theorem events_eq : ∀ (b : Branch) (link : Option Nat),
    b.events link = .opening (b.head link).1 (b.head link).2 :: b.tail link
  | node _ _, _ => rfl
  | wrap b _ _, _ => by simp [Branch.events, head, tail, events_eq b]

theorem length_tail : ∀ (b : Branch) (link : Option Nat), (b.tail link).length = b.body.length
  | node _ _, _ => rfl
  | wrap b _ _, _ => by simp [tail, body, length_tail b]

theorem width_le (b : Branch) : b.width ≤ b.body.length + 1 := by
  cases b with
  | node => simp [width, body]
  | wrap =>
    simp [width, body]
    omega

theorem head_mem_kinds : ∀ (b : Branch) (link : Option Nat), (b.head link).1 ∈ b.kinds
  | node _ _, _ => List.mem_singleton_self _
  | wrap b _ _, _ => List.mem_cons_of_mem _ (head_mem_kinds b _)

theorem links_lt (b : Branch) : b.links < b.body.length := by
  cases b with
  | node => simp [links, body]
  | wrap b _ _ =>
    have := links_lt b
    simp [links, body]
    omega

end Branch

namespace Builder

open Branch

variable {tokens : List Token} {b b' : Builder} {p n m : Nat} {E : List Event}
  {U : List (Kind × List Tree)} {c : Nat}

/-- Blanking out the event behind a list of events. -/
theorem drop_setIfInBounds {ev : Array Event} {e f : Event} {A : List Event} {q : Nat}
    (h : ev.toList.drop p = A ++ e :: E) (hq : q = p + A.length) :
    ev[q]? = some e ∧ (ev.setIfInBounds q f).toList.drop p = A ++ f :: E := by
  subst hq
  constructor
  · have := congrArg (·[A.length]?) h
    simpa using this
  · rw [Array.toList_setIfInBounds, List.drop_set, if_neg (by omega), Nat.add_sub_cancel_left, h]
    simp

/-- **The links inside of a branch lead from its first opening to its outermost one.** -/
theorem wrappers_branch : ∀ (br : Branch) (link : Option Nat) {ev : Array Event} {n : Nat}
    {E : List Event}, ev.toList.drop p = .blank :: (br.tail link ++ E) →
    (∀ k ∈ br.kinds, k ≠ .tombstone) →
    ∃ ev' : Array Event, ev'.toList.drop p = .blank :: (br.body ++ E) ∧ ev'.size = ev.size ∧
      wrappers (br.links + n) ev p (br.head link).2 [(br.head link).1] =
        wrappers n ev' (p + (br.body.length + 1 - br.width)) link br.kinds
  | .node k ds, link, ev, n, E, h, _ => ⟨ev, h, rfl, by simp [links, head, kinds, body, width]⟩
  | .wrap br k ds, link, ev, n, E, h, hk => by
    obtain ⟨ev₁, h₁, hsize, hw⟩ := wrappers_branch br (some br.width) (n := n + 1)
      (E := .opening k link :: (Draft.eventsOfList ds ++ [.closing]) ++ E)
      (by simpa [tail] using h) fun k hk' => hk k (List.mem_cons_of_mem _ hk')
    have hwidth := width_le br
    obtain ⟨q, hq⟩ : ∃ q, q = p + (br.body.length + 1 - br.width) + br.width := ⟨_, rfl⟩
    obtain ⟨hget, hset⟩ := drop_setIfInBounds (f := .blank) (A := .blank :: br.body) (q := q)
      (by simpa using h₁) (by simp only [List.length_cons]; omega)
    refine ⟨ev₁.setIfInBounds q .blank, by simpa [body] using hset, by simpa using hsize, ?_⟩
    have hne : k ≠ .tombstone := hk k (by simp [kinds])
    have hend : p + ((wrap br k ds).body.length + 1 - (wrap br k ds).width) = q := by
      simp only [body, width, List.length_append, List.length_cons, List.length_nil]
      omega
    rw [links, head, show br.links + 1 + n = br.links + (n + 1) by omega, hw, wrappers, ← hq, hget,
      hend]
    simp only [if_neg hne, kinds]

/-- The same, with the end that the last link has: none, or the blank behind the branch. -/
theorem wrappers_of_events {br : Branch} {link : Option Nat} {ev : Array Event} {F : List Event}
    (h : ev.toList.drop p = .blank :: (br.tail link ++ E)) (hk : ∀ k ∈ br.kinds, k ≠ .tombstone)
    (hend : link = none ∨ link = some br.width ∧ E = .blank :: F) :
    ∃ ev' : Array Event, ev'.toList.drop p = .blank :: (br.body ++ E) ∧
      wrappers ev.size ev p (br.head link).2 [(br.head link).1] = .ok (br.kinds, ev') := by
  have hsize : br.links + 1 < ev.size := by
    have hlen := congrArg List.length h
    have := links_lt br
    simp only [List.length_drop, Array.length_toList, List.length_cons, List.length_append,
      length_tail] at hlen
    omega
  obtain ⟨n, hn⟩ : ∃ n, ev.size = br.links + (n + 1) := ⟨ev.size - br.links - 1, by omega⟩
  obtain ⟨ev₁, h₁, -, hw⟩ := wrappers_branch br link (n := n + 1) h hk
  rw [hn, hw]
  rcases hend with rfl | ⟨rfl, rfl⟩
  · exact ⟨ev₁, h₁, rfl⟩
  · have hwidth := width_le br
    obtain ⟨q, hq⟩ : ∃ q, q = p + (br.body.length + 1 - br.width) + br.width := ⟨_, rfl⟩
    obtain ⟨hget, hset⟩ := drop_setIfInBounds (f := .blank) (A := .blank :: br.body) (q := q)
      (by simpa using h₁) (by simp only [List.length_cons]; omega)
    refine ⟨ev₁.setIfInBounds q .blank, by simpa using hset, ?_⟩
    rw [wrappers, ← hq, hget]
    cases n <;> rfl

/-- The open nodes once those of `kinds` have been opened as well, the outermost first. -/
def openOnto (kinds : List Kind) (U : List (Kind × List Tree)) : List (Kind × List Tree) :=
  kinds.foldl (fun outer k => (k, []) :: outer) U

theorem step_opening {k : Kind} {link : Option Nat} (h : b.events[p]? = some (.opening k link))
    (hk : k ≠ .tombstone) :
    step b p = (do
      let (kinds, events) ←
        wrappers b.events.size (b.events.setIfInBounds p .blank) p link [k]
      let trivia := if b.unclosed.isEmpty then 0
        else (b.pending.takeWhile (·.kind.isTrivia)).length
      return openAll kinds (← Builder.place trivia { b with events })) := by
  rw [step, h]
  split <;> simp_all

/-- **The first opening of a branch opens all of its nodes**, after the trivia in front of it. -/
theorem Stands.opening {br : Branch} {link : Option Nat} {F : List Event} {k : Kind} {ts : List Tree}
    (h : Stands tokens p (br.events link ++ E) c ((k, ts) :: U) b)
    (hk : ∀ k ∈ br.kinds, k ≠ .tombstone)
    (hend : link = none ∨ link = some br.width ∧ E = .blank :: F) :
    ∃ b', Takes p 1 b b' ∧ Stands tokens (p + 1) (br.body ++ E) (c + (triviaFrom tokens c).length)
      (openOnto br.kinds ((k, ((triviaFrom tokens c).map Token.tree).reverse ++ ts) :: U)) b' := by
  rw [events_eq, List.cons_append] at h
  have hhead : (br.head link).1 ≠ .tombstone := hk _ (head_mem_kinds br link)
  obtain ⟨-, hset⟩ := drop_setIfInBounds (f := .blank) (A := []) (q := p) (by simpa using h.events) rfl
  obtain ⟨ev', hev', hw⟩ := wrappers_of_events
    (show (b.events.setIfInBounds p .blank).toList.drop p = _ by simpa using hset) hk hend
  rw [Array.size_setIfInBounds] at hw
  have hfirst : Stands tokens p (.blank :: (br.body ++ E)) c ((k, ts) :: U) { b with events := ev' } :=
    ⟨hev', h.pending, h.placed, h.le, h.unclosed, h.roots⟩
  obtain ⟨b', hplace, -, hb'⟩ := hfirst.place (length_triviaFrom_le h.le)
  rw [take_triviaFrom] at hb'
  refine ⟨openAll br.kinds b', .one ?_, ?_⟩
  · have htrivia : (if b.unclosed.isEmpty then 0
        else (b.pending.takeWhile (·.kind.isTrivia)).length) = (triviaFrom tokens c).length := by
      rw [h.unclosed, h.pending]
      rfl
    rw [step_opening h.head hhead, hw]
    change (Builder.place _ _ >>= _) = _
    rw [htrivia, hplace]
    rfl
  · exact ⟨hb'.next.events, hb'.pending, hb'.placed, hb'.le, by rw [openAll, hb'.unclosed]; rfl,
      hb'.roots⟩

/-- The first event opens the root, and no trivia stands in front of it. -/
theorem takes_rootOpening {events : Array Event} {k : Kind}
    (hev : events.toList = .opening k none :: E) (hk : k ≠ .tombstone) :
    ∃ b', Takes 0 1 ⟨events, tokens, 0, [], []⟩ b' ∧ Stands tokens 1 E 0 [(k, [])] b' := by
  refine ⟨⟨events.setIfInBounds 0 .blank, tokens, 0, [(k, [])], []⟩, .one ?_, ?_⟩
  · have hget : events[0]? = some (.opening k none) := by
      rw [← Array.getElem?_toList, hev]
      rfl
    rw [step_opening hget hk, wrappers]
    rfl
  · exact ⟨by simp [hev], rfl, rfl, Nat.zero_le _, rfl, rfl⟩

/-- **The last event closes the root**, around all that is left. -/
theorem Stands.rootClosing {k : Kind} {ts : List Tree} (h : Stands tokens p [.closing] c [(k, ts)] b) :
    ∃ b', Takes p 1 b b' ∧ b'.unclosed = [] ∧
      b'.roots = [.node k (ts.reverse ++ (tokens.drop c).map Token.tree)] := by
  obtain ⟨b₁, hplace, -, h₁⟩ := h.place (n := b.pending.length) (by
    rw [h.pending, List.length_drop]
    have := h.le
    omega)
  refine ⟨{ b₁ with
    unclosed := [], roots := [.node k (ts.reverse ++ (tokens.drop c).map Token.tree)] }, .one ?_, rfl, rfl⟩
  rw [step, h.head]
  simp only [h.unclosed]
  rw [hplace]
  change Builder.close b₁ = _
  rw [Builder.close, h₁.unclosed, h.pending]
  simp only [add, h₁.roots, List.take_length, List.reverse_append, List.reverse_reverse]
  rfl

end Builder

/-! ## The replay of drafts -/

/-- Every node of a tree has a kind of its own. -/
abbrev Tree.Named : Tree → Prop := Tree.Everywhere fun k _ => k ≠ .tombstone

/-- Every node of trees that stand one after the other has a kind of its own. -/
abbrev Tree.NamedInList : List Tree → Prop := Tree.EverywhereInList fun k _ => k ≠ .tombstone

theorem Branch.ne_of_mem_kinds : ∀ {b : Branch}, b.tree.Named → ∀ k ∈ b.kinds, k ≠ .tombstone
  | .node _ _, h, k', hk => by
    obtain rfl := List.mem_singleton.1 hk
    exact h.1
  | .wrap b k ds, h, k', hk => by
    rcases List.mem_cons.1 hk with rfl | hk
    · exact h.1
    · exact ne_of_mem_kinds h.2.1 k' hk

section Replay

open Builder

variable {tokens : List Token}

mutual

theorem Branch.takes : ∀ (br : Branch) {b : Builder} {p c : Nat} {E : List Event} {k : Kind}
    {ts : List Tree} {U : List (Kind × List Tree)}, br.tree.Named →
    (∀ l ∈ br.leaves, l.2 < tokens.length) →
    Stands tokens p (br.body ++ E) c (openOnto br.kinds ((k, ts) :: U)) b →
    ∃ b', Takes p br.body.length b b' ∧
      Stands tokens (p + br.body.length) E (br.grow tokens c).2
        ((k, (br.grow tokens c).1 :: ts) :: U) b'
  | .node k' ds, b, p, c, E, k, ts, U, hk, hl, h => by
    rw [Branch.body, List.append_assoc] at h
    obtain ⟨b₁, hrun₁, h₁⟩ := Draft.takesList ds hk.2 hl h
    obtain ⟨b₂, hrun₂, h₂⟩ := h₁.close
    refine ⟨b₂, by simpa [Branch.body] using hrun₁.trans hrun₂, ?_⟩
    simpa [Branch.body, Branch.grow, Nat.add_assoc] using h₂
  | .wrap br k' ds, b, p, c, E, k, ts, U, hk, hl, h => by
    have hl₁ : ∀ l ∈ br.leaves, l.2 < tokens.length := fun l hm =>
      hl l (List.mem_append_left _ hm)
    have hl₂ : ∀ l ∈ Draft.leavesOfList ds, l.2 < tokens.length := fun l hm =>
      hl l (List.mem_append_right _ hm)
    rw [Branch.body, List.append_assoc, List.cons_append, List.append_assoc] at h
    obtain ⟨b₁, hrun₁, h₁⟩ := Branch.takes br hk.2.1 hl₁ h
    obtain ⟨hrun₂, h₂⟩ := h₁.blank
    obtain ⟨b₃, hrun₃, h₃⟩ := Draft.takesList ds hk.2.2 hl₂ h₂
    obtain ⟨b₄, hrun₄, h₄⟩ := h₃.close
    refine ⟨b₄, ?_, ?_⟩
    · have := hrun₁.trans (hrun₂.trans (hrun₃.trans hrun₄))
      simpa [Branch.body, Nat.add_comm, Nat.add_left_comm] using this
    · simpa [Branch.body, Branch.grow, Nat.add_assoc, Nat.add_comm, Nat.add_left_comm] using h₄

theorem Draft.takes : ∀ (d : Draft) {b : Builder} {p c : Nat} {E : List Event} {k : Kind}
    {ts : List Tree} {U : List (Kind × List Tree)}, Tree.NamedInList d.trees →
    (∀ l ∈ d.leaves, l.2 < tokens.length) → Stands tokens p (d.events ++ E) c ((k, ts) :: U) b →
    ∃ b', Takes p d.events.length b b' ∧
      Stands tokens (p + d.events.length) E (d.grow tokens c).2
        ((k, (d.grow tokens c).1.reverse ++ ts) :: U) b'
  | .blank, b, p, c, E, k, ts, U, _, _, h => ⟨b, h.blank.1, h.blank.2⟩
  | .leaf i t, b, p, c, E, k, ts, U, _, hl, h => by
    obtain ⟨b₁, hrun, h₁⟩ := h.token (hl (t, i) (List.mem_singleton_self _))
    exact ⟨b₁, hrun, h₁⟩
  | .grown br, b, p, c, E, k, ts, U, hk, hl, h => by
    obtain ⟨b₁, hrun₁, h₁⟩ := h.opening (F := []) (Branch.ne_of_mem_kinds hk.1) (.inl rfl)
    obtain ⟨b₂, hrun₂, h₂⟩ := Branch.takes br hk.1 hl h₁
    have hlen : (Draft.grown br).events.length = 1 + br.body.length := by
      simp [Draft.events, Branch.events_eq, Branch.length_tail, Nat.add_comm]
    rw [hlen]
    refine ⟨b₂, hrun₁.trans hrun₂, ?_⟩
    simpa [Draft.grow, Nat.add_assoc] using h₂
  | .wrapping br, b, p, c, E, k, ts, U, hk, hl, h => by
    rw [Draft.events, List.append_assoc] at h
    obtain ⟨b₁, hrun₁, h₁⟩ := h.opening (Branch.ne_of_mem_kinds hk.1) (.inr ⟨rfl, rfl⟩)
    obtain ⟨b₂, hrun₂, h₂⟩ := Branch.takes br hk.1 hl h₁
    obtain ⟨hrun₃, h₃⟩ := h₂.blank
    have hlen : (Draft.wrapping br).events.length = 1 + (br.body.length + 1) := by
      simp [Draft.events, Branch.events_eq, Branch.length_tail]
      omega
    rw [hlen]
    refine ⟨b₂, hrun₁.trans (hrun₂.trans hrun₃), ?_⟩
    simpa [Draft.grow, Nat.add_assoc] using h₃

theorem Draft.takesList : ∀ (ds : List Draft) {b : Builder} {p c : Nat} {E : List Event} {k : Kind}
    {ts : List Tree} {U : List (Kind × List Tree)}, Tree.NamedInList (Draft.treesOfList ds) →
    (∀ l ∈ Draft.leavesOfList ds, l.2 < tokens.length) →
    Stands tokens p (Draft.eventsOfList ds ++ E) c ((k, ts) :: U) b →
    ∃ b', Takes p (Draft.eventsOfList ds).length b b' ∧
      Stands tokens (p + (Draft.eventsOfList ds).length) E (Draft.growList tokens c ds).2
        ((k, (Draft.growList tokens c ds).1.reverse ++ ts) :: U) b'
  | [], b, p, c, E, k, ts, U, _, _, h => ⟨b, .zero, h⟩
  | d :: ds, b, p, c, E, k, ts, U, hk, hl, h => by
    obtain ⟨hk₁, hk₂⟩ := Tree.everywhereInList_append.1 hk
    have hl₁ : ∀ l ∈ d.leaves, l.2 < tokens.length := fun l hm =>
      hl l (List.mem_append_left _ hm)
    have hl₂ : ∀ l ∈ Draft.leavesOfList ds, l.2 < tokens.length := fun l hm =>
      hl l (List.mem_append_right _ hm)
    rw [Draft.eventsOfList, List.append_assoc] at h
    obtain ⟨b₁, hrun₁, h₁⟩ := Draft.takes d hk₁ hl₁ h
    obtain ⟨b₂, hrun₂, h₂⟩ := Draft.takesList ds hk₂ hl₂ h₁
    refine ⟨b₂, by simpa [Draft.eventsOfList] using hrun₁.trans hrun₂, ?_⟩
    simpa [Draft.eventsOfList, Draft.growList, Nat.add_assoc] using h₂

end

/-- **The replay of a record grows the tree of its drafts**; what trivia is left goes to the root. -/
theorem Tree.ofEvents_grown {events : Array Event} {k : Kind} {ds : List Draft}
    (hev : events.toList = (Branch.node k ds).events none) (hk : (Branch.node k ds).tree.Named)
    (hl : ∀ l ∈ Draft.leavesOfList ds, l.2 < tokens.length) :
    Tree.ofEvents tokens events = .ok (.node k ((Draft.growList tokens 0 ds).1 ++
      (tokens.drop (Draft.growList tokens 0 ds).2).map Token.tree)) := by
  have hev' : events.toList = .opening k none :: (Draft.eventsOfList ds ++ [.closing]) := hev
  obtain ⟨b₁, hrun₁, h₁⟩ := takes_rootOpening hev' hk.1
  obtain ⟨b₂, hrun₂, h₂⟩ := Draft.takesList ds hk.2 hl h₁
  obtain ⟨b₃, hrun₃, hu, hr⟩ := h₂.rootClosing
  have hsize : events.size = 1 + ((Draft.eventsOfList ds).length + 1) := by
    rw [← Array.length_toList, hev']
    simp [Nat.add_comm]
  have hrun : (List.range events.size).foldlM step ⟨events, tokens, 0, [], []⟩ = .ok b₃ := by
    rw [List.range_eq_range', hsize]
    exact hrun₁.trans (hrun₂.trans hrun₃)
  simp only [Tree.ofEvents, hrun, bind, Except.bind, hu, hr]
  simp [pure, Except.pure]

end Replay

end LuaTree
