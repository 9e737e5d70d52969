import LuaTree.Proofs.Consuming

/-!
# Proofs/Writing — what the parser makes of the leaves of a given tree

Here the coming tokens are known: `At i s us` says that the leaves `us` lie ahead of `s`.
`Wrote i s₀ s ds ts us` says that between `s₀` and `s`, after the drafts `ds`, exactly the trees `ts` were
recorded and nothing was reported, and `Built` that the last of them is a node which can still be
wrapped.  One lemma for each word of `Parser/Basic` says how it goes on.

Whether a run ends is not asked here (`Yields`), so neither looks nor rounds are counted.
-/

namespace LuaTree

open Grammar

/-- Leaves, as a tree has them. -/
abbrev Leaves := List (Kind × String)

/-- The kind of the first leaf; `error` stands for the end of the input. -/
def first (us : Leaves) : Kind := us.head?.elim .error Prod.fst

@[simp] theorem first_nil : first [] = .error := rfl

/-- The leaf behind the first one. -/
theorem second_cons (u : Kind × String) (us : Leaves) :
    (u :: us)[1]?.elim .error Prod.fst = first us := by
  cases us <;> rfl

theorem Tree.leavesOfList_node (k : Kind) (cs : List Tree) :
    leavesOfList [node k cs] = leavesOfList cs :=
  List.append_nil _

namespace Parser

variable {i : Input} {s s' s₀ s₁ : State} {ds : List Draft} {ts : List Tree} {us : Leaves} {k : Kind}
  {t : Tree} {a : String} {α β : Type} {Q : β → State → Prop}

/-- **In front of known leaves**: the coming tokens are tidy, and the leaves are those of the tokens among
them that the grammar sees. -/
structure At (i : Input) (s : State) (us : Leaves) : Prop where
  tidy : s.Tidy
  coherent : s.Coherent i
  ahead : s.significant.map Token.leaf = us

/-- **Trees that were recorded** between two states, after the drafts `ds`, without a report. -/
structure Wrote (i : Input) (s₀ s : State) (ds : List Draft) (ts : List Tree) (us : Leaves) : Prop
    extends At i s us where
  silent : s.diagnostics = s₀.diagnostics
  row : ∃ F, Grows i s₀ s (ds ++ F) ∧ Draft.treesOfList (ds ++ F) = ts

/-- **A node that was recorded** between two states without a report, and can still be wrapped. -/
structure Built (i : Input) (s₀ s : State) (x : Closed) (t : Tree) (us : Leaves) : Prop
    extends At i s us where
  silent : s.diagnostics = s₀.diagnostics
  snapshot : x.snapshot.rest <:+ i.tokens
  branch : ∃ b : Branch, Grows i s₀ s [.grown b] ∧ b.tree = t ∧ x.event + b.width = s.events.size ∧
    x.kind = b.kind

namespace At

theorem sound (h : At i s us) : s.Sound i := { h.coherent with settled := settled_of_tidy h.tidy }

theorem next (h : At i s us) : s.next = first us := by
  rw [State.next, first, ← h.ahead]
  cases s.significant <;> rfl

theorem second (h : At i s us) (n : Nat) :
    s.significant[n]?.elim .error Token.kind = us[n]?.elim .error Prod.fst := by
  rw [← h.ahead, List.getElem?_map]
  cases s.significant[n]? <;> rfl

theorem remaining (h : At i s us) : s.remaining = us.length := by
  rw [State.remaining, ← List.length_map (f := Token.leaf), h.ahead]

theorem of_still (h : At i s us) (hs : s'.Coherent i) (hstill : s.Still s') : At i s' us :=
  ⟨hstill.tidy h.tidy, hs, by rw [hstill.significant, h.ahead]⟩

theorem look (h : At i s us) : At i s.look us := ⟨{ h.tidy with }, { h.coherent with }, h.ahead⟩

theorem refresh (h : At i s us) : At i s.refresh us := ⟨{ h.tidy with }, { h.coherent with }, h.ahead⟩

theorem deeper (h : At i s us) : At i s.deeper us := ⟨{ h.tidy with }, { h.coherent with }, h.ahead⟩

theorem wrote (h : At i s us) : Wrote i s s [] [] us := ⟨h, rfl, [], .refl h.coherent, rfl⟩

/-- In front of a node are the leaves of its children. -/
theorem children {cs : List Tree} (h : At i s (Tree.leavesOfList [.node k cs] ++ us)) :
    At i s (Tree.leavesOfList cs ++ us) :=
  Tree.leavesOfList_node k cs ▸ h

end At

namespace Wrote

theorem trans (h : Wrote i s₀ s ds ts us) {ts' : List Tree} {us' : Leaves}
    (h' : Wrote i s s' [] ts' us') : Wrote i s₀ s' ds (ts ++ ts') us' := by
  obtain ⟨-, hsilent, F, hg, hF⟩ := h
  obtain ⟨hat, hsilent', F', hg', hF'⟩ := h'
  refine ⟨hat, hsilent'.trans hsilent, F ++ F', by simpa using hg.trans hg', ?_⟩
  rw [← hF, ← hF', ← List.append_assoc, Draft.treesOfList_append, List.nil_append]

theorem look (h : Wrote i s₀ s ds ts us) : Wrote i s₀ s.look ds ts us := by
  obtain ⟨hat, hsilent, F, hg, hF⟩ := h
  exact ⟨hat.look, hsilent, F, { hg with coherent := { hg.coherent with } }, hF⟩

theorem of_look (h : Wrote i s.look s' [] ts us) (hs : s.Coherent i) : Wrote i s s' [] ts us := by
  obtain ⟨hat, hsilent, F, hg, hF⟩ := h
  exact ⟨hat, hsilent, F, { hg with before := hs }, hF⟩

theorem upper (hs : s₀.Coherent i) (h : Wrote i s₀.deeper s ds ts us) : Wrote i s₀ s.upper ds ts us := by
  obtain ⟨hat, hsilent, F, hg, hF⟩ := h
  have hg := hg.upper hs
  exact ⟨⟨{ hat.tidy with }, hg.coherent, hat.ahead⟩, hsilent, F, hg, hF⟩

end Wrote

namespace Built

variable {x : Closed}

theorem wrote (h : Built i s₀ s x t us) : Wrote i s₀ s [] [t] us := by
  obtain ⟨hat, hsilent, -, b, hg, rfl, -⟩ := h
  exact ⟨hat, hsilent, [.grown b], hg, rfl⟩

theorem kind (h : Built i s₀ s x t us) : x.kind = t.kind := by
  obtain ⟨-, -, -, b, -, rfl, -, hkind⟩ := h
  rw [hkind, Branch.kind_tree]

theorem look (h : Built i s₀ s x t us) : Built i s₀ s.look x t us := by
  obtain ⟨hat, hsilent, hx, b, hg, hb⟩ := h
  exact ⟨hat.look, hsilent, hx, b, { hg with coherent := { hg.coherent with } }, hb⟩

theorem of_look (h : Built i s.look s' x t us) (hs : s.Coherent i) : Built i s s' x t us := by
  obtain ⟨hat, hsilent, hx, b, hg, hb⟩ := h
  exact ⟨hat, hsilent, hx, b, { hg with before := hs }, hb⟩

theorem deeper (h : Built i s₀ s x t us) : Built i s₀.deeper s.deeper x t us := by
  obtain ⟨hat, hsilent, hx, b, hg, hb⟩ := h
  exact ⟨hat.deeper, hsilent, hx, b, hg.deeper, hb⟩

theorem upper (hs : s₀.Coherent i) (h : Built i s₀.deeper s x t us) : Built i s₀ s.upper x t us := by
  obtain ⟨hat, hsilent, hx, b, hg, hb⟩ := h
  have hg := hg.upper hs
  exact ⟨⟨{ hat.tidy with }, hg.coherent, hat.ahead⟩, hsilent, hx, b, hg, hb⟩

theorem before (h : Built i s₀ s x t us) : s₀.Coherent i := by
  obtain ⟨-, -, -, b, hg, -⟩ := h
  exact hg.before

end Built

/-! ## Looking -/

theorem Wrote.peekAt {f : Kind → Parser β} (w : Wrote i s₀ s ds ts us) (n : Nat)
    (hk : us[n]?.elim .error Prod.fst = k)
    (hf : Wrote i s₀ s.look ds ts us → Yields (f k) i s.look Q) :
    Yields (Parser.peekAt n >>= f) i s Q := by
  rw [Parser.peekAt]
  refine .assoc (.get ?_)
  cases hl : s.looks with
  | zero => exact .bind (Q := fun _ _ => False) .exhausted fun _ _ => False.elim
  | succ looks =>
    have hlook : { s with looks } = s.look := by rw [State.look, hl, Nat.add_sub_cancel]
    refine .assoc (.setting ?_)
    rw [hlook, Token.nthSignificant?_eq, pure_bind, ← State.significant, w.second, hk]
    exact hf w.look

theorem Wrote.peek {f : Kind → Parser β} (w : Wrote i s₀ s ds ts us) (hk : first us = k)
    (hf : Wrote i s₀ s.look ds ts us → Yields (f k) i s.look Q) :
    Yields (Parser.peek >>= f) i s Q :=
  w.peekAt 0 (by rwa [← List.head?_eq_getElem?]) hf

/-- The next token is of a kind. -/
theorem Wrote.isAt {f : Bool → Parser β} (w : Wrote i s₀ s ds ts us) (hk : first us = k)
    (hf : Wrote i s₀ s.look ds ts us → Yields (f true) i s.look Q) :
    Yields (Parser.isAt k >>= f) i s Q := by
  refine .assoc (w.peek rfl fun w => ?_)
  change Yields (f (first us == k)) i s.look Q
  rw [beq_iff_eq.2 hk]
  exact hf w

theorem Wrote.notAt {f : Bool → Parser β} (w : Wrote i s₀ s ds ts us) (hk : first us ≠ k)
    (hf : Wrote i s₀ s.look ds ts us → Yields (f false) i s.look Q) :
    Yields (Parser.isAt k >>= f) i s Q := by
  refine .assoc (w.peek rfl fun w => ?_)
  change Yields (f (first us == k)) i s.look Q
  rw [beq_eq_false_iff_ne.2 hk]
  exact hf w

theorem Wrote.isAtOneOf {f : Bool → Parser β} {set : KindSet} (w : Wrote i s₀ s ds ts us)
    (hk : first us ∈ set) (hf : Wrote i s₀ s.look ds ts us → Yields (f true) i s.look Q) :
    Yields (Parser.isAtOneOf set >>= f) i s Q := by
  refine .assoc (w.peek rfl fun w => ?_)
  change Yields (f (set.contains (first us))) i s.look Q
  rw [KindSet.mem_iff_contains.1 hk]
  exact hf w

theorem Wrote.notAtOneOf {f : Bool → Parser β} {set : KindSet} (w : Wrote i s₀ s ds ts us)
    (hk : first us ∉ set) (hf : Wrote i s₀ s.look ds ts us → Yields (f false) i s.look Q) :
    Yields (Parser.isAtOneOf set >>= f) i s Q := by
  refine .assoc (w.peek rfl fun w => ?_)
  change Yields (f (set.contains (first us))) i s.look Q
  rw [Bool.eq_false_iff.2 (mt KindSet.mem_iff_contains.2 hk)]
  exact hf w

theorem Wrote.require {f : Unit → Parser β} (w : Wrote i s₀ s ds ts us) (hk : first us = k)
    (hf : Wrote i s₀ s.look ds ts us → Yields (f ()) i s.look Q) :
    Yields (Parser.require k >>= f) i s Q := by
  refine .assoc (w.peek hk fun w => ?_)
  rw [if_neg (not_not.2 rfl)]
  exact hf w

theorem Wrote.currentSpan {f : Span → Parser β} (_ : Wrote i s₀ s ds ts us)
    (hf : ∀ span, Yields (f span) i s Q) : Yields (Parser.currentSpan >>= f) i s Q :=
  hf _

/-! ## Consuming -/

/-- **The next leaf is consumed.** -/
theorem bump_wrote (h : At i s (Tree.leavesOfList [.leaf k a] ++ us)) :
    Ensures bump i s fun _ s' => Wrote i s s' [] [.leaf k a] us := by
  obtain ⟨t, tokens, hts, ht, hus⟩ : ∃ t tokens, s.significant = t :: tokens ∧ t.leaf = (k, a) ∧
      tokens.map Token.leaf = us := by
    have hahead : s.significant.map Token.leaf = (k, a) :: us := h.ahead
    cases hs : s.significant with
    | nil => simp [hs] at hahead
    | cons t tokens =>
      rw [hs, List.map_cons] at hahead
      exact ⟨t, tokens, rfl, (List.cons.inj hahead).1, (List.cons.inj hahead).2⟩
  refine (bump_reads true h.sound hts).mono fun _ s' ⟨_, hsig, htidy⟩ => ?_
  obtain ⟨⟨index, hg⟩, hsilent⟩ := htidy h.tidy
  obtain ⟨rfl, rfl⟩ := Prod.mk.inj ht
  exact ⟨⟨hg.tidy h.tidy, hg.coherent, by rw [hsig, hus]⟩, hsilent, _, hg, rfl⟩

theorem Wrote.bump {f : Unit → Parser β} (w : Wrote i s₀ s ds ts (Tree.leavesOfList [.leaf k a] ++ us))
    (hf : ∀ s', Wrote i s₀ s' ds (ts ++ [.leaf k a]) us → Yields (f ()) i s' Q) :
    Yields (Parser.bump >>= f) i s Q :=
  (Yields.of_ensures (bump_wrote w.toAt)).bind fun _ s' w' => hf s' (w.trans w')

theorem Wrote.eat {f : Bool → Parser β} (w : Wrote i s₀ s ds ts (Tree.leavesOfList [.leaf k a] ++ us))
    (hf : ∀ s', Wrote i s₀ s' ds (ts ++ [.leaf k a]) us → Yields (f true) i s' Q) :
    Yields (Parser.eat k >>= f) i s Q :=
  .assoc (w.isAt rfl fun w => .assoc (w.bump hf))

theorem Wrote.notEat {f : Bool → Parser β} (w : Wrote i s₀ s ds ts us) (hk : first us ≠ k)
    (hf : Wrote i s₀ s.look ds ts us → Yields (f false) i s.look Q) :
    Yields (Parser.eat k >>= f) i s Q :=
  .assoc (w.notAt hk hf)

theorem Wrote.expect {f : Bool → Parser β} (w : Wrote i s₀ s ds ts (Tree.leavesOfList [.leaf k a] ++ us))
    (hf : ∀ s', Wrote i s₀ s' ds (ts ++ [.leaf k a]) us → Yields (f true) i s' Q) :
    Yields (Parser.expect k >>= f) i s Q :=
  .assoc (w.eat hf)

theorem Wrote.expectClosing {f : Bool → Parser β} {note : String} {span : Span}
    (w : Wrote i s₀ s ds ts (Tree.leavesOfList [.leaf k a] ++ us))
    (hf : ∀ s', Wrote i s₀ s' ds (ts ++ [.leaf k a]) us → Yields (f true) i s' Q) :
    Yields (Parser.expectClosing k note span >>= f) i s Q :=
  .assoc (w.eat hf)

/-! ## Opening and closing -/

theorem Wrote.start {f : Opening → Parser β} (w : Wrote i s₀ s ds ts us)
    (hf : ∀ o s', Opens i s o .blank → Wrote i s s' [.blank] [] us → Yields (f o) i s' Q) :
    Yields (Parser.start >>= f) i s Q := by
  have hs := w.coherent
  refine hf _ { s with events := s.events.push .blank } (opens_start hs) ⟨?_, rfl, [], .blank hs, rfl⟩
  exact w.of_still { hs with } ⟨⟨rfl, rfl⟩, rfl⟩

/-- **An opening becomes a node around all that was recorded since.** -/
theorem Wrote.complete {f : Closed → Parser β} {o : Opening} {d : Draft}
    (w : Wrote i s₀ s [d] ts us) (ho : Opens i s₀ o d)
    (hf : ∀ x s', Built i s₀ s' x (.node k ts) us → Yields (f x) i s' Q) :
    Yields (Parser.complete o k >>= f) i s Q := by
  obtain ⟨hat, hsilent, F, hg, hF⟩ := w
  refine (Yields.of_ensures (Grows.complete ho hg)).bind ?_
  rintro x s' ⟨⟨hg', rfl, hevent⟩, hstill⟩
  refine hf _ s' ⟨hat.of_still hg'.coherent hstill, hstill.diagnostics.trans hsilent, ho.snapshot,
    d.close k F, hg', ?_, hevent, by simp⟩
  rw [Draft.tree_close ho.waits, ← hF]
  rfl

theorem Wrote.finish {f : Unit → Parser β} {o : Opening} {d : Draft} (w : Wrote i s₀ s [d] ts us)
    (ho : Opens i s₀ o d) (hf : ∀ s', Wrote i s₀ s' [] [.node k ts] us → Yields (f ()) i s' Q) :
    Yields (Production.finish o k >>= f) i s Q :=
  .assoc (w.complete ho fun _ s' h => hf s' h.wrote)

/-- The end of a production. -/
theorem Wrote.finished {o : Opening} {d : Draft} (w : Wrote i s₀ s [d] ts us) (ho : Opens i s₀ o d) :
    Yields (Production.finish o k) i s fun _ s' => Wrote i s₀ s' [] [.node k ts] us :=
  .last (w.finish ho fun _ w => .pure w)

theorem Wrote.abandon {f : Unit → Parser β} {o : Opening} (w : Wrote i s₀ s [.blank] ts us)
    (ho : Opens i s₀ o .blank) (hf : ∀ s', Wrote i s₀ s' [] ts us → Yields (f ()) i s' Q) :
    Yields (Parser.abandon o >>= f) i s Q := by
  obtain ⟨hat, hsilent, F, hg, hF⟩ := w
  refine (Yields.of_ensures (Grows.abandon ho hg)).bind fun _ s' ⟨⟨F', hg', hF'⟩, hstill⟩ => ?_
  refine hf s' ⟨hat.of_still hg'.coherent hstill, hstill.diagnostics.trans hsilent, F', hg', ?_⟩
  have htrees : Draft.treesOfList F' = Draft.treesOfList F := by rcases hF' with rfl | rfl <;> rfl
  rw [List.nil_append, htrees, ← hF]
  rfl

theorem Wrote.rollback {f : Unit → Parser β} {o : Opening} {vs : Leaves} (h : At i s₀ us)
    (w : Wrote i s₀ s [.blank] ts vs) (ho : Opens i s₀ o .blank)
    (hf : Wrote i s₀ s₀.refresh [] [] us → Yields (f ()) i s₀.refresh Q) :
    Yields (Parser.rollback o >>= f) i s Q := by
  obtain ⟨-, -, F, hg, -⟩ := w
  refine (Yields.of_ensures (Grows.rollback ho hg)).bind ?_
  rintro _ _ rfl
  exact hf ⟨h.refresh, rfl, [], Grows.refresh (.refl h.coherent), rfl⟩

/-- A node is wrapped. -/
theorem Built.precede {f : Opening → Parser β} {x : Closed} (h : Built i s₀ s x t us)
    (hf : ∀ o b s', Opens i s₀ o (.wrapping b) → Wrote i s₀ s' [.wrapping b] [t] us →
      Yields (f o) i s' Q) : Yields (Parser.precede x >>= f) i s Q := by
  obtain ⟨hat, hsilent, hx, b, hg, rfl, hevent, -⟩ := h
  refine (Yields.of_ensures (hg.precede hx hevent)).bind fun o s' ⟨ho, hg', hstill⟩ => ?_
  exact hf o b s' ho ⟨hat.of_still hg'.coherent hstill, hstill.diagnostics.trans hsilent, [], hg', rfl⟩

/-! ## Productions -/

/-- **A computation that writes trees**, wherever their leaves lie ahead and then `us`; `R` is what else
holds of its answer. -/
def Writes (i : Input) (p : Parser α) (ts : List Tree) (us : Leaves) (R : α → Prop) : Prop :=
  ∀ s, At i s (Tree.leavesOfList ts ++ us) → Yields p i s fun a s' => Wrote i s s' [] ts us ∧ R a

/-- **A computation that answers with the node it writes.** -/
def Builds (i : Input) (p : Parser Closed) (t : Tree) (us : Leaves) : Prop :=
  ∀ s, At i s (Tree.leavesOfList [t] ++ us) → Yields p i s fun x s' => Built i s s' x t us

/-- A computation that answers with the node it writes, if there is one. -/
def Finds (i : Input) (p : Parser (Option Closed)) (t : Tree) (us : Leaves) : Prop :=
  ∀ s, At i s (Tree.leavesOfList [t] ++ us) →
    Yields p i s fun a s' => ∃ x, a = some x ∧ Built i s s' x t us

theorem Builds.writes {p : Parser Closed} (h : Builds i p t us) : Writes i p [t] us fun _ => True :=
  fun s hs => (h s hs).mono fun _ _ hx => ⟨hx.wrote, trivial⟩

theorem Builds.finds {p : Parser Closed} (h : Builds i p t us) : Finds i (do return some (← p)) t us :=
  fun s hs => (h s hs).bind fun x _ hx => .pure ⟨x, rfl, hx⟩

theorem Finds.writes {p : Parser (Option Closed)} (h : Finds i p t us) :
    Writes i p [t] us (·.isSome) := fun s hs =>
  (h s hs).mono fun _ _ ⟨_, ha, hx⟩ => ⟨hx.wrote, by rw [ha]; rfl⟩

/-- What a part of a production writes comes after what was written before it. -/
theorem Wrote.step {p : Parser α} {f : α → Parser β} {ts' : List Tree} {R : α → Prop}
    (w : Wrote i s₀ s ds ts (Tree.leavesOfList ts' ++ us)) (hp : Writes i p ts' us R)
    (hf : ∀ a s', Wrote i s₀ s' ds (ts ++ ts') us → R a → Yields (f a) i s' Q) :
    Yields (p >>= f) i s Q :=
  (hp s w.toAt).bind fun a s' ⟨w', hR⟩ => hf a s' (w.trans w') hR

/-- Without a nesting limit a counted production writes what it does one level deeper. -/
theorem nested_writes {p : Parser (Option Closed)} {R : Option Closed → Prop}
    (hlimit : i.settings.limit = none) (hp : Writes i p ts us R) : Writes i (nested p) ts us R := by
  intro s hs
  refine (Yields.nested hlimit (hp s.deeper hs.deeper)).mono ?_
  rintro a _ ⟨t, ⟨w, hR⟩, rfl⟩
  exact ⟨w.upper hs.coherent, hR⟩

/-! ## Repeating -/

variable {σ : Type}

/-- **A loop over rows of trees**: each round but the last writes one row, and `I` relates what a round
is given to the rows that are left. -/
theorem loop_writes {round : σ → Parser (Round σ α)} {I : σ → List (List Tree) → Prop}
    {R : α → Prop} {vs : Leaves}
    (hround : ∀ x row rows, I x (row :: rows) →
      Writes i (round x) row (Tree.leavesOfList rows.flatten ++ vs) fun r => ∃ y, r = .again y ∧ I y rows)
    {last : List Tree} (hvs : vs = Tree.leavesOfList last ++ us)
    (hdone : ∀ x, I x [] → Writes i (round x) last us fun r => ∃ a, r = .done a ∧ R a) {x : σ}
    {rows : List (List Tree)} (hx : I x rows) : Writes i (loop x round) (rows.flatten ++ last) us R := by
  have hrounds : ∀ (n : Nat) (x : σ) (rows : List (List Tree)), I x rows →
      Writes i (rounds round n x) (rows.flatten ++ last) us R := by
    intro n
    induction n with
    | zero => exact fun _ _ _ _ _ => .exhausted
    | succ n ih =>
      intro x rows hx s hs
      rw [rounds]
      cases rows with
      | nil =>
        refine (hdone x hx s hs).bind ?_
        rintro _ s' ⟨w, a, rfl, hR⟩
        exact .pure ⟨w, hR⟩
      | cons row rows =>
        rw [List.flatten_cons, List.append_assoc, Tree.leavesOfList_append, Tree.leavesOfList_append,
          List.append_assoc, List.append_assoc, ← hvs] at hs
        refine (hround x row rows hx s hs).bind ?_
        rintro _ s₁ ⟨w, y, rfl, hy⟩
        have hat : At i s₁ (Tree.leavesOfList (rows.flatten ++ last) ++ us) := by
          rw [Tree.leavesOfList_append, List.append_assoc, ← hvs]
          exact w.toAt
        refine (ih y rows hy s₁ hat).mono ?_
        rintro a s' ⟨w', hR⟩
        rw [List.flatten_cons, List.append_assoc]
        exact ⟨w.trans w', hR⟩
  exact fun s hs => .read (hrounds i.bound x rows hx s hs)

end Parser

end LuaTree
