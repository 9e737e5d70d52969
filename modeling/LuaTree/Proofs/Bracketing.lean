import LuaTree.Proofs.Growth
import LuaTree.Proofs.Linking
import LuaTree.Proofs.Parse
import LuaTree.Proofs.Troubles

/-!
# Proofs/Bracketing — the replay of a record reads its plain brackets

A record is made plain by leaving out tombstones and by moving each opening that is linked to in front of the opening
of the node it wraps (`Event.plain`).  What is left are brackets around tokens, and they are read as
brackets are (`Bracket.tree?`), with trivia in front of the node or token that follows it.  For the record of every
parse that gives the tree of the replay, although the replay moves nothing and follows the links as it
goes (`replay_of_parse`).
-/

namespace LuaTree

open LuaTree.Parser

/-! ## Plain brackets -/

/-- A node opens, the token with a number is read, or a node closes. -/
inductive Bracket where
  | opens (kind : Kind)
  | token (index : Nat)
  | closes

namespace Event

/-- The kinds of the node that opens first and of those that are linked to from it, outermost first. -/
def chain : List Event → List Kind
  | opening k none :: _ => [k]
  | opening k (some distance) :: es => chain (es.drop (distance - 1)) ++ [k]
  | _ => []
termination_by es => es.length
decreasing_by simp only [List.length_drop, List.length_cons]; omega

/-- The number of the event that the `n`-th event links to. -/
def target? (n : Nat) : Event → Option Nat
  | opening _ link => link.map (n + ·)
  | _ => none

/-- The numbers of the events that are linked to from the `n`-th event on. -/
def targets (n : Nat) : List Event → List Nat
  | [] => []
  | e :: es => (target? n e).toList ++ targets (n + 1) es

/-- The brackets of events from the `n`-th on, without tombstones and with the openings that are `moved` in front of
the node they wrap. -/
def plainFrom (moved : List Nat) (n : Nat) : List Event → List Bracket
  | [] => []
  | e :: es =>
    (match e with
      | opening k _ => if k = .tombstone ∨ n ∈ moved then [] else (chain (e :: es)).map .opens
      | token index => [.token index]
      | closing => [.closes]) ++ plainFrom moved (n + 1) es

/-- **The plain brackets of a record.** -/
def plain (es : List Event) : List Bracket := plainFrom (targets 0 es) 0 es

end Event

namespace Bracket

section

variable (tokens : List Token)

/-- Reads brackets when `c` tokens have been placed and some nodes are open, innermost first, each with its children,
last first.  Trivia goes in front of what follows it and what is left over into the root, which closes last. -/
def readFrom (c : Nat) : List (Kind × List Tree) → List Bracket → Option Tree
  | [], opens k :: bs => readFrom c [(k, [])] bs
  | (l, ts) :: outer, opens k :: bs =>
    readFrom (c + (triviaFrom tokens c).length)
      ((k, []) :: (l, ((triviaFrom tokens c).map Token.tree).reverse ++ ts) :: outer) bs
  | (l, ts) :: outer, token index :: bs =>
    match tokens[c + (triviaFrom tokens c).length]? with
    | some t =>
      if c + (triviaFrom tokens c).length = index then
        readFrom (index + 1) ((l, t.tree :: (((triviaFrom tokens c).map Token.tree).reverse ++ ts)) :: outer) bs
      else none
    | none => none
  | [(k, ts)], [closes] => some (.node k (ts.reverse ++ (tokens.drop c).map Token.tree))
  | (k, ts) :: (l, us) :: outer, closes :: bs => readFrom c ((l, .node k ts.reverse :: us) :: outer) bs
  | _, _ => none

/-- **The tree that plain brackets around tokens describe.** -/
def tree? (bs : List Bracket) : Option Tree := readFrom tokens 0 [] bs

end

end Bracket

open Event LuaTree.Bracket

/-! ## The brackets of drafts -/

mutual

/-- The brackets of a branch behind the openings of its nodes. -/
def Branch.inner : Branch → List Bracket
  | .node _ ds => Draft.bracketsOfList ds ++ [.closes]
  | .wrap b _ ds => b.inner ++ (Draft.bracketsOfList ds ++ [.closes])

/-- The brackets of a finished draft: all nodes of a branch open at once, the outermost first. -/
def Draft.brackets : Draft → List Bracket
  | .blank => []
  | .leaf index _ => [.token index]
  | .grown b => b.kinds.map .opens ++ b.inner
  | .wrapping _ => []

def Draft.bracketsOfList : List Draft → List Bracket
  | [] => []
  | d :: ds => d.brackets ++ Draft.bracketsOfList ds

end

theorem Branch.exists_kinds (b : Branch) : ∃ k ks, b.kinds = k :: ks := by cases b <;> exact ⟨_, _, rfl⟩

/-! ## Making a record plain -/

theorem drop_node (ds : List Draft) (rest : List Event) :
    (Draft.eventsOfList ds ++ [Event.closing] ++ rest).drop ((Draft.eventsOfList ds).length + 2 - 1) = rest :=
  List.drop_left' (by simp)

/-- **The links of a branch lead through all of its nodes**, and through those around it if it is wrapped. -/
theorem Branch.chain_events (b : Branch) : (∀ rest, chain (b.events none ++ rest) = b.kinds) ∧
    ∀ rest, chain (b.events (some b.width) ++ rest) = chain rest ++ b.kinds := by
  cases b with
  | node k ds =>
    refine ⟨fun rest => ?_, fun rest => ?_⟩
    · rw [Branch.events, List.cons_append, chain, Branch.kinds]
    · rw [Branch.events, List.cons_append, chain, Branch.width, drop_node, Branch.kinds]
  | wrap b k ds =>
    obtain ⟨-, hb⟩ := b.chain_events
    refine ⟨fun rest => ?_, fun rest => ?_⟩
    · rw [Branch.events, List.append_assoc, hb, List.cons_append, chain, Branch.kinds, List.singleton_append]
    · rw [Branch.events, List.append_assoc, hb, List.cons_append, chain, Branch.width, drop_node, Branch.kinds,
        List.append_assoc, List.singleton_append]

theorem points_cons {e : Event} {es : List Event} {t : Nat} : Points (e :: es) t ↔
    (∃ k, e = .opening k (some t)) ∨ ∃ u, t = u + 1 ∧ Points es u := by
  constructor
  · rintro ⟨_ | n, k, d, hn, rfl⟩
    · exact .inl ⟨k, by simpa using hn⟩
    · exact .inr ⟨n + d, by omega, n, k, d, hn, rfl⟩
  · rintro (⟨k, rfl⟩ | ⟨u, rfl, n, k, d, hn, rfl⟩)
    · exact ⟨0, k, t, rfl, Nat.zero_add t⟩
    · exact ⟨n + 1, k, d, hn, by omega⟩

theorem target?_eq_some {e : Event} {n t : Nat} :
    target? n e = some t ↔ ∃ u, t = n + u ∧ ∃ k, e = .opening k (some u) := by
  cases e with
  | opening k link => simp [target?, eq_comm, and_comm]
  | token | closing => simp [target?]

theorem mem_targets {t : Nat} : ∀ {n : Nat} {es : List Event}, t ∈ targets n es ↔ ∃ u, t = n + u ∧ Points es u
  | n, [] => by simp [targets, Points]
  | n, e :: es => by
    rw [targets, List.mem_append, Option.mem_toList, target?_eq_some, mem_targets]
    constructor
    · rintro (⟨u, rfl, hk⟩ | ⟨u, rfl, hu⟩)
      · exact ⟨u, rfl, points_cons.2 (.inl hk)⟩
      · exact ⟨u + 1, by omega, points_cons.2 (.inr ⟨u, rfl, hu⟩)⟩
    · rintro ⟨u, rfl, hu⟩
      rcases points_cons.1 hu with hk | ⟨v, rfl, hv⟩
      · exact .inl ⟨u, rfl, hk⟩
      · exact .inr ⟨v, by omega, hv⟩

/-- Of the events from the `n`-th on, those are moved that are linked to from among them. -/
def Moves (moved : List Nat) (n : Nat) (es : List Event) : Prop :=
  ∀ t, t < es.length → (n + t ∈ moved ↔ Points es t)

variable {moved : List Nat} {n : Nat} {es fs : List Event} {b : Branch} {k : Kind}

theorem Moves.left (h : Moves moved n (es ++ fs)) : Moves moved n es := fun t ht =>
  (h t (by rw [List.length_append]; omega)).trans (points_append_left ht)

theorem Moves.right (h : Moves moved n (es ++ fs)) (hes : Linked es) : Moves moved (n + es.length) fs :=
  fun t ht => by
    rw [Nat.add_assoc]
    exact (h _ (by rw [List.length_append]; omega)).trans (points_append_right hes)

theorem linked_opening : Linked [.opening k none] := linked_of_forall (by simp)

/-- Inside of a node. -/
theorem Moves.inside (h : Moves moved n (.opening k none :: (es ++ [.closing]))) : Moves moved (n + 1) es := by
  have hright : Moves moved (n + [Event.opening k none].length) (es ++ [.closing]) := Moves.right h linked_opening
  exact hright.left

/-- Inside of a node that wraps a branch, and in that branch. -/
theorem Moves.of_wrap (h : Moves moved n (b.events (some b.width) ++ .opening k none :: (es ++ [.closing])))
    (hb : Linked (b.events none)) (hes : Linked es) (hk : k ≠ .tombstone) :
    Moves moved n (b.events none) ∧ n + (b.events none).length ∈ moved ∧
      Moves moved (n + (b.events none).length + 1) es := by
  obtain ⟨-, hpoints⟩ := Branch.linked_wrap hb hes hk
  have hlength := b.length_events (some b.width)
  refine ⟨fun t ht => ?_, ?_, fun t ht => ?_⟩
  · rw [h t (by rw [List.length_append]; omega), hpoints, points_append_left ht]
    simp [Nat.ne_of_lt ht]
  · refine (h _ (by simp [hlength])).2 ((hpoints _).2 (.inr rfl))
  · have hmoves := h ((b.events none).length + (1 + t)) (by simp [hlength]; omega)
    have hinside : Points (.opening k none :: (es ++ [.closing])) (1 + t) ↔ Points (es ++ [.closing]) t :=
      @points_append_right [.opening k none] _ t linked_opening
    rw [hpoints, points_append_right hb, hinside, points_append_left ht] at hmoves
    rw [show n + (b.events none).length + 1 + t = n + ((b.events none).length + (1 + t)) by omega, hmoves]
    exact or_iff_left (by omega)

theorem moves_targets (es : List Event) : Moves (targets 0 es) 0 es := fun t _ => by
  rw [mem_targets]
  exact ⟨fun ⟨u, hu, hpoints⟩ => (Nat.add_left_cancel hu) ▸ hpoints, fun h => ⟨t, rfl, h⟩⟩

theorem plainFrom_opening {link : Option Nat} (hk : k ≠ .tombstone) (hn : n ∉ moved) :
    plainFrom moved n (.opening k link :: es) =
      (chain (.opening k link :: es)).map .opens ++ plainFrom moved (n + 1) es := by
  rw [plainFrom]
  rw [if_neg (not_or.2 ⟨hk, hn⟩)]

theorem plainFrom_moved {link : Option Nat} (hn : n ∈ moved) :
    plainFrom moved n (.opening k link :: es) = plainFrom moved (n + 1) es := by
  rw [plainFrom]
  rw [if_pos (.inr hn), List.nil_append]

theorem plainFrom_closing : plainFrom moved n (.closing :: es) = .closes :: plainFrom moved (n + 1) es := rfl

mutual

/-- **All nodes of a branch open at once.** -/
theorem Branch.plainFrom_events : ∀ (b : Branch) {link : Option Nat} {n : Nat} {rest : List Event},
    (link = none ∨ link = some b.width) → b.Tied → Moves moved n (b.events none) →
    plainFrom moved n (b.events link ++ rest) = (chain (b.events link ++ rest)).map .opens ++
      (b.inner ++ plainFrom moved (n + (b.events none).length) rest)
  | .node k ds, link, n, rest, _, h, hmoves => by
    have hlinked : Linked ((Branch.node k ds).events none) := Branch.linked_events _ h
    have hfirst : n ∉ moved := fun hmem =>
      absurd (hlinked.points_bounds ((hmoves 0 (by simp [Branch.events])).1 hmem)).1 (Nat.lt_irrefl 0)
    have hinside : plainFrom moved (n + 1) (Draft.eventsOfList ds ++ .closing :: rest) = _ :=
      Draft.plainFrom_eventsOfList ds h.2 hmoves.inside
    rw [Branch.events, List.cons_append, plainFrom_opening h.1 hfirst, List.append_assoc, List.singleton_append,
      hinside, plainFrom_closing, Branch.inner, List.append_assoc, List.singleton_append]
    simp [Branch.events, Nat.add_assoc, Nat.add_comm 1]
  | .wrap b k ds, link, n, rest, hlink, h, hmoves => by
    obtain ⟨hb, hwrap, hinside⟩ := hmoves.of_wrap (b.linked_events h.2.1) (Draft.linked_eventsOfList ds h.2.2) h.1
    have hrest : plainFrom moved (n + (b.events none).length + 1) (Draft.eventsOfList ds ++ .closing :: rest) = _ :=
      Draft.plainFrom_eventsOfList ds h.2.2 hinside
    have hlength := b.length_events (some b.width)
    rw [Branch.events, List.append_assoc, List.cons_append, b.plainFrom_events (.inr rfl) h.2.1 hb,
      plainFrom_moved hwrap, List.append_assoc, List.singleton_append, hrest, plainFrom_closing, Branch.inner]
    simp [Branch.events, hlength, Nat.add_assoc, Nat.add_comm 1]

theorem Draft.plainFrom_events : ∀ (d : Draft) {n : Nat} {rest : List Event}, d.Tied → Moves moved n d.events →
    plainFrom moved n (d.events ++ rest) =
      d.brackets ++ plainFrom moved (n + d.events.length) rest
  | .blank, _, _, _, _ => rfl
  | .leaf .., _, _, _, _ => rfl
  | .grown b, n, rest, h, hmoves => by
    rw [Draft.events, b.plainFrom_events (.inl rfl) h hmoves, b.chain_events.1, Draft.brackets, List.append_assoc]

/-- **The brackets of finished drafts.** -/
theorem Draft.plainFrom_eventsOfList : ∀ (ds : List Draft) {n : Nat} {rest : List Event},
    Draft.TiedInList ds → Moves moved n (Draft.eventsOfList ds) →
    plainFrom moved n (Draft.eventsOfList ds ++ rest) =
      Draft.bracketsOfList ds ++ plainFrom moved (n + (Draft.eventsOfList ds).length) rest
  | [], _, _, _, _ => rfl
  | d :: ds, n, rest, h, hmoves => by
    rw [Draft.eventsOfList, List.append_assoc, d.plainFrom_events h.1 hmoves.left,
      Draft.plainFrom_eventsOfList ds h.2 (hmoves.right (d.linked_events h.1)), Draft.bracketsOfList,
      List.append_assoc, List.length_append, Nat.add_assoc]

end

/-! ## Reading brackets -/

section

variable {tokens : List Token} {c : Nat} {outer : List (Kind × List Tree)} {l : Kind} {ts : List Tree}
  {bs : List Bracket} {R : List (Token × Nat)}

/-- Nodes that open at once open one inside of the other, and behind the trivia. -/
theorem readFrom_opens : ∀ (k : Kind) (ks : List Kind) {c : Nat} {l : Kind} {ts : List Tree}
    {outer : List (Kind × List Tree)}, readFrom tokens c ((l, ts) :: outer) ((k :: ks).map .opens ++ bs) =
      readFrom tokens (c + (triviaFrom tokens c).length)
        (Builder.openOnto (k :: ks) ((l, ((triviaFrom tokens c).map Token.tree).reverse ++ ts) :: outer)) bs
  | k, [], _, _, _, _ => by rw [List.map_cons, List.cons_append, readFrom]; rfl
  | k, k' :: ks, c, l, ts, outer => by
    rw [List.map_cons, List.cons_append, readFrom, readFrom_opens k' ks, triviaFrom_triviaFrom]
    rfl

/-- A token is read behind its trivia. -/
theorem readFrom_token {index : Nat} {t : Token} (h : solidAfter tokens c = (t, index) :: R) :
    readFrom tokens c ((l, ts) :: outer) (.token index :: bs) =
      readFrom tokens (index + 1) ((l, t.tree :: (((triviaFrom tokens c).map Token.tree).reverse ++ ts)) :: outer) bs ∧
    c + (index + 1 - c) = index + 1 ∧
      (tokens.drop c).take (index + 1 - c) = triviaFrom tokens c ++ [t] := by
  obtain ⟨trivia, us, hdrop, htrivia, ht, rfl, -⟩ := eq_append_of_solidFrom h
  have hfrom : triviaFrom tokens c = trivia := by
    rw [triviaFrom, hdrop, List.takeWhile_append_of_pos (fun u hu => htrivia u hu),
      List.takeWhile_cons_of_neg (by simp [ht]), List.append_nil]
  have hget : tokens[c + trivia.length]? = some t := by
    rw [← List.getElem?_drop, hdrop, List.getElem?_append_right (Nat.le_refl _), Nat.sub_self]
    rfl
  refine ⟨?_, by omega, ?_⟩
  · rw [readFrom, hfrom, hget]
    simp
  · rw [hfrom, hdrop, show c + trivia.length + 1 - c = (trivia ++ [t]).length by simp; omega,
      show trivia ++ t :: us = (trivia ++ [t]) ++ us by simp, List.take_left]

theorem readFrom_closes {k : Kind} {us : List Tree} : readFrom tokens c ((k, us) :: (l, ts) :: outer) (.closes :: bs) =
    readFrom tokens c ((l, .node k us.reverse :: ts) :: outer) bs := by
  rw [readFrom]

/-- The trees of a part go behind those before it. -/
theorem reverse_map_append (us vs : List Tree) : (us ++ vs).reverse ++ ts = vs.reverse ++ (us.reverse ++ ts) := by
  rw [List.reverse_append, List.append_assoc]

mutual

/-- **A branch is read as it grows**, when its nodes are open. -/
theorem Branch.readFrom_inner : ∀ (b : Branch) {c : Nat} {R : List (Token × Nat)} {l : Kind} {ts : List Tree}
    {outer : List (Kind × List Tree)} {bs : List Bracket}, b.Tied → solidAfter tokens c = b.leaves ++ R →
    readFrom tokens c (Builder.openOnto b.kinds ((l, ts) :: outer)) (b.inner ++ bs) =
      readFrom tokens (b.grow tokens c).2 ((l, (b.grow tokens c).1 :: ts) :: outer) bs
  | .node k ds, c, R, l, ts, outer, bs, ht, h => by
    rw [Branch.inner, List.append_assoc, List.singleton_append]
    refine (Draft.readFrom_bracketsOfList ds ht.2 h).trans (readFrom_closes.trans ?_)
    rw [List.append_nil, List.reverse_reverse]
    rfl
  | .wrap b k ds, c, R, l, ts, outer, bs, ht, h => by
    rw [Branch.leaves, List.append_assoc] at h
    rw [Branch.inner, List.append_assoc, List.append_assoc, List.singleton_append]
    refine (b.readFrom_inner ht.2.1 h).trans ?_
    refine (Draft.readFrom_bracketsOfList ds ht.2.2 (b.withoutTrivia_grow c h).2).trans (readFrom_closes.trans ?_)
    rw [List.reverse_append, List.reverse_reverse]
    rfl

theorem Draft.readFrom_brackets : ∀ (d : Draft) {c : Nat} {R : List (Token × Nat)} {l : Kind} {ts : List Tree}
    {outer : List (Kind × List Tree)} {bs : List Bracket}, d.Tied → solidAfter tokens c = d.leaves ++ R →
    readFrom tokens c ((l, ts) :: outer) (d.brackets ++ bs) =
      readFrom tokens (d.grow tokens c).2 ((l, (d.grow tokens c).1.reverse ++ ts) :: outer) bs
  | .blank, _, _, _, _, _, _, _, _ => rfl
  | .leaf i t, c, R, l, ts, outer, bs, _, h => by
    obtain ⟨hread, hnext, htake⟩ := @readFrom_token _ _ outer l ts bs _ _ _ h
    rw [Draft.brackets, List.singleton_append, hread, Draft.grow, htake, hnext, List.map_append, reverse_map_append]
    rfl
  | .grown b, c, R, l, ts, outer, bs, ht, h => by
    rw [← solidAfter_triviaFrom] at h
    obtain ⟨k, ks, hks⟩ := b.exists_kinds
    rw [Draft.brackets, List.append_assoc, hks, readFrom_opens, ← hks, b.readFrom_inner ht h, Draft.grow,
      reverse_map_append]
    rfl

/-- **Brackets are read as their drafts grow.** -/
theorem Draft.readFrom_bracketsOfList : ∀ (ds : List Draft) {c : Nat} {R : List (Token × Nat)} {l : Kind}
    {ts : List Tree} {outer : List (Kind × List Tree)} {bs : List Bracket}, Draft.TiedInList ds →
    solidAfter tokens c = Draft.leavesOfList ds ++ R →
    readFrom tokens c ((l, ts) :: outer) (Draft.bracketsOfList ds ++ bs) =
      readFrom tokens (Draft.growList tokens c ds).2 ((l, (Draft.growList tokens c ds).1.reverse ++ ts) :: outer) bs
  | [], _, _, _, _, _, _, _, _ => rfl
  | d :: ds, c, R, l, ts, outer, bs, ht, h => by
    rw [Draft.leavesOfList, List.append_assoc] at h
    rw [Draft.bracketsOfList, List.append_assoc, d.readFrom_brackets ht.1 h,
      Draft.readFrom_bracketsOfList ds ht.2 (d.withoutTrivia_grow c h).2, Draft.growList, reverse_map_append]

end

/-- **The plain brackets of one tree are read as its replay.** -/
theorem tree?_plain {k : Kind} {ds : List Draft} (ht : (Branch.node k ds).Tied)
    (h : solidFrom 0 tokens = Draft.leavesOfList ds) :
    tree? tokens (plain ((Branch.node k ds).events none)) = some (.node k ((Draft.growList tokens 0 ds).1 ++
      (tokens.drop (Draft.growList tokens 0 ds).2).map Token.tree)) := by
  have hplain : plainFrom _ 0 ((Branch.node k ds).events none ++ []) = _ :=
    (Branch.node k ds).plainFrom_events (.inl rfl) ht (moves_targets _)
  have hleaves : solidAfter tokens 0 = Draft.leavesOfList ds ++ [] := by simpa [solidAfter] using h
  have hinside : readFrom tokens 0 [(k, [])] (Draft.bracketsOfList ds ++ [.closes]) = _ :=
    Draft.readFrom_bracketsOfList ds ht.2 hleaves
  rw [(Branch.node k ds).chain_events.1, List.append_nil] at hplain
  rw [tree?, plain, hplain, plainFrom, List.append_nil, Branch.kinds, List.map_cons, List.map_nil,
    List.singleton_append, readFrom, Branch.inner, hinside, readFrom, List.append_nil, List.reverse_reverse]

end

/-! ## Every parse -/

mutual

/-- A finished draft has no nameless node. -/
theorem Branch.named_of_tied : ∀ b : Branch, b.Tied → b.tree.Named
  | .node _ ds, h => ⟨h.1, Draft.namedInList_of_tied ds h.2⟩
  | .wrap b _ ds, h => ⟨h.1, b.named_of_tied h.2.1, Draft.namedInList_of_tied ds h.2.2⟩

theorem Draft.namedInList_trees : ∀ d : Draft, d.Tied → Tree.NamedInList d.trees
  | .blank, _ => trivial
  | .leaf .., _ => ⟨trivial, trivial⟩
  | .grown b, h => ⟨b.named_of_tied h, trivial⟩

theorem Draft.namedInList_of_tied : ∀ ds : List Draft, Draft.TiedInList ds →
    Tree.NamedInList (Draft.treesOfList ds)
  | [], _ => trivial
  | d :: ds, h => Tree.everywhereInList_append.2 ⟨d.namedInList_trees h.1, Draft.namedInList_of_tied ds h.2⟩

end

/-- **The record of every run is one tree in which nothing is loose.** -/
theorem tied_of_whole {i : Input} {s : State} (hi : i.Sound) (hd : ∀ t ∈ i.tokens, t.Dashed)
    (hrun : whole i (.initial i.tokens) = .ok ((), s)) : ∃ F,
      Grows i (.initial i.tokens) s [.grown (.node .chunk F)] ∧ s.ahead = [] ∧ Draft.TiedInList F := by
  have hwhole : Ensures whole i (.initial i.tokens) fun _ s' => ∃ F,
      Grows i (.initial i.tokens) s' [.grown (.node .chunk F)] ∧ s'.ahead = [] ∧ Draft.TiedInList F := by
    refine .read ((reportUnfinishedComments_reads _ (coherent_initial hi) hd).bind ?_)
    rintro _ s₁ ⟨hg₁, hu, -⟩
    refine (Production.chunk_ties false hg₁.coherent (hu.trans (Nat.sub_self _))).mono ?_
    exact fun _ _ ⟨F, hg, _, hend, htied⟩ => ⟨F, hg₁.trans hg, hend, htied rfl⟩
  exact Yields.of_ensures hwhole () s hrun

/-- **The record of every parse is balanced and well linked, and its replay gives the tree that its plain brackets
describe.** -/
theorem replay_of_parse (source : String) (settings : Settings) : ∃ p s, parse source settings = .ok p ∧
    whole (.ofTokens (lex source) source.utf8ByteSize settings) (.initial (lex source)) = .ok ((), s) ∧
    Event.Balanced s.events.toList ∧ Event.Linked s.events.toList ∧
    Tree.ofEvents (lex source) s.events = .ok p.tree ∧
    Bracket.tree? (lex source) (Event.plain s.events.toList) = some p.tree := by
  have hdashed : ∀ t ∈ lex source, t.Dashed := fun t => dashed_of_mem_lex
  have htoken : ∀ t ∈ lex source, t.kind.isToken := fun t => isToken_of_mem_lex
  obtain ⟨p, hp, -⟩ := parseTokens_conforms (tiles_lex source) htoken hdashed settings
  obtain ⟨s, hrun, htree, -⟩ := run_of_parseTokens hp
  obtain ⟨F, hg, hend, htied⟩ := tied_of_whole (sound_ofTokens (tiles_lex source) htoken) hdashed hrun
  have hchunk : (Branch.node .chunk F).Tied := ⟨nofun, htied⟩
  have hevents : s.events.toList = (Branch.node .chunk F).events none := by
    simpa [State.initial, Draft.eventsOfList, Draft.events] using hg.events
  obtain ⟨hleaves, hgrown⟩ := ofEvents_of_grows hg (Branch.named_of_tied _ hchunk) hend
  refine ⟨p, s, hp, hrun, ?_, ?_, htree, ?_⟩ <;> rw [hevents]
  · exact (Draft.paired_eventsOfList F htied).balanced nofun
  · exact Branch.linked_events _ hchunk
  · exact (tree?_plain hchunk hleaves).trans (congrArg some (Except.ok.inj (hgrown.symm.trans htree)))

end LuaTree
