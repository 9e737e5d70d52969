import LuaTree.Proofs.Accessors
import LuaTree.Proofs.Course
import LuaTree.Proofs.Faults
import LuaTree.Proofs.Trivia

/-!
# Proofs/Leftovers — what the statements of a source leave over

A chunk holds the unknown characters in front, each in a node of its own, one block, and one node with what the block
leaves over, if that is anything.  The block stops in front of a token that begins no statement, or behind a `return`;
this token is reported, or something was reported at it before (`Outlook.Candid`), and from there on statements are
read wherever one begins (`chunk_of_parse`).
-/

namespace LuaTree

open LuaTree.Parser

/-! ## The last report -/

/-- **The last report is among the diagnostics, and nothing lies ahead once the nesting limit is reached.** -/
structure Outlook.Candid (a : Outlook) : Prop where
  kept : ∀ n ∈ a.lastReported, ∃ d ∈ a.diagnostics, d.span.start = n
  ended : a.limitReached = true → a.ahead = []

namespace Outlook.Candid

variable {a : Outlook} {i : Input}

theorem told (h : a.Candid) (d : Diagnostic) : (a.told d).Candid := by
  refine ⟨?_, fun hlimit => ?_⟩
  · rw [Outlook.told]
    split
    · exact h.kept
    · exact fun n hn => ⟨d, by simp, Option.some.inj hn⟩
  · rw [ahead_told]
    exact h.ended (by simpa using hlimit)

/-- While something lies ahead, a report is among the diagnostics, or there is one at its place. -/
theorem exists_at_told (h : a.Candid) (ha : a.ahead ≠ []) (d : Diagnostic) :
    ∃ e ∈ (a.told d).diagnostics, e.span.start = d.span.start := by
  have hlimit : a.limitReached = false := by simpa using mt h.ended ha
  exact Outlook.exists_at_told h.kept hlimit d

theorem passed (h : a.Candid) {ls : List (Token × Nat)} (hls : a.limitReached = true → ls = []) :
    (a.passed ls).Candid := by
  induction ls generalizing a with
  | nil => exact ⟨h.kept, fun _ => rfl⟩
  | cons l ls ih =>
    have hlimit : a.limitReached = false := by simpa using mt hls (List.cons_ne_nil l ls)
    rw [Outlook.passed]
    split
    · exact ih (h.told _) fun hreached => by simp [hlimit] at hreached
    · exact ⟨h.kept, fun hreached => by simp [hlimit] at hreached⟩

theorem settle (h : a.Candid) : a.settle.Candid := h.passed h.ended

theorem advance (h : a.Candid) {l : Token × Nat} {ls : List (Token × Nat)} (hl : a.ahead = l :: ls) :
    a.advance.Candid := by
  have hlimit : a.limitReached = false := by simpa using mt h.ended (by simp [hl])
  have hbehind : Candid { a with ahead := ls } := ⟨h.kept, fun hreached => by simp [hlimit] at hreached⟩
  have hunquoted : (a.unquoted l.1 ls).Candid := by
    rw [Outlook.unquoted]
    split
    · exact hbehind.told _
    · exact hbehind
  rw [Outlook.advance, hl]
  exact hunquoted.settle

theorem bail (h : a.Candid) (limit size : Nat) : (a.bail limit size).Candid := by
  rw [Outlook.bail]
  split
  · exact h
  · exact ⟨fun n hn => ⟨_, List.mem_append_right _ (List.mem_singleton_self _), Option.some.inj hn⟩, fun _ => rfl⟩

end Outlook.Candid

/-- **Every word leaves a candid outlook.** -/
def Parser.Trait.candid (i : Input) : Trait i where
  Holds _ a _ := a.Candid
  Spans _ := True
  now h := h
  trans _ h := h
  blank := .rfl
  wrapping h := h
  close h _ _ _ := h
  span _ := trivial
  spanOf _ _ _ _ := trivial
  told h _ _ _ _ := h.told _
  settle h _ := h.settle
  advance h _ hl := h.advance hl
  bail limit h _ := h.bail limit i.size

/-! ## The block and what it leaves over -/

namespace Parser

variable {i : Input} {s s' : State} {n : Nat}

/-- A run by itself. -/
theorem rows_candid {s : State} (hs : s.Sound i) (h : s.outlook.Candid) : (Trait.candid i).bond.Rows s s s s [] [] :=
  ⟨.refl hs.toCoherent, .refl hs.toCoherent, hs.settled, hs.settled, rfl, rfl, rfl, h⟩

/-- **What is left over goes into one node**, and something is reported at its first token. -/
theorem garbage_draws (hs : s.Sound i) (h : s.outlook.Candid) {l : Token × Nat} {ls : List (Token × Nat)}
    (hl : s.ahead = l :: ls) : Yields (Production.garbage (Production.enter n)) i s fun _ s' =>
      (∃ D, Draws i s s' [.grown (.node .garbage D)]) ∧ ∃ d ∈ s'.diagnostics.toList, d.span.start = l.1.start := by
  have hinside : Draws i s s.inside [.blank] := .inside hs.toCoherent
  refine Yields.bind (Q := fun o s₁ => o = ⟨s.events.size, s.snapshot⟩ ∧ s₁ = s.inside)
    (.get (.modifying (.pure ⟨rfl, rfl⟩))) ?_
  rintro _ _ ⟨rfl, rfl⟩
  have hinside' : s.inside.Sound i := { hinside.coherent with settled := hs.settled }
  -- the report
  refine Yields.bind (Q := fun _ s₂ => Draws i s.inside s₂ [] ∧ s₂.Settled ∧ s₂.outlook.Candid ∧
    ∃ d ∈ s₂.diagnostics.toList, d.span.start = l.1.start) (fun a s₂ hrun => ?_) ?_
  · obtain ⟨x, _, hspan, hreport⟩ := run_bind hrun
    rw [currentSpan_eq] at hspan
    cases hspan
    obtain ⟨hg, hstays, hlook⟩ := Yields.of_ensures (report_outlook hinside'.toCoherent) _ s₂ hreport
    have hready : s.outlook.Ready i := ⟨faces_of_coherent hs.toCoherent, hs.settled⟩
    refine ⟨hg, hstays.settled hs.settled, ?_, ?_⟩
    · rw [hlook]
      exact Outlook.Candid.told h _
    · have hahead : s.outlook.ahead = l :: ls := hl
      obtain ⟨d, hd, hstart⟩ := h.exists_at_told (by simp [hahead])
        ⟨.expectedStatement, s.outlook.span i.size, none, []⟩
      refine ⟨d, ?_, hstart.trans ?_⟩
      · change d ∈ s₂.outlook.diagnostics
        rw [hlook]
        exact hd
      · dsimp only
        rw [hready.span_eq hahead]
        rfl
  -- and the rest
  rintro _ s₂ ⟨hg, hsettled, hcandid, d, hd, hstart⟩
  have w := rows_candid { hg.coherent with settled := hsettled } hcandid
  refine Yields.bind (Q := fun _ s₃ => ∃ F, Draws i s₂ s₃ F) (fun a s₃ hrun => ?_) ?_
  · obtain ⟨-, F, _, w'⟩ := Bond.Alongside.loop (fun _ => ((Trait.candid i).bond.enters n n).garbageRound) () s₂ s₂ w
      a s₃ a s₃ hrun hrun
    exact ⟨F, w'.left⟩
  rintro _ s₃ ⟨F, hF⟩
  have hall : Draws i s s₃ (.blank :: F) := (hinside.trans hg).trans hF
  intro a s' hrun
  have hlook : s'.outlook = s₃.outlook := finish_outlook _ _ _ _ hrun
  refine ⟨⟨F, hall.finish (opens_start hs.toCoherent) (by decide) a s' hrun⟩, d, ?_, hstart⟩
  change d ∈ s'.outlook.diagnostics
  rw [hlook]
  exact hF.diagnostics.subset hd

end Parser

/-- What the block leaves over, in front of the tokens that are left. -/
inductive Parse.Over (p : Parse) : List (Token × Nat) → List Draft → Prop
  | nothing : p.Over [] []
  | garbage (l : Token × Nat) (ls : List (Token × Nat)) (D : List Draft)
      (told : ∃ d ∈ p.diagnostics, d.span.start = l.1.start) : p.Over (l :: ls) [.grown (.node .garbage D)]

/-- What lies ahead behind the block goes into one node, if it is anything. -/
theorem Parser.leftovers_draws {p : Parse} {i : Input} {s s' : State} {n : Nat} (hs : s.Sound i)
    (h : s.outlook.Candid) (hrun : Production.leftovers (Production.enter n) i s = .ok ((), s'))
    (hdiagnostics : p.diagnostics = s'.diagnostics.toList) : ∃ G, Draws i s s' G ∧ p.Over s.ahead G := by
  obtain ⟨b, t, hend, hrest⟩ := run_bind hrun
  obtain ⟨rfl, rfl⟩ := isAt_yields .error b t hend
  cases hahead : s.ahead with
  | nil =>
    have hnext : s.next = .error := by
      rw [State.next, State.significant_eq, hahead]
      rfl
    rw [hnext] at hrest
    cases hrest
    exact ⟨[], ⟨{ Grows.refl hs.toCoherent with coherent := { hs.toCoherent with } }, trivial⟩, .nothing⟩
  | cons l ls =>
    have hnext : (s.next == .error) = false := by
      rw [beq_eq_false_iff_ne]
      exact fun hnext => by simp [Production.ahead_of_next hs hnext] at hahead
    rw [hnext] at hrest
    have hlook : s.look.Sound i := { hs with }
    obtain ⟨⟨D, hD⟩, hreport⟩ := garbage_draws hlook h hahead () s' hrest
    exact ⟨_, ⟨hD.toGrows.of_look hs, hD.named⟩, .garbage l ls D (hdiagnostics ▸ hreport)⟩

namespace Parse.Course

variable {p : Parse} {i : Input} {first listed blocked left : State}

/-- The drafts up to the end of the block. -/
theorem block (h : p.Course i first listed blocked left) : ∃ L, Draws i i.begun.inside blocked
      (unknownNodes (solidFrom 0 i.tokens) ++ [.grown (.node .block [.grown (.node .statementList L)])]) ∧
    blocked.Sound i ∧ blocked.outlook.Candid := by
  obtain ⟨hfirst, hlook, hsettled⟩ := h.wrapped
  have hcandid : first.outlook.Candid := hlook ▸ Outlook.Candid.settle ⟨nofun, nofun⟩
  have hinside : Draws i first.inside first.inside.inside [.blank] := .inside (Draws.inside hfirst.coherent).coherent
  have w := rows_candid (s := first.inside.inside) { hinside.coherent with settled := hsettled } hcandid
  obtain ⟨a, hlisting⟩ := h.listing
  have hresult := (Trait.candid i).bond.enters i.bound i.bound _ _ _ _ _ _ (.statements ⟨rfl, rfl, w⟩)
    a listed a listed hlisting hlisting
  obtain ⟨L, _, w⟩ := hresult.abreast
  have hblock := h.closing.2 L w.left
  refine ⟨L, hfirst.trans hblock, { hblock.coherent with settled := ?_ }, ?_⟩
  · rw [State.Settled, show blocked.ahead = _ from congrArg Outlook.ahead h.closing.1]
    exact w.leftSettled
  · rw [h.closing.1]
    exact w.holds.2.2

/-- **The drafts of a parse**: unknown characters, a block and what it leaves over. -/
theorem draws (h : p.Course i first listed blocked left) : ∃ L G, p.GrowsFrom i.tokens left.outlook
        (unknownNodes (solidFrom 0 i.tokens) ++ .grown (.node .block [.grown (.node .statementList L)]) :: G) ∧
      (∀ l ∈ (Draft.leavesOfList G).head?, l.1.kind ≠ .invalidChar) ∧ p.Over (Draft.leavesOfList G) G := by
  obtain ⟨L, hblock, hs, hcandid⟩ := h.block
  obtain ⟨G, hG, hover⟩ := leftovers_draws hs hcandid h.leaving h.diagnostics
  have hgrows := h.grows _ (hblock.trans hG)
  have hleaves : blocked.ahead = Draft.leavesOfList G := by rw [hG.ahead, h.ends, List.append_nil]
  rw [List.append_assoc] at hgrows
  exact ⟨L, G, hgrows, hleaves ▸ hs.settled, hleaves ▸ hover⟩

end Parse.Course

/-! ## The nodes among the children -/

namespace Located

/-- The children, with the offsets where they start. -/
def children (l : Located) : List Located := row l.start l.tree.children

/-- The nodes among trees that stand one after the other, with their offsets. -/
def partsOfRow (n : Nat) (ts : List Tree) : List Located := (row n ts).filter (!·.tree.isLeaf)

/-- **The nodes among the children.** -/
def parts (l : Located) : List Located := partsOfRow l.start l.tree.children

theorem partsOfRow_append (n : Nat) (ts us : List Tree) :
    partsOfRow n (ts ++ us) = partsOfRow n ts ++ partsOfRow (n + Tree.sizeOfList ts) us := by
  rw [partsOfRow, row_append, List.filter_append]
  rfl

@[simp] theorem partsOfRow_map_tree (n : Nat) (ts : List Token) : partsOfRow n (ts.map Token.tree) = [] := by
  induction ts generalizing n with
  | nil => rfl
  | cons t ts ih => exact ih (n + t.tree.size)

end Located

section Growing

variable {tokens : List Token} {c : Nat} {R : List (Token × Nat)}

theorem Branch.isLeaf_grow (b : Branch) (c : Nat) : (b.grow tokens c).1.isLeaf = false := by cases b <;> rfl

/-- A node that was grown stands behind its trivia. -/
theorem Draft.partsOfRow_grown (b : Branch) (ds : List Draft) (c : Nat) :
    Located.partsOfRow (offset tokens c) (Draft.growList tokens c (.grown b :: ds)).1 =
      ⟨offset tokens (c + (triviaFrom tokens c).length), (b.grow tokens (c + (triviaFrom tokens c).length)).1⟩ ::
        Located.partsOfRow (offset tokens (b.grow tokens (c + (triviaFrom tokens c).length)).2)
          (Draft.growList tokens (b.grow tokens (c + (triviaFrom tokens c).length)).2 ds).1 := by
  have hnext := @Draft.offset_grow tokens (.grown b) c
  rw [Draft.growList, Located.partsOfRow_append, hnext, Draft.grow, Located.partsOfRow_append,
    Located.partsOfRow_map_tree, offset_add_sizeOfTrivia]
  simp [Located.partsOfRow, Located.row, b.isLeaf_grow]

/-- **Unknown characters in front have a node each.** -/
theorem Draft.partsOfRow_unknownNodes (h : Token.Adjacent 0 tokens) (ds : List Draft) :
    ∀ {ls : List (Token × Nat)} {c : Nat}, solidAfter tokens c = Draft.leavesOfList (unknownNodes ls) ++ R →
      ∃ c', solidAfter tokens c' = R ∧
        Located.partsOfRow (offset tokens c) (Draft.growList tokens c (unknownNodes ls ++ ds)).1 =
          (ls.takeWhile (·.1.kind = .invalidChar)).map (fun l => ⟨l.1.start, .node .error [l.1.tree]⟩) ++
            Located.partsOfRow (offset tokens c') (Draft.growList tokens c' ds).1
  | [], c, hsolid => ⟨c, hsolid, rfl⟩
  | (t, k) :: ls, c, hsolid => by
    rw [unknownNodes] at hsolid ⊢
    by_cases ht : t.kind = .invalidChar
    · rw [if_pos ht] at hsolid ⊢
      obtain ⟨rfl, -, -, ⟨us, hdrop⟩, hrest⟩ := take_of_solidAfter hsolid
      obtain ⟨c', hc', hparts⟩ := Draft.partsOfRow_unknownNodes h ds hrest
      have hgrow : (Branch.node .error [.leaf (c + (triviaFrom tokens c).length) t]).grow tokens
          (c + (triviaFrom tokens c).length) =
            (.node .error [t.tree], c + (triviaFrom tokens c).length + 1) := by
        simp [Branch.grow, Draft.growList, Draft.grow, hdrop]
      refine ⟨c', hc', ?_⟩
      rw [List.cons_append, Draft.partsOfRow_grown, hgrow, hparts, ← h.start_eq hdrop,
        List.takeWhile_cons_of_pos (by simpa using ht)]
      rfl
    · rw [if_neg ht] at hsolid ⊢
      refine ⟨c, hsolid, ?_⟩
      rw [List.takeWhile_cons_of_neg (by simpa using ht)]
      rfl

/-- A node that has a token begins with the next one. -/
theorem Branch.head?_leaves_grow {b : Branch} {l : Token × Nat} {ls : List (Token × Nat)}
    (h : solidAfter tokens c = b.leaves) (hl : b.leaves = l :: ls) :
    (b.grow tokens (c + (triviaFrom tokens c).length)).1.leaves.head? = some l.1.leaf := by
  obtain ⟨-, -, -, ⟨us, hdrop⟩, -⟩ := take_of_solidAfter (t := l.1) (k := l.2) (h.trans hl)
  obtain ⟨hnext, -⟩ := take_of_solidAfter (t := l.1) (k := l.2) (h.trans hl)
  rw [hnext] at hdrop
  rw [← solidAfter_triviaFrom] at h
  set k := c + (triviaFrom tokens c).length
  have hleaves := @Branch.leaves_grow tokens b k
  cases hhead : (b.grow tokens k).1.leaves with
  | nil =>
    -- nothing would have been taken
    have hempty := (b.withoutTrivia_grow k (R := []) (by rw [h, List.append_nil])).2
    have hlength := congrArg List.length hleaves
    have hpos := congrArg List.length hdrop
    simp only [hhead, List.nil_append, List.length_map, List.length_drop, List.length_cons] at hlength hpos
    have hsame : (b.grow tokens k).2 = k := by omega
    rw [hsame, h, hl] at hempty
    cases hempty
  | cons x xs =>
    rw [hhead, hdrop, List.map_cons, List.cons_append] at hleaves
    rw [List.head?_cons, (List.cons.inj hleaves).1]

/-- **The first significant token from an offset on** lies ahead there. -/
theorem find?_offset (h : Token.Adjacent 0 tokens) (hfilled : ∀ t ∈ tokens, t.text ≠ "")
    (hsolid : solidAfter tokens c = R) (hsettled : ∀ l ∈ R.head?, l.1.kind ≠ .invalidChar) :
    tokens.find? (fun t => offset tokens c ≤ t.start && t.isSignificant) = R.head?.map Prod.fst := by
  have hdrop : tokens.find? (fun t => offset tokens c ≤ t.start && t.isSignificant) =
      (tokens.drop c).find? Token.isSignificant := by
    rw [← h.filter_offset hfilled c, List.find?_filter]
    simp
  have hfst : (tokens.drop c).filter (!·.kind.isTrivia) = R.map Prod.fst := by
    rw [← map_fst_solidFrom c, show solidFrom c (tokens.drop c) = R from hsolid]
  have hskip : (tokens.drop c).find? Token.isSignificant = (R.map Prod.fst).find? Token.isSignificant := by
    rw [← hfst, List.find?_filter]
    refine congrArg (List.find? · _) (funext fun t => ?_)
    by_cases htrivia : t.kind.isTrivia <;>
      simp [Token.isSignificant, Kind.isSignificant, htrivia, bne, beq_eq_decide]
  rw [hdrop, hskip]
  cases R with
  | nil => rfl
  | cons l R =>
    have htrivia : l.1.kind.isTrivia = false := (take_of_solidAfter (t := l.1) (k := l.2) hsolid).2.2.1
    have hsignificant : l.1.isSignificant := by
      simp [Token.isSignificant, Kind.isSignificant, htrivia, hsettled l rfl]
    rw [List.map_cons, List.find?_cons_of_pos hsignificant]
    rfl

end Growing

/-! ## The children of what is left over -/

open Grammar Computability in
/-- **What is left over holds statements, what could not be read, and tokens that begin no statement.** -/
theorem Grammar.kind_of_mem_garbage {gaps : Bool} {cs : List Tree} {n : Nat} {l : Located}
    (h : clear (Tree.withoutTriviaInList cs) ∈ production gaps .garbage) (hl : l ∈ Located.row n cs) :
    (l.tree.isLeaf = false → l.kind = .error ∨ l.kind ∈ statementKinds true) ∧
      (l.tree.isLeaf = true → l.kind ∉ KindSet.salvageFirst) := by
  obtain ⟨start, tree⟩ := l
  cases hstray : tree.isStray with
  | true =>
    cases tree with
    | leaf k x =>
      have htrivia : ∀ k ∈ Kind.all, k.isTrivia = true → k ∉ KindSet.salvageFirst := by
        decide +kernel
      exact ⟨nofun, fun _ => htrivia k (Kind.mem_all k) hstray⟩
    | node k ds => exact ⟨fun _ => .inl (of_decide_eq_true hstray), nofun⟩
  | false =>
    cases gaps with
    | false => exact h.elim
    | true =>
      have hmem : tree.withoutTrivia ∈ clear (Tree.withoutTriviaInList cs) := by
        rw [← Located.map_filter_row cs n]
        exact List.mem_map.2 ⟨_, List.mem_filter.2 ⟨hl, by simp [hstray]⟩, rfl⟩
      obtain ⟨rows, hrows, hall⟩ := Language.mem_kstar.1
        (show _ ∈ (statement true + tokenOutside .salvageFirst)∗ from h)
      rw [hrows] at hmem
      obtain ⟨row, hrow, hmem⟩ := List.mem_flatten.1 hmem
      rcases hall row hrow with ⟨k, hk, ds, rfl⟩ | ⟨k, hk, x, rfl⟩
      · obtain ⟨us, rfl⟩ := Tree.exists_node_of_withoutTrivia (List.mem_singleton.1 hmem)
        exact ⟨fun _ => .inr hk, nofun⟩
      · cases tree with
        | leaf k' x' =>
          cases List.mem_singleton.1 hmem
          exact ⟨nofun, fun _ => hk⟩
        | node => cases List.mem_singleton.1 hmem

/-! ## The shape of a chunk -/

/-- **What a block leaves over of the tokens**, in the tree of a parse. -/
structure Parse.LeavesOver (p : Parse) (tokens : List Token) (block : Located) (garbage? : Option Located) : Prop where
  /-- There is something if a significant token stands behind the block. -/
  present : garbage?.isSome ↔ ∃ t ∈ tokens, t.isSignificant ∧ block.stop ≤ t.start
  /-- It begins with the first of them. -/
  first : ∀ g ∈ garbage?, ∃ t, tokens.find? (fun t => block.stop ≤ t.start && t.isSignificant) = some t ∧
    g.start = t.start ∧ g.tree.leaves.head? = some t.leaf ∧ ∃ d ∈ p.diagnostics, d.span.start = t.start
  kind : ∀ g ∈ garbage?, g.kind = .garbage
  nodes : ∀ g ∈ garbage?, ∀ l ∈ g.parts, l.kind = .error ∨ l.kind ∈ Grammar.statementKinds true
  tokens : ∀ g ∈ garbage?, ∀ l ∈ g.children, l.tree.isLeaf = true → l.kind ∉ KindSet.salvageFirst

namespace Parse

variable {p : Parse} {tokens : List Token} {block : Located}

/-- The nodes of the root, if a block was grown behind unknown characters. -/
theorem GrowsFrom.exists_parts {o : Outlook} {B : Branch} {G : List Draft}
    (h : p.GrowsFrom tokens o (unknownNodes (solidFrom 0 tokens) ++ .grown B :: G))
    (hadjacent : Token.Adjacent 0 tokens) : ∃ c d, solidAfter tokens d = Draft.leavesOfList G ∧
      Located.stop ⟨offset tokens c, (B.grow tokens c).1⟩ = offset tokens d ∧ Located.parts ⟨0, p.tree⟩ =
        ((tokens.filter (!·.kind.isTrivia)).takeWhile (·.kind = .invalidChar)).map
          (fun t => ⟨t.start, .node .error [t.tree]⟩) ++
        ⟨offset tokens c, (B.grow tokens c).1⟩ ::
          Located.partsOfRow (offset tokens d) (Draft.growList tokens d G).1 := by
  have hsolid := h.solidAfter_eq
  rw [List.append_nil, Draft.leavesOfList_append] at hsolid
  obtain ⟨c, hc, hparts⟩ := Draft.partsOfRow_unknownNodes hadjacent (.grown B :: G) hsolid
  rw [Draft.partsOfRow_grown] at hparts
  rw [Draft.leavesOfList, ← solidAfter_triviaFrom] at hc
  refine ⟨_, _, (B.withoutTrivia_grow _ hc).2, B.offset_grow _, ?_⟩
  rw [← map_fst_solidFrom 0, List.takeWhile_map, List.map_map, Located.parts, h.tree, Tree.children,
    Located.partsOfRow_append, Located.partsOfRow_map_tree, List.append_nil]
  exact hparts

theorem LeavesOver.nothing (h : tokens.find? (fun t => block.stop ≤ t.start && t.isSignificant) = none) :
    p.LeavesOver tokens block none := by
  have hnone {P : Located → Prop} : ∀ g ∈ (none : Option Located), P g := fun _ hg => absurd hg (Option.not_mem_none _)
  refine ⟨iff_of_false (by simp) ?_, hnone, hnone, hnone, hnone⟩
  rintro ⟨t, ht, hsignificant, hstop⟩
  exact List.find?_eq_none.1 h t ht (by simp [hsignificant, hstop])

/-- Of a node with what is left over all is known but its first token. -/
theorem LeavesOver.garbage {gaps : Bool} {g : Located} {t : Token}
    (h : tokens.find? (fun t => block.stop ≤ t.start && t.isSignificant) = some t) (hkind : g.kind = .garbage)
    (hproduction : Grammar.clear (Tree.withoutTriviaInList g.tree.children) ∈ Grammar.production gaps .garbage)
    (hstart : g.start = t.start) (hfirst : g.tree.leaves.head? = some t.leaf)
    (htold : ∃ d ∈ p.diagnostics, d.span.start = t.start) : p.LeavesOver tokens block (some g) := by
  have hchildren := fun l (hl : l ∈ g.children) => Grammar.kind_of_mem_garbage hproduction hl
  refine ⟨iff_of_true rfl ⟨t, List.mem_of_find?_eq_some h, ?_⟩, ?_, ?_, ?_, ?_⟩
  · have hfound := List.find?_some h
    simpa [and_comm] using hfound
  · rintro _ ⟨⟩
    exact ⟨t, h, hstart, hfirst, htold⟩
  · rintro _ ⟨⟩
    exact hkind
  · rintro _ ⟨⟩ m hm
    obtain ⟨hm, hnode⟩ := List.mem_filter.1 hm
    exact (hchildren m hm).1 (by simpa using hnode)
  · rintro _ ⟨⟩ m hm
    exact (hchildren m hm).2

end Parse

/-- **The shape of a chunk.**  Its nodes are one Error node for each unknown character in front, one block, and at most
one more, which stands there if the block leaves a significant token over: it begins with this token, at which
something is reported, and no token in it that begins a statement is left outside of one. -/
theorem chunk_of_parse (source : String) (settings : Settings) : ∃ p block garbage?,
    parse source settings = .ok p ∧ p.tree.kind = .chunk ∧
    Located.parts ⟨0, p.tree⟩ = (((lex source).filter (!·.kind.isTrivia)).takeWhile (·.kind = .invalidChar)).map
      (fun t => ⟨t.start, .node .error [t.tree]⟩) ++ block :: garbage?.toList ∧
    block.kind = .block ∧ p.LeavesOver (lex source) block garbage? := by
  obtain ⟨p, hp, gaps, hconforms, -⟩ := parse_conforms source settings
  obtain ⟨first, listed, blocked, left, hcourse⟩ := course_of_parse hp
  obtain ⟨L, G, hF, hsettled, hover⟩ := hcourse.draws
  have htiles := tiles_lex source
  change p.GrowsFrom (lex source) _ (unknownNodes (solidFrom 0 (lex source)) ++ _) at hF
  obtain ⟨c, d, hd, hstop, hrow⟩ := hF.exists_parts htiles.adjacent
  have hfind := find?_offset htiles.adjacent htiles.filled hd hsettled
  rw [← hstop] at hfind
  have hkind : p.tree.kind = .chunk := by
    rw [hF.tree]
    rfl
  generalize hR : Draft.leavesOfList G = R at hover hfind hd
  cases hover with
  | nothing => exact ⟨p, _, none, hp, hkind, hrow, rfl, .nothing hfind⟩
  | garbage l ls D told =>
    -- what was grown as garbage begins with the first token behind the block
    set b : Branch := .node .garbage D with hb
    have hleaves : b.leaves = l :: ls := by rw [← hR, Draft.leavesOfList, Draft.leavesOfList, List.append_nil]; rfl
    obtain ⟨hk, -, -, ⟨us, hdrop⟩, -⟩ := take_of_solidAfter (t := l.1) (k := l.2) hd
    rw [hk] at hdrop
    rw [Draft.partsOfRow_grown] at hrow
    set g : Located := ⟨_, (b.grow (lex source) (d + (triviaFrom (lex source) d).length)).1⟩ with hg
    have hmem : g.tree ∈ p.tree.children := by
      have hparts : g ∈ Located.parts ⟨0, p.tree⟩ := by simp [hrow]
      exact Located.mem_of_mem_row (List.mem_filter.1 hparts).1
    have heverywhere := (Tree.everywhere_withoutTrivia p.tree).1 hconforms
    rw [hF.tree] at hmem heverywhere
    have hproduction := ((Tree.everywhere_node.1 heverywhere).2 _ hmem).1
    have hfirst := Branch.head?_leaves_grow (hd.trans hleaves.symm) hleaves
    exact ⟨p, _, some g, hp, hkind, hrow, rfl,
      .garbage hfind rfl hproduction (htiles.adjacent.start_eq hdrop).symm hfirst told⟩

end LuaTree
