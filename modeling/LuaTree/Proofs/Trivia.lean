import LuaTree.Proofs.BailOut

/-!
# Proofs/Trivia — where trivia stands

Trivia is put in front of the node or token that follows it, outside of a node that opens there.  So no node but the
root begins or ends with trivia (`Draft.trimmed_growList`), and trivia at the end of a source stands in the root unless
a node without tokens comes behind it (`Draft.exists_behind_growList`).
-/

namespace LuaTree

open LuaTree.Parser

/-- The children of a node. -/
def Tree.children : Tree → List Tree
  | leaf .. => []
  | node _ cs => cs

/-- **A part that neither begins nor ends with trivia.** -/
structure Located.Trimmed (l : Located) : Prop where
  first : ∀ t ∈ l.tree.children.head?, t.isTrivia = false
  last : ∀ t ∈ l.tree.children.getLast?, t.isTrivia = false
  leaf : ∀ x ∈ l.tree.leaves.head?, x.1.isTrivia = false

variable {tokens : List Token} {c j : Nat} {R : List (Token × Nat)}

/-! ## The ends of a node -/

/-- A child that comes first and is trivia would be the first leaf. -/
theorem Located.Trimmed.of_leaf {n : Nat} {k : Kind} {ts : List Tree} (hlast : ∀ t ∈ ts.getLast?, t.isTrivia = false)
    (hleaf : ∀ x ∈ (Tree.leavesOfList ts).head?, x.1.isTrivia = false) : Trimmed ⟨n, .node k ts⟩ := by
  refine ⟨fun t ht => ?_, hlast, hleaf⟩
  cases ts with
  | nil => cases ht
  | cons u ts =>
    obtain rfl : u = t := Option.some.inj ht
    cases u with
    | leaf k x => exact hleaf (k, x) rfl
    | node k cs => rfl

/-- Where no trivia stands, the next token is none. -/
theorem isTrivia_of_triviaFrom (h : triviaFrom tokens c = []) {t : Token} {us : List Token}
    (ht : tokens.drop c = t :: us) : t.kind.isTrivia = false := by
  rw [triviaFrom, ht] at h
  by_contra htrivia
  rw [List.takeWhile_cons_of_pos (by simpa using htrivia)] at h
  cases h

/-- The first leaf of trees that were grown from there is none, either. -/
theorem isTrivia_of_leaves {ls : List (Kind × String)} {n : Nat} (h : triviaFrom tokens c = [])
    (hls : ls ++ (tokens.drop n).map Token.leaf = (tokens.drop c).map Token.leaf) :
    ∀ x ∈ ls.head?, x.1.isTrivia = false := by
  intro x hx
  obtain ⟨ys, rfl⟩ := List.head?_eq_some_iff.1 hx
  obtain ⟨t, us, hdrop, rfl, -⟩ := List.map_eq_cons_iff.1 hls.symm
  exact isTrivia_of_triviaFrom h hdrop

theorem Branch.isTrivia_grow (b : Branch) (c : Nat) : (b.grow tokens c).1.isTrivia = false := by
  cases b <;> rfl

/-- A leaf comes behind its trivia, and a node as well. -/
theorem Draft.isTrivia_getLast (d : Draft) (c : Nat) (h : solidAfter tokens c = d.leaves ++ R) :
    ∀ t ∈ (d.grow tokens c).1.getLast?, t.isTrivia = false := by
  cases d with
  | blank => simp [Draft.grow]
  | leaf i u =>
    obtain ⟨-, htake, hu, -⟩ := take_of_solidAfter h
    intro t ht
    rw [Draft.grow, htake, List.map_append, List.map_singleton, List.getLast?_concat, Option.mem_some_iff] at ht
    exact ht ▸ hu
  | grown b | wrapping b =>
    intro t ht
    rw [Draft.grow, List.getLast?_concat, Option.mem_some_iff] at ht
    exact ht ▸ b.isTrivia_grow _

theorem Draft.isTrivia_getLastOfList (ds : List Draft) (c : Nat) {R : List (Token × Nat)}
    (h : solidAfter tokens c = Draft.leavesOfList ds ++ R) :
    ∀ t ∈ (Draft.growList tokens c ds).1.getLast?, t.isTrivia = false := by
  induction ds generalizing c with
  | nil => exact fun _ ht => absurd ht (Option.not_mem_none _)
  | cons d ds ih =>
    rw [Draft.leavesOfList, List.append_assoc] at h
    intro t ht
    rw [Draft.growList, List.getLast?_append, Option.mem_def, Option.or_eq_some_iff] at ht
    rcases ht with ht | ⟨-, ht⟩
    · exact ih _ (d.withoutTrivia_grow c h).2 t ht
    · exact d.isTrivia_getLast c h t ht

mutual

theorem Branch.trimmed_grow : ∀ (b : Branch) (c : Nat) {R : List (Token × Nat)},
    solidAfter tokens c = b.leaves ++ R → triviaFrom tokens c = [] →
    ∀ l ∈ Located.nodesFrom (offset tokens c) (b.grow tokens c).1, l.Trimmed
  | .node k ds, c, R, h, htrivia => by
    rw [Branch.grow, Located.nodesFrom, List.forall_mem_cons]
    refine ⟨.of_leaf (Draft.isTrivia_getLastOfList ds c h) ?_, Draft.trimmed_growList ds c h⟩
    exact isTrivia_of_leaves htrivia (Draft.leaves_growList ds c)
  | .wrap b k ds, c, R, h, htrivia => by
    have hleaves := @Branch.leaves_grow tokens (.wrap b k ds) c
    rw [Branch.leaves, List.append_assoc] at h
    have hds := (b.withoutTrivia_grow c h).2
    rw [Branch.grow, Located.nodesFrom, Located.nodesOfRow, b.offset_grow, List.forall_mem_cons,
      List.forall_mem_append]
    refine ⟨.of_leaf ?_ (isTrivia_of_leaves htrivia hleaves), b.trimmed_grow c h htrivia,
      Draft.trimmed_growList ds _ hds⟩
    intro t ht
    rw [← List.singleton_append, List.getLast?_append, Option.mem_def, Option.or_eq_some_iff] at ht
    rcases ht with ht | ⟨-, ht⟩
    · exact Draft.isTrivia_getLastOfList ds _ hds t ht
    · exact Option.some.inj ht ▸ b.isTrivia_grow c

theorem Draft.trimmed_grow : ∀ (d : Draft) (c : Nat) {R : List (Token × Nat)},
    solidAfter tokens c = d.leaves ++ R →
    ∀ l ∈ Located.nodesOfRow (offset tokens c) (d.grow tokens c).1, l.Trimmed
  | .blank, _, _, _ => nofun
  | .leaf .., _, _, _ => by
    rw [Draft.grow, Located.nodesOfRow_map_tree]
    nofun
  | .grown b, c, R, h | .wrapping b, c, R, h => by
    rw [← solidAfter_triviaFrom] at h
    have htrimmed := b.trimmed_grow _ h (triviaFrom_triviaFrom c)
    rw [Draft.grow, Located.nodesOfRow_append, Located.nodesOfRow_map_tree, offset_add_sizeOfTrivia]
    simpa [Located.nodesOfRow] using htrimmed

/-- **No node that was grown begins or ends with trivia.** -/
theorem Draft.trimmed_growList : ∀ (ds : List Draft) (c : Nat) {R : List (Token × Nat)},
    solidAfter tokens c = Draft.leavesOfList ds ++ R →
    ∀ l ∈ Located.nodesOfRow (offset tokens c) (Draft.growList tokens c ds).1, l.Trimmed
  | [], _, _, _ => nofun
  | d :: ds, c, R, h => by
    rw [Draft.leavesOfList, List.append_assoc] at h
    rw [Draft.growList, Located.nodesOfRow_append, d.offset_grow, List.forall_mem_append]
    exact ⟨d.trimmed_grow c h, Draft.trimmed_growList ds _ (d.withoutTrivia_grow c h).2⟩

end

/-! ## The end of a source -/

/-- Behind the trivia at the end of a source there is nothing. -/
theorem length_le_of_trivia (hc : c ≤ j + (triviaFrom tokens j).length) (h : ∀ u ∈ tokens.drop c, u.kind.isTrivia) :
    tokens.length ≤ j + (triviaFrom tokens j).length := by
  by_contra hlt
  have hdrop := List.drop_eq_getElem_cons (not_le.1 hlt)
  have hsuffix : tokens.drop (j + (triviaFrom tokens j).length) ⊆ tokens.drop c :=
    (List.drop_suffix_drop_left tokens hc).subset
  have hnot := isTrivia_of_triviaFrom (triviaFrom_triviaFrom j) hdrop
  have htrivia := h _ (hsuffix (hdrop ▸ List.mem_cons_self))
  exact absurd (htrivia.symm.trans hnot) (by simp)

mutual

theorem Branch.exists_behind_grow : ∀ (b : Branch) (c : Nat) {R : List (Token × Nat)},
    solidAfter tokens c = b.leaves ++ R → c ≤ j → j < (b.grow tokens c).2 → (∀ u ∈ tokens.drop j, u.kind.isTrivia) →
    ∃ l ∈ Located.nodesFrom (offset tokens c) (b.grow tokens c).1, l.start = offset tokens tokens.length
  | .node k ds, c, R, h, hc, hj, htrivia => by
    obtain ⟨l, hl, hstart⟩ := Draft.exists_behind_growList ds c h hc hj htrivia
    exact ⟨l, List.mem_cons_of_mem _ hl, hstart⟩
  | .wrap b k ds, c, R, h, hc, hj, htrivia => by
    rw [Branch.leaves, List.append_assoc] at h
    rw [Branch.grow, Located.nodesFrom, Located.nodesOfRow, b.offset_grow]
    by_cases hlt : j < (b.grow tokens c).2
    · obtain ⟨l, hl, hstart⟩ := b.exists_behind_grow c h hc hlt htrivia
      exact ⟨l, List.mem_cons_of_mem _ (List.mem_append_left _ hl), hstart⟩
    · obtain ⟨l, hl, hstart⟩ := Draft.exists_behind_growList ds _ (b.withoutTrivia_grow c h).2 (not_lt.1 hlt) hj htrivia
      exact ⟨l, List.mem_cons_of_mem _ (List.mem_append_right _ hl), hstart⟩

theorem Draft.exists_behind_grow : ∀ (d : Draft) (c : Nat) {R : List (Token × Nat)},
    solidAfter tokens c = d.leaves ++ R → c ≤ j → j < (d.grow tokens c).2 → (∀ u ∈ tokens.drop j, u.kind.isTrivia) →
    ∃ l ∈ Located.nodesOfRow (offset tokens c) (d.grow tokens c).1, l.start = offset tokens tokens.length
  | .blank, _, _, _, hc, hj, _ => absurd hj (not_lt.2 hc)
  | .leaf i t, c, R, h, hc, hj, htrivia => by
    -- the token of the leaf is no trivia
    obtain ⟨hi, -, ht, ⟨us, hus⟩, -⟩ := take_of_solidAfter h
    have hle : j ≤ i := by
      rw [Draft.grow] at hj
      dsimp only at hj
      omega
    have hmem : t ∈ tokens.drop j := (List.drop_suffix_drop_left tokens hle).subset (hus ▸ List.mem_cons_self)
    exact absurd (htrivia t hmem) (by simp [ht])
  | .grown b, c, R, h, hc, hj, htrivia | .wrapping b, c, R, h, hc, hj, htrivia => by
    rw [← solidAfter_triviaFrom] at h
    rw [Draft.grow, Located.nodesOfRow_append, Located.nodesOfRow_map_tree, offset_add_sizeOfTrivia]
    simp only [Located.nodesOfRow, List.append_nil, List.nil_append]
    by_cases hlt : j < c + (triviaFrom tokens c).length
    · -- the node opens behind the last trivia
      have hend := length_le_of_trivia hlt.le htrivia
      have hoffset : offset tokens (c + (triviaFrom tokens c).length) = offset tokens tokens.length := by
        rw [offset, offset, List.take_of_length_le hend, List.take_length]
      cases b with
      | node | wrap => exact ⟨_, List.mem_cons_self, hoffset⟩
    · exact b.exists_behind_grow _ h (not_lt.1 hlt) hj htrivia

/-- **Trivia at the end is in front of a node without tokens**, if it was grown. -/
theorem Draft.exists_behind_growList : ∀ (ds : List Draft) (c : Nat) {R : List (Token × Nat)},
    solidAfter tokens c = Draft.leavesOfList ds ++ R → c ≤ j → j < (Draft.growList tokens c ds).2 →
    (∀ u ∈ tokens.drop j, u.kind.isTrivia) →
    ∃ l ∈ Located.nodesOfRow (offset tokens c) (Draft.growList tokens c ds).1, l.start = offset tokens tokens.length
  | [], _, _, _, hc, hj, _ => absurd hj (not_lt.2 hc)
  | d :: ds, c, R, h, hc, hj, htrivia => by
    rw [Draft.leavesOfList, List.append_assoc] at h
    rw [Draft.growList, Located.nodesOfRow_append, d.offset_grow]
    by_cases hlt : j < (d.grow tokens c).2
    · obtain ⟨l, hl, hstart⟩ := d.exists_behind_grow c h hc hlt htrivia
      exact ⟨l, List.mem_append_left _ hl, hstart⟩
    · obtain ⟨l, hl, hstart⟩ := Draft.exists_behind_growList ds _ (d.withoutTrivia_grow c h).2 (not_lt.1 hlt) hj htrivia
      exact ⟨l, List.mem_append_right _ hl, hstart⟩

end

/-! ## Rows of trees -/

theorem Located.row_append (n : Nat) (ts us : List Tree) :
    row n (ts ++ us) = row n ts ++ row (n + Tree.sizeOfList ts) us := by
  induction ts generalizing n with
  | nil => rfl
  | cons t ts ih => rw [List.cons_append, row, row, ih, Tree.sizeOfList, List.cons_append, Nat.add_assoc]

/-- Tokens that stand one after the other are where they start. -/
theorem Token.Adjacent.mem_row {n : Nat} {ts : List Token} {t : Token} (h : Adjacent n ts) (ht : t ∈ ts) :
    ⟨t.start, t.tree⟩ ∈ Located.row n (ts.map Token.tree) := by
  induction ts generalizing n with
  | nil => cases ht
  | cons u ts ih =>
    obtain ⟨rfl, h⟩ := h
    rcases List.mem_cons.1 ht with rfl | ht
    · exact List.mem_cons_self
    · exact List.mem_cons_of_mem _ (ih h ht)

/-! ## Trivia of a source -/

section Parses

variable {source : String} {settings : Settings} {p : Parse} {a : Outlook} {F : List Draft} {t : Token}

/-- Every tree has grown from drafts. -/
theorem exists_growsFrom (hp : parse source settings = .ok p) : ∃ a F, p.GrowsFrom (lex source) a F := by
  have hi : (Input.ofSource source settings).Sound := sound_ofTokens (tiles_lex source) fun _ => isToken_of_mem_lex
  obtain ⟨-, a, F, -, -, hF⟩ := (Trait.course hi).parses
    (fun a ha => .below rfl ha.limitReached ha.limitReached (.refl a) (by simp [Draft.troublesOfList])) hp
  exact ⟨a, F, hF⟩

namespace Parse.GrowsFrom

/-- **What stands behind all nodes is in the root.** -/
theorem mem_row_of_behind (hF : p.GrowsFrom (lex source) a F) (ht : t ∈ lex source)
    (hbehind : ∀ u ∈ lex source, t.start ≤ u.start → u.kind.isTrivia) (hnodes : ∀ l ∈ p.tree.nodes, l.start < t.stop) :
    ⟨t.start, t.tree⟩ ∈ Located.row 0 p.tree.children := by
  have htiles := tiles_lex source
  obtain ⟨before, after, hsplit⟩ := List.append_of_mem ht
  have hdrop : (lex source).drop before.length = t :: after := by rw [hsplit, List.drop_left]
  have hstart := htiles.adjacent.start_eq hdrop
  have htrivia : ∀ u ∈ (lex source).drop before.length, u.kind.isTrivia := by
    rw [← htiles.adjacent.filter_offset htiles.filled, ← hstart]
    exact fun u hu => hbehind u (List.mem_filter.1 hu).1 (of_decide_eq_true (List.mem_filter.1 hu).2)
  by_cases hlt : before.length < (Draft.growList (lex source) 0 F).2
  · -- a node behind it would be behind the whole source
    obtain ⟨l, hl, hend⟩ := Draft.exists_behind_growList F 0 hF.solidAfter_eq (Nat.zero_le _) hlt htrivia
    have hstop := (htiles.adjacent.bounds ht).2
    have hbefore := hnodes l (hF.nodes_eq ▸ List.mem_cons_of_mem _ hl)
    rw [hend, offset, List.take_length] at hbefore
    omega
  · have hrow := Located.row_append 0 (Draft.growList (lex source) 0 F).1
      (((lex source).drop (Draft.growList (lex source) 0 F).2).map Token.tree)
    have hadjacent := htiles.adjacent
    rw [← List.take_append_drop (Draft.growList (lex source) 0 F).2 (lex source)] at hadjacent
    have hmem : t ∈ (lex source).drop (Draft.growList (lex source) 0 F).2 :=
      (List.drop_suffix_drop_left _ (not_lt.1 hlt)).subset (hdrop ▸ List.mem_cons_self)
    rw [hF.tree, Tree.children, hrow]
    refine List.mem_append_right _ ?_
    have hoffset := @Draft.offset_growList (lex source) F 0
    rw [show offset (lex source) 0 = 0 from rfl] at hoffset
    rw [hoffset]
    simpa [offset] using hadjacent.append.mem_row hmem

end Parse.GrowsFrom

end Parses

/-- **Where trivia stands.**  No node but the root begins or ends with a child that is trivia, so a node that has a leaf
begins with one that is none; and a token of the trivia at the end of the source, if no node starts behind it, is a
child of the root. -/
theorem trivia_of_parse (source : String) (settings : Settings) : ∃ p, parse source settings = .ok p ∧
    (∀ l ∈ p.tree.nodes.tail, l.Trimmed) ∧
    ∀ t ∈ lex source, (∀ u ∈ lex source, t.start ≤ u.start → u.kind.isTrivia) →
      (∀ l ∈ p.tree.nodes, l.start < t.stop) → ⟨t.start, t.tree⟩ ∈ Located.row 0 p.tree.children := by
  obtain ⟨p, hp, -⟩ := parse_conforms source settings
  obtain ⟨a, F, hF⟩ := exists_growsFrom hp
  refine ⟨p, hp, ?_, fun t ht => hF.mem_row_of_behind ht⟩
  rw [hF.nodes_eq, List.tail_cons]
  exact Draft.trimmed_growList F 0 hF.solidAfter_eq

/-- A comment behind a call. -/
theorem trivia_of_parse_of_comment : ∃ p, parse "f() --" .standard = .ok p ∧
    (∀ u ∈ lex "f() --", 4 ≤ u.start → u.kind.isTrivia) ∧ (∀ l ∈ p.tree.nodes, l.start < 6) ∧
    ⟨4, .leaf .lineComment "--"⟩ ∈ Located.row 0 p.tree.children := by
  have hrun : (parse "f() --" .standard).toOption.map (fun p => decide (∀ l ∈ p.tree.nodes, l.start < 6)) =
      some true := by
    decide +kernel
  have hmem : ⟨.lineComment, 4, "--"⟩ ∈ lex "f() --" := by decide +kernel
  have htrivia : ∀ u ∈ lex "f() --", 4 ≤ u.start → u.kind.isTrivia := by decide +kernel
  obtain ⟨p, hp, -, hrow⟩ := trivia_of_parse "f() --" .standard
  rw [hp] at hrun
  have hnodes : ∀ l ∈ p.tree.nodes, l.start < 6 := of_decide_eq_true (Option.some.inj hrun)
  exact ⟨p, hp, htrivia, hnodes, hrow _ hmem htrivia hnodes⟩

end LuaTree
