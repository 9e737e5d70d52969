import LuaTree.Proofs.Abreast.Parse

/-!
# Proofs/Layout — trivia never changes the diagnostics

Two sources with the same tokens but for trivia may place them anywhere.  An offset that a diagnostic
names is where a token starts or stops, or the end of the source, and answers the offset of the same
token in the other source; since tokens do not overlap, two offsets of one source are equal just when
their answers are.  So a report is suppressed in both parses or in neither, and the parses find the same
things wrong, at tokens that correspond to each other (`diagnostics_of_layout`).
-/

namespace LuaTree

open LuaTree.Parser

/-! ## Tokens and offsets that correspond -/

namespace Input

/-- The tokens that are no trivia. -/
def solid (i : Input) : List Token := i.tokens.filter fun t => !t.kind.isTrivia

/-- Tokens with the same number among those that are no trivia. -/
def Matches (i j : Input) (t u : Token) : Prop := (t, u) ∈ i.solid.zip j.solid

/-- Where tokens start that correspond to each other, or where both sources end. -/
def Starts (i j : Input) (m n : Nat) : Prop :=
  (∃ t u, i.Matches j t u ∧ m = t.start ∧ n = u.start) ∨ m = i.size ∧ n = j.size

/-- **Spans that answer each other**: they start at tokens that correspond to each other or where both
sources end, and stop behind such tokens, at the ends or where they started. -/
structure Answers (i j : Input) (x y : Span) : Prop where
  start : i.Starts j x.start y.start
  stop : (∃ t u, i.Matches j t u ∧ x.stop = t.stop ∧ y.stop = u.stop) ∨
    (x.stop = i.size ∧ y.stop = j.size) ∨ (x.stop = x.start ∧ y.stop = y.start)

/-- **Sources with the same tokens but for trivia**, under the same settings. -/
structure Twins (i j : Input) : Prop where
  left : i.Sound
  right : j.Sound
  settings : i.settings = j.settings
  solid : i.solid.map Token.leaf = j.solid.map Token.leaf

section

variable {i j : Input} {t u : Token} {m n m' n' : Nat}

theorem Answers.token (h : i.Matches j t u) : i.Answers j t.span u.span :=
  ⟨.inl ⟨t, u, h, rfl, rfl⟩, .inl ⟨t, u, h, rfl, rfl⟩⟩

theorem Answers.place (h : i.Starts j m n) : i.Answers j (.place m) (.place n) :=
  ⟨h, .inr (.inr ⟨rfl, rfl⟩)⟩

/-- Tokens that match are equal but for their places. -/
theorem Twins.leaf_eq (h : i.Twins j) (ht : i.Matches j t u) : t.leaf = u.leaf := by
  have hall : List.Forall₂ (fun t u => t.leaf = u.leaf) i.solid j.solid := by
    have hsolid := h.solid
    rwa [← List.forall₂_eq_eq_eq, List.forall₂_map_left_iff, List.forall₂_map_right_iff] at hsolid
  exact List.forall₂_zip hall ht

theorem Sound.pairwise_solid (hi : i.Sound) : i.solid.Pairwise fun t u => t.start < u.start :=
  hi.pairwise_start.sublist List.filter_sublist

theorem Sound.start_lt_size (hi : i.Sound) (ht : t ∈ i.solid) : t.start < i.size := by
  have hmem := (List.mem_filter.1 ht).1
  exact (hi.start_lt_stop hmem).trans_le (hi.within t hmem)

theorem pairwise_zip (h : i.Twins j) :
    (i.solid.zip j.solid).Pairwise fun p q => p.1.start < q.1.start ∧ p.2.start < q.2.start := by
  have hi := List.pairwise_iff_getElem.1 h.left.pairwise_solid
  have hj := List.pairwise_iff_getElem.1 h.right.pairwise_solid
  refine List.pairwise_iff_getElem.2 fun m n hm hn hmn => ?_
  simp only [List.length_zip, lt_min_iff] at hm hn
  simp only [List.getElem_zip]
  exact ⟨hi m n hm.1 hn.1 hmn, hj m n hm.2 hn.2 hmn⟩

theorem Starts.lt_or_eq (h : i.Twins j) (hm : i.Starts j m n) :
    m < i.size ∧ n < j.size ∨ m = i.size ∧ n = j.size := by
  refine hm.imp_left ?_
  rintro ⟨t, u, ht, rfl, rfl⟩
  exact ⟨h.left.start_lt_size (List.of_mem_zip ht).1, h.right.start_lt_size (List.of_mem_zip ht).2⟩

/-- **Offsets are equal just when their answers are.** -/
theorem Starts.eq_iff (h : i.Twins j) (hm : i.Starts j m n) (hm' : i.Starts j m' n') :
    m = m' ↔ n = n' := by
  have hpairs {t u t' u' : Token} (ht : i.Matches j t u) (ht' : i.Matches j t' u') :
      t.start = t'.start ↔ u.start = u'.start := by
    have hiff {p q : Token × Token} (h : p.1.start < q.1.start ∧ p.2.start < q.2.start) :
        (p.1.start = q.1.start ↔ p.2.start = q.2.start) ∧ (q.1.start = p.1.start ↔ q.2.start = p.2.start) := by
      simp [h.1.ne, h.1.ne', h.2.ne, h.2.ne']
    exact List.Pairwise.forall_of_forall_of_flip
      (R := fun p q : Token × Token => p.1.start = q.1.start ↔ p.2.start = q.2.start) (fun p _ => by simp)
      ((pairwise_zip h).imp fun h => (hiff h).1) ((pairwise_zip h).imp fun h => (hiff h).2) ht ht'
  have hlt := hm.lt_or_eq h
  have hlt' := hm'.lt_or_eq h
  rcases hm with ⟨t, u, ht, rfl, rfl⟩ | hm
  · rcases hm' with ⟨t', u', ht', rfl, rfl⟩ | hm'
    · exact hpairs ht ht'
    · omega
  · omega

end

end Input

/-! ## Outlooks that answer each other -/

/-- The diagnostics but for unfinished comments, which are looked for in advance. -/
def Outlook.claimed (a : Outlook) : List Diagnostic := a.diagnostics.filter (·.problem ≠ .unfinishedComment)

/-- **Outlooks on the same tokens**, with the same reports. -/
structure Outlook.Twins (i j : Input) (a b : Outlook) : Prop where
  ahead : List.Forall₂ (fun l m => i.Matches j l.1 m.1) a.ahead b.ahead
  limitReached : a.limitReached = b.limitReached
  lastReported : Option.Rel (i.Starts j) a.lastReported b.lastReported
  claimed : List.Forall₂ (Diagnostic.Alike (i.Answers j)) a.claimed b.claimed

namespace Outlook.Twins

variable {i j : Input} {a b : Outlook} {d e : Diagnostic} {ls ms : List (Token × Nat)}

/-- What lies ahead may be given up on both sides. -/
theorem setAhead (h : a.Twins i j b) (hahead : List.Forall₂ (fun l m => i.Matches j l.1 m.1) ls ms) :
    Twins i j { a with ahead := ls } { b with ahead := ms } :=
  ⟨hahead, h.limitReached, h.lastReported, h.claimed⟩

/-- A report is kept on both sides or on neither. -/
theorem told (hi : i.Twins j) (h : Twins i j a b) (hd : d.Alike (i.Answers j) e) :
    Twins i j (a.told d) (b.told e) := by
  have hlast : (a.lastReported = some d.span.start) ↔ (b.lastReported = some e.span.start) := by
    have hrel := h.lastReported
    cases ha : a.lastReported <;> cases hb : b.lastReported <;> rw [ha, hb] at hrel <;> cases hrel
    · simp
    · rename_i hm
      simpa using hm.eq_iff hi hd.span.start
  rw [Outlook.told, Outlook.told]
  by_cases hkept : a.limitReached || a.lastReported == some d.span.start
  · rw [if_pos hkept, if_pos (by simpa [← hlast, ← h.limitReached] using hkept)]
    exact h
  · rw [if_neg hkept, if_neg (by simpa [← hlast, ← h.limitReached] using hkept)]
    refine ⟨h.ahead, h.limitReached, .some hd.span.start, ?_⟩
    rw [Outlook.claimed, Outlook.claimed, List.filter_append, List.filter_append]
    refine List.rel_append h.claimed ?_
    rw [List.filter_singleton, List.filter_singleton, hd.problem]
    cases decide (e.problem ≠ .unfinishedComment) with
    | false => exact .nil
    | true => exact .cons hd .nil

theorem passed (hi : i.Twins j) (h : Twins i j a b)
    (hls : List.Forall₂ (fun l m => i.Matches j l.1 m.1) ls ms) : Twins i j (a.passed ls) (b.passed ms) := by
  induction hls generalizing a b with
  | nil => exact h.setAhead .nil
  | cons hl hls ih =>
    have hkind := congrArg Prod.fst (hi.leaf_eq hl)
    simp only [Token.leaf] at hkind
    rw [Outlook.passed, Outlook.passed, hkind]
    split
    · exact ih (h.told hi ⟨rfl, .token hl, rfl, .nil⟩)
    · exact h.setAhead (.cons hl hls)

theorem settle (hi : i.Twins j) (h : Twins i j a b) : Twins i j a.settle b.settle := h.passed hi h.ahead

theorem advance (hi : i.Twins j) (h : Twins i j a b) : Twins i j a.advance b.advance := by
  have hahead := h.ahead
  rw [Outlook.advance, Outlook.advance]
  cases ha : a.ahead <;> cases hb : b.ahead <;> rw [ha, hb] at hahead <;> cases hahead
  · exact h
  · rename_i l ls m ms hl hls
    have hleaf := Prod.mk.inj (hi.leaf_eq hl)
    refine settle hi ?_
    rw [unquoted, unquoted, hleaf.1, hleaf.2]
    split
    · exact (h.setAhead hls).told hi ⟨rfl, .token hl, rfl, .nil⟩
    · exact h.setAhead hls

theorem kinds (hi : i.Twins j) (h : Twins i j a b) :
    a.significant.map Token.kind = b.significant.map Token.kind := by
  have hsignificant (a : Outlook) :
      a.significant.map Token.kind = (a.ahead.map fun l => l.1.kind).filter Kind.isSignificant := by
    rw [← Function.comp_def Token.kind, ← List.map_map, List.filter_map]
    rfl
  have hkinds : a.ahead.map (fun l => l.1.kind) = b.ahead.map fun l => l.1.kind := by
    rw [← List.forall₂_eq_eq_eq, List.forall₂_map_left_iff, List.forall₂_map_right_iff]
    exact h.ahead.imp fun l m hl => congrArg Prod.fst (hi.leaf_eq hl)
  rw [hsignificant, hsignificant, hkinds]

/-- The next significant tokens correspond to each other. -/
theorem span (h : Twins i j a b) (ha : a.Ready i) (hb : b.Ready j) :
    i.Answers j (a.span i.size) (b.span j.size) := by
  have hahead := h.ahead
  rw [Outlook.span, Outlook.span]
  cases hl : a.ahead <;> cases hm : b.ahead <;> rw [hl, hm] at hahead <;> cases hahead
  · rw [significant, significant, hl, hm]
    exact .place (.inr ⟨rfl, rfl⟩)
  · rename_i hlm _
    rw [ha.significant hl, hb.significant hm]
    exact .token hlm

theorem bail (hi : i.Twins j) (h : Twins i j a b) (ha : a.Ready i) (hb : b.Ready j) (limit : Nat) :
    Twins i j (a.bail limit i.size) (b.bail limit j.size) := by
  rw [Outlook.bail, Outlook.bail, h.limitReached]
  split
  · exact h
  · have hspan := h.span ha hb
    refine ⟨.nil, rfl, .some hspan.start, ?_⟩
    rw [Outlook.claimed, Outlook.claimed, List.filter_append, List.filter_append]
    refine List.rel_append h.claimed (.cons ⟨rfl, ⟨hspan.start, .inr (.inl ?_)⟩, rfl, .nil⟩ .nil)
    -- the report reaches to the ends of both sources
    have := hspan.start.lt_or_eq hi
    simp only [Span.ofLength]
    omega

end Outlook.Twins

/-! ## Two runs over the same tokens -/

theorem trees_unknownNodes {i j : Input} (hi : i.Twins j) {ls ms : List (Token × Nat)}
    (h : List.Forall₂ (fun l m => i.Matches j l.1 m.1) ls ms) :
    Draft.treesOfList (unknownNodes ls) = Draft.treesOfList (unknownNodes ms) := by
  induction h with
  | nil => rfl
  | cons hl _ ih =>
    have hleaf := Prod.mk.inj (hi.leaf_eq hl)
    rw [unknownNodes, unknownNodes, hleaf.1]
    split
    · simp only [Draft.treesOfList, Draft.trees, Branch.tree, ih, hleaf.1, hleaf.2]
    · rfl

theorem trees_row {i j : Input} (hi : i.Twins j) {ls ms : List (Token × Nat)}
    (h : List.Forall₂ (fun l m => i.Matches j l.1 m.1) ls ms) :
    Draft.treesOfList (Draft.row ls) = Draft.treesOfList (Draft.row ms) := by
  rw [Draft.treesOfList_row, Draft.treesOfList_row, ← List.forall₂_eq_eq_eq, List.forall₂_map_left_iff,
    List.forall₂_map_right_iff]
  refine h.imp fun l m hl => ?_
  have hleaf := Prod.mk.inj (hi.leaf_eq hl)
  rw [Token.tree, Token.tree, hleaf.1, hleaf.2]

/-- What two runs over the same tokens have read and built. -/
structure Outlook.SameTokens (i j : Input) (a₀ b₀ a b : Outlook) (F G : List Draft) : Prop where
  before : List.Forall₂ (fun l m => i.Matches j l.1 m.1) a₀.ahead b₀.ahead
  twins : a.Twins i j b
  trees : Draft.treesOfList F = Draft.treesOfList G

/-- Tokens that are read in two runs correspond to each other. -/
theorem Outlook.SameTokens.leaves {i j : Input} {a₀ b₀ a b : Outlook} {F G : List Draft}
    (h : SameTokens i j a₀ b₀ a b F G) (ha : a₀.ahead = Draft.leavesOfList F ++ a.ahead)
    (hb : b₀.ahead = Draft.leavesOfList G ++ b.ahead) :
    List.Forall₂ (fun l m => i.Matches j l.1 m.1) (Draft.leavesOfList F) (Draft.leavesOfList G) := by
  have hlength := congrArg List.length (congrArg Tree.leavesOfList h.trees)
  rw [Draft.leaves_treesOfList, Draft.leaves_treesOfList, List.length_map, List.length_map] at hlength
  have htake := List.forall₂_take_append _ _ _ (hb ▸ h.before)
  rwa [ha, ← hlength, List.take_left] at htake

/-- Spans of tokens that correspond to each other answer each other. -/
theorem answers_of_spanOf {i j : Input} {a b : Outlook} {ls ms : List (Token × Nat)} {x y : Span}
    (hx : SpanOf a i.size ls x) (hy : SpanOf b j.size ms y)
    (h : List.Forall₂ (fun l m => i.Matches j l.1 m.1) ls ms)
    (hspan : i.Answers j (a.span i.size) (b.span j.size)) : i.Answers j x y := by
  rcases hx with ⟨l, l', hl, hl', hstart, hstop⟩ | ⟨rfl, rfl⟩
  · rcases hy with ⟨m, m', hm, hm', hstart', hstop'⟩ | ⟨rfl, rfl⟩
    · have hfirst {ls ms : List (Token × Nat)} {l m : Token × Nat}
          (h : List.Forall₂ (fun l m => i.Matches j l.1 m.1) ls ms) (hl : ls.head? = some l)
          (hm : ms.head? = some m) : i.Matches j l.1 m.1 := by
        cases h with
        | nil => cases hl
        | cons h _ =>
          cases hl
          cases hm
          exact h
      rw [← List.head?_reverse] at hl' hm'
      have hlast := hfirst (List.rel_reverse h) hl' hm'
      exact ⟨.inl ⟨_, _, hfirst h hl hm, hstart, hstart'⟩, .inl ⟨_, _, hlast, hstop, hstop'⟩⟩
    · cases h
      cases hl
  · cases h
    rcases hy with ⟨m, m', hm, -⟩ | ⟨-, rfl⟩
    · cases hm
    · exact .place hspan.start

/-- **Trivia does not matter to a run**, nor to what it reports. -/
def Parser.Bond.sameTokens {i j : Input} (hi : i.Twins j) : Bond i j where
  Holds := Outlook.SameTokens i j
  Spans := i.Answers j
  settings := hi.settings
  now h := ⟨h.twins.ahead, h.twins, rfl⟩
  trans h h' := by
    refine ⟨h.before, h'.twins, ?_⟩
    rw [Draft.treesOfList_append, Draft.treesOfList_append, h.trees, h'.trees]
  blank_left := ⟨fun h => ⟨h.before, h.twins, h.trees⟩, fun h => ⟨h.before, h.twins, h.trees⟩⟩
  blank_right := ⟨fun h => ⟨h.before, h.twins, h.trees⟩, fun h => ⟨h.before, h.twins, h.trees⟩⟩
  wrapping h := ⟨h.before, h.twins, h.trees⟩
  close h hd he _ _ := by
    refine ⟨h.before, h.twins, ?_⟩
    simp only [Draft.treesOfList, Draft.trees, Draft.tree_close hd, Draft.tree_close he]
    exact congrArg (fun ts => [Tree.node _ ts] ++ []) h.trees
  kinds h := h.twins.kinds hi
  span h := h.twins.span
  spanOf h ha hb _ _ hF hG hx hy := answers_of_spanOf hx hy (h.leaves hF hG) (h.twins.span ha hb)
  told h _ _ hd _ _ _ := ⟨h.before, h.twins.told hi hd, h.trees⟩
  settle h _ _ := ⟨h.before, h.twins.settle hi, trees_unknownNodes hi h.before⟩
  advance h _ _ hl hm := by
    have hbefore := h.before
    rw [hl, hm, List.forall₂_cons] at hbefore
    have hleaf := Prod.mk.inj (hi.leaf_eq hbefore.1)
    refine ⟨h.before, h.twins.advance hi, ?_⟩
    rw [Draft.treesOfList, Draft.treesOfList, trees_unknownNodes hi hbefore.2, Draft.trees, Draft.trees,
      hleaf.1, hleaf.2]
  bail {a b} limit h ha hb := by
    refine ⟨h.before, h.twins.bail hi ha hb limit, ?_⟩
    rw [Outlook.aside, Outlook.aside, h.twins.limitReached]
    split
    · rfl
    · simp only [Draft.treesOfList, Draft.trees, Branch.tree, trees_row hi h.before]

section Parses

variable {source source' : String} {settings : Settings}

theorem twins_of_leaves (settings : Settings) (h : ((lex source).filter fun t => !t.kind.isTrivia).map Token.leaf =
    ((lex source').filter fun t => !t.kind.isTrivia).map Token.leaf) :
    (Input.ofSource source settings).Twins (.ofSource source' settings) :=
  ⟨sound_ofTokens (tiles_lex source) fun _ => isToken_of_mem_lex,
    sound_ofTokens (tiles_lex source') fun _ => isToken_of_mem_lex, rfl, h⟩

/-- Where two parses begin, nothing has been reported and all tokens are ahead. -/
theorem Outlook.Begins.twins {i j : Input} {a b : Outlook} (hi : i.Twins j) (ha : a.Begins i)
    (hb : b.Begins j) : a.Twins i j b := by
  have hnone {i : Input} {a : Outlook} (ha : a.Begins i) : a.claimed = [] :=
    List.filter_eq_nil_iff.2 fun d hd => by simp [ha.problem d hd]
  refine ⟨?_, ha.limitReached.trans hb.limitReached.symm, ?_, ?_⟩
  · have hlength := congrArg List.length hi.solid
    rw [ha.ahead, hb.ahead, List.forall₂_iff_zip]
    simp only [List.length_map, Input.solid, ← map_fst_solidFrom 0] at hlength
    refine ⟨hlength, fun {l m} hlm => ?_⟩
    rw [Input.Matches, Input.solid, Input.solid, ← map_fst_solidFrom 0, ← map_fst_solidFrom 0, List.zip_map]
    exact List.mem_map_of_mem (f := Prod.map Prod.fst Prod.fst) hlm
  · rw [ha.lastReported, hb.lastReported]
    exact .none
  · rw [hnone ha, hnone hb]
    exact .nil

/-- **Sources with the same tokens but for trivia have the same diagnostics**, under the same settings,
one by one and at tokens that correspond to each other, unfinished comments left out; and without trivia
they have the same tree. -/
theorem diagnostics_of_layout (source source' : String) (settings : Settings)
    (h : ((lex source).filter fun t => !t.kind.isTrivia).map Token.leaf =
      ((lex source').filter fun t => !t.kind.isTrivia).map Token.leaf) :
    ∃ p q, parse source settings = .ok p ∧ parse source' settings = .ok q ∧
      List.Forall₂ (Diagnostic.Alike ((Input.ofSource source settings).Answers (.ofSource source' settings)))
        (p.diagnostics.filter (·.problem ≠ .unfinishedComment))
        (q.diagnostics.filter (·.problem ≠ .unfinishedComment)) ∧
      p.tree.withoutTrivia = q.tree.withoutTrivia := by
  obtain ⟨p, hp, -⟩ := parse_conforms source settings
  obtain ⟨q, hq, -⟩ := parse_conforms source' settings
  have hi := twins_of_leaves settings h
  obtain ⟨a₀, b₀, a, b, F, G, -, -, hholds, hF, hG⟩ := (Bond.sameTokens hi).parses
    (fun a b ha hb => ⟨(ha.twins hi hb).ahead, ha.twins hi hb, rfl⟩) hp hq
  refine ⟨p, q, hp, hq, ?_, ?_⟩
  · rw [hF.diagnostics, hG.diagnostics]
    exact hholds.twins.claimed
  · rw [hF.withoutTrivia, hG.withoutTrivia]
    simpa [Draft.treesOfList, Draft.trees] using hholds.trees

/-- A call that is not closed, written out wide. -/
theorem diagnostics_of_layout_of_call :
    ((lex "f(1").filter fun t => !t.kind.isTrivia).map Token.leaf =
        ((lex "f ( 1 -- one").filter fun t => !t.kind.isTrivia).map Token.leaf ∧
      ∃ p q, parse "f(1" .standard = .ok p ∧ parse "f ( 1 -- one" .standard = .ok q ∧
        List.Forall₂ (Diagnostic.Alike ((Input.ofSource "f(1" .standard).Answers
            (.ofSource "f ( 1 -- one" .standard)))
          (p.diagnostics.filter (·.problem ≠ .unfinishedComment))
          (q.diagnostics.filter (·.problem ≠ .unfinishedComment)) ∧
        p.tree.withoutTrivia = q.tree.withoutTrivia :=
  have hleaves : ((lex "f(1").filter fun t => !t.kind.isTrivia).map Token.leaf =
      ((lex "f ( 1 -- one").filter fun t => !t.kind.isTrivia).map Token.leaf := by
    decide +kernel
  ⟨hleaves, diagnostics_of_layout "f(1" "f ( 1 -- one" .standard hleaves⟩

end Parses

end LuaTree
