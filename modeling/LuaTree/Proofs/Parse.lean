import LuaTree.Parse
import LuaTree.Proofs.Growth
import LuaTree.Proofs.Lexing
import LuaTree.Proofs.Reading.Chunk

/-!
# Proofs/Parse — what every parse does

For all tokens that tile a source, under all settings, the parse ends without a fault, unless a block
comment is too short for its dashes; the tree holds the tokens, each once and in order; and if nothing
was reported, every node has exactly the children that the grammar asks for.
-/

namespace LuaTree

open LuaTree.Parser Grammar

variable {tokens : List Token} {source : String} {settings : Settings}

theorem sound_ofTokens (h : Token.Tiles tokens source) (hk : ∀ t ∈ tokens, t.kind.isToken) :
    (Input.ofTokens tokens source.utf8ByteSize settings).Sound where
  kinds := hk
  filled := h.filled
  ordered := h.adjacent.pairwise
  within t ht := by
    have hbounds := (h.adjacent.bounds ht).2
    rw [Token.sizeOfList, h.text, Nat.zero_add] at hbounds
    exact hbounds
  bound := Nat.lt_succ_self _

theorem coherent_initial {i : Input} (hi : i.Sound) : (State.initial i.tokens).Coherent i :=
  ⟨hi, rfl, Nat.zero_le _, fun _ => ⟨rfl, rfl⟩⟩

/-! ## Unfinished comments -/

/-- Whether the text of a block comment has its two dashes. -/
def Token.Dashed (t : Token) : Prop := Token.closesComment? t.kind t.text.toList ≠ none

theorem Token.dashed_of_ne {t : Token} (h : t.kind ≠ .blockComment) : t.Dashed := by
  rw [Dashed, closesComment?, if_neg h]
  simp

/-- Two characters of one byte are enough. -/
theorem Token.dashed_of_toList {t : Token} {c d : Char} {cs : List Char} (h : t.text.toList = c :: d :: cs)
    (hc : c.utf8Size = 1) (hd : d.utf8Size = 1) : t.Dashed := by
  rw [Dashed, closesComment?]
  split
  · simp [h, dropBytes?, hc, hd]
  · simp

theorem dashed_of_mem_lex {t : Token} (ht : t ∈ lex source) : t.Dashed := by
  by_cases hkind : t.kind = .blockComment
  · obtain ⟨ds, hds⟩ := dashes_of_mem_lex ht hkind
    exact Token.dashed_of_toList hds rfl rfl
  · exact Token.dashed_of_ne hkind

/-- **Unfinished comments are reported before anything is read.** -/
theorem reportUnfinishedComments_reads {i : Input} : ∀ (ts : List Token) {s : State}, s.Coherent i →
    (∀ t ∈ ts, t.Dashed) → Ensures (reportUnfinishedComments ts) i s fun _ s' =>
      Grows i s s' [] ∧ s'.used = s.used ∧
        ((∀ t ∈ ts, Token.closesComment? t.kind t.text.toList = some true) → s' = s)
  | [], s, hs, _ => .pure ⟨.refl hs, rfl, fun _ => rfl⟩
  | t :: ts, s, hs, hd => by
    obtain ⟨ht, hts⟩ := List.forall_mem_cons.1 hd
    rw [reportUnfinishedComments]
    split
    · rename_i h
      refine (reportUnfinishedComments_reads ts hs hts).mono ?_
      rintro _ s' ⟨h₁, h₂, h₃⟩
      refine ⟨h₁, h₂, ?_⟩
      exact fun hclosed => h₃ (List.forall_mem_cons.1 hclosed).2
    · rename_i h
      refine .modifying ?_
      have hdirty {d : Diagnostic} : ¬ State.Clean { s with diagnostics := s.diagnostics.push d } := by
        simp [State.Clean]
      have hg {d : Diagnostic} : Grows i s { s with diagnostics := s.diagnostics.push d } [] :=
        ⟨hs, { hs with reported := fun h => absurd h hdirty }, by simp [Draft.eventsOfList], rfl, rfl,
          by simp⟩
      refine (reportUnfinishedComments_reads ts hg.coherent hts).mono ?_
      rintro _ s' ⟨h₁, h₂, -⟩
      refine ⟨hg.trans h₁, h₂, fun hclosed => ?_⟩
      simp [h] at hclosed
    · rename_i h
      exact absurd h ht

/-- A comment without room for its dashes cannot be read. -/
theorem reportUnfinishedComments_error {i : Input} : ∀ (ts : List Token) (s : State),
    (∃ t ∈ ts, ¬ t.Dashed) → reportUnfinishedComments ts i s = .error (.unreadable .blockComment)
  | [], s, h => by simp at h
  | t :: ts, s, h => by
    have hts : t.Dashed → ∃ t ∈ ts, ¬ t.Dashed := fun hd => by
      obtain ⟨u, hu, hn⟩ := h
      rcases List.mem_cons.1 hu with rfl | hu
      · exact absurd hd hn
      · exact ⟨u, hu, hn⟩
    cases hclosed : Token.closesComment? t.kind t.text.toList with
    | none =>
      have hkind : t.kind = .blockComment := by
        by_contra hne
        exact Token.dashed_of_ne hne hclosed
      rw [reportUnfinishedComments, hclosed, hkind]
      rfl
    | some closed =>
      have ih := fun s => reportUnfinishedComments_error (i := i) ts s (hts (by simp [Token.Dashed, hclosed]))
      rw [reportUnfinishedComments, hclosed]
      cases closed with
      | true => exact ih s
      | false => exact ih _

/-! ## From a run to a tree -/

/-- Behind drafts that hold all the tokens that are no trivia there is trivia only. -/
theorem isTrivia_of_mem_drop {F : List Draft} (h : solidFrom 0 tokens = Draft.leavesOfList F) :
    ∀ t ∈ tokens.drop (Draft.growList tokens 0 F).2, t.kind.isTrivia :=
  isTrivia_of_solidFrom_eq_nil (Draft.withoutTrivia_growList F 0 (R := [])
    (show solidAfter tokens 0 = _ by rw [solidAfter, List.drop_zero, h, List.append_nil])).2

/-- Without trivia the tree of a record is the tree of its drafts, when all that was left is trivia. -/
theorem withoutTrivia_grown {F : List Draft} (h : solidFrom 0 tokens = Draft.leavesOfList F) :
    (Tree.node .chunk ((Draft.growList tokens 0 F).1 ++
      (tokens.drop (Draft.growList tokens 0 F).2).map Token.tree)).withoutTrivia =
        (Branch.node .chunk F).tree := by
  have hgrown := (Draft.withoutTrivia_growList F 0 (R := [])
    (show solidAfter tokens 0 = _ by rw [solidAfter, List.drop_zero, h, List.append_nil])).1
  rw [Tree.withoutTrivia, Tree.withoutTriviaInList_append, hgrown,
    Tree.withoutTriviaInList_trivia (isTrivia_of_mem_drop h), List.append_nil, Branch.tree]

/-- **The record of one tree that leaves nothing over** is replayed to that tree. -/
theorem ofEvents_of_grows {i : Input} {s : State} {F : List Draft}
    (hg : Grows i (.initial i.tokens) s [.grown (.node .chunk F)])
    (hnamed : (Branch.node .chunk F).tree.Named) (hend : s.ahead = []) :
    solidFrom 0 i.tokens = Draft.leavesOfList F ∧
      Tree.ofEvents i.tokens s.events = .ok (.node .chunk ((Draft.growList i.tokens 0 F).1 ++
        (i.tokens.drop (Draft.growList i.tokens 0 F).2).map Token.tree)) := by
  have hleaves : solidFrom 0 i.tokens = Draft.leavesOfList F := by
    have hahead : solidFrom 0 i.tokens = _ := hg.ahead
    simpa [hend, Draft.leavesOfList, Draft.leaves, Branch.leaves] using hahead
  have hevents : s.events.toList = (Branch.node .chunk F).events none := by
    simpa [State.initial, Draft.eventsOfList, Draft.events] using hg.events
  have hl : ∀ l ∈ Draft.leavesOfList F, l.2 < i.tokens.length := fun l hl => by
    have := (lt_of_mem_solidFrom (hleaves ▸ hl)).2
    omega
  exact ⟨hleaves, Tree.ofEvents_grown hevents hnamed hl⟩

/-- **A run that records one tree and leaves nothing over** makes the parse. -/
theorem parseTokens_of_whole {Q : State → Tree → Prop} (h : Token.Tiles tokens source)
    (hrun : Ensures whole (.ofTokens tokens source.utf8ByteSize settings) (.initial tokens) fun _ s' =>
      ∃ F, Grows (.ofTokens tokens source.utf8ByteSize settings) (.initial tokens) s'
        [.grown (.node .chunk F)] ∧ (Branch.node .chunk F).tree.Named ∧ s'.ahead = [] ∧
          Q s' (Branch.node .chunk F).tree) :
    ∃ p s', parseTokens tokens source.utf8ByteSize settings = .ok p ∧
      p.tree.leaves = tokens.map Token.leaf ∧ p.diagnostics = s'.diagnostics.toList ∧
        Q s' p.tree.withoutTrivia := by
  obtain ⟨_, s', hrun, F, hg, hnamed, hend, hQ⟩ := hrun
  obtain ⟨hleaves, htree⟩ := ofEvents_of_grows hg hnamed hend
  dsimp only [Input.ofTokens] at hleaves htree
  set t := Tree.node .chunk ((Draft.growList tokens 0 F).1 ++
      (tokens.drop (Draft.growList tokens 0 F).2).map Token.tree) with ht
  have hall : t.leaves = tokens.map Token.leaf := by
    rw [ht, Tree.leaves, Tree.leavesOfList_append, Tree.leavesOfList_map_tree]
    exact Draft.leaves_growList F 0
  have hsize : t.size = source.utf8ByteSize := by
    rw [← Tree.utf8ByteSize_text, (Tree.tokens_and_text_of_leaves h hall).2]
  refine ⟨⟨t, s'.diagnostics.toList⟩, s', ?_, hall, rfl, ?_⟩
  · have hrun' : (whole.run (.ofTokens tokens source.utf8ByteSize settings)).run (.initial tokens) =
        .ok ((), s') := hrun
    rw [parseTokens, hrun']
    change (Tree.ofEvents tokens s'.events >>= fun tree => _) = _
    rw [htree]
    change (if t.size ≠ _ then _ else _) = _
    rw [if_neg (not_not.2 hsize)]
    rfl
  · change Q s' t.withoutTrivia
    rw [ht, withoutTrivia_grown hleaves]
    exact hQ

/-- A parse comes from a run. -/
theorem run_of_parseTokens {tokens : List Token} {size : Nat} {settings : Settings} {p : Parse}
    (h : parseTokens tokens size settings = .ok p) : ∃ s,
      whole (.ofTokens tokens size settings) (.initial tokens) = .ok ((), s) ∧
        Tree.ofEvents tokens s.events = .ok p.tree ∧ p.diagnostics = s.diagnostics.toList := by
  unfold parseTokens at h
  cases hrun : (whole.run (.ofTokens tokens size settings)).run (.initial tokens) with
  | error e =>
    rw [hrun] at h
    cases h
  | ok r =>
    rw [hrun] at h
    cases htree : Tree.ofEvents tokens r.2.events with
    | error e =>
      simp [bind, Except.bind, htree] at h
    | ok tree =>
      simp only [bind, Except.bind, htree] at h
      split at h
      · cases h
      · cases h
        exact ⟨r.2, hrun, htree, rfl⟩

/-! ## Clean parses -/

/-- What can only stand in the tree of a source with mistakes. -/
def troubleKinds : List Kind := [.error, .garbage, .expressionStatement]

/-- **Every node has exactly the children that the grammar asks for**, and none marks trouble. -/
def Tree.Derives (t : Tree) : Prop :=
  t.Everywhere fun k cs => cs ∈ production false k ∧ k ∉ troubleKinds

theorem not_mem_production {k : Kind} (h : k ∈ .tombstone :: troubleKinds) (ts : List Tree) :
    ts ∉ production false k := by
  simp only [troubleKinds, List.mem_cons, List.not_mem_nil, or_false] at h
  rcases h with rfl | rfl | rfl | rfl <;> exact id

mutual

theorem Tree.Conforms.derives : ∀ {t : Tree}, t.Conforms false → t.Derives ∧ isError t = false
  | .leaf .., _ => ⟨trivial, rfl⟩
  | .node k cs, h => by
    obtain ⟨hcs, hclear⟩ := derivesInList h.2
    have hk : k ∉ .tombstone :: troubleKinds := fun hk => not_mem_production hk _ h.1
    refine ⟨⟨⟨hclear ▸ h.1, fun h => hk (List.mem_cons_of_mem _ h)⟩, hcs⟩, isError_node ?_⟩
    rintro rfl
    exact hk (by decide)

theorem Tree.Conforms.derivesInList : ∀ {ts : List Tree}, ConformInList false ts →
    Tree.EverywhereInList (fun k cs => cs ∈ production false k ∧ k ∉ troubleKinds) ts ∧ clear ts = ts
  | [], _ => ⟨trivial, rfl⟩
  | t :: ts, h => by
    obtain ⟨h₁, h₂⟩ := derives h.1
    obtain ⟨h₃, h₄⟩ := derivesInList h.2
    exact ⟨⟨h₁, h₃⟩, by rw [clear, List.filter_cons_of_pos (by simp [h₂]), ← clear, h₄]⟩

end

/-- **The parse of tokens whose comments have their dashes**, with gaps unless nothing is reported. -/
theorem parseTokens_conforms (h : Token.Tiles tokens source) (hk : ∀ t ∈ tokens, t.kind.isToken)
    (hd : ∀ t ∈ tokens, t.Dashed) (settings : Settings) :
    ∃ p, parseTokens tokens source.utf8ByteSize settings = .ok p ∧
      p.tree.leaves = tokens.map Token.leaf ∧ p.tree.withoutTrivia.kind = .chunk ∧
      ∃ gaps, p.tree.withoutTrivia.Conforms gaps ∧ (p.diagnostics = [] → gaps = false) := by
  have hi : (Input.ofTokens tokens source.utf8ByteSize settings).Sound := sound_ofTokens h hk
  have hnamed {gaps : Bool} {s : State} {F : List Draft} (hgaps : s.Clean ∨ gaps)
      (hf : Fits gaps s (around .chunk (production gaps .chunk)) [.grown (.node .chunk F)]) :
      (Branch.node .chunk F).tree.Conforms gaps ∧ (Branch.node .chunk F).tree.Named := by
    have hconforms := (hf hgaps).1.1
    refine ⟨hconforms, Tree.Everywhere.mono (fun k cs hcs => ?_) _ hconforms⟩
    rintro rfl
    exact hcs
  have hrun : Ensures whole (.ofTokens tokens source.utf8ByteSize settings) (.initial tokens) fun _ s' =>
      ∃ F, Grows (.ofTokens tokens source.utf8ByteSize settings) (.initial tokens) s'
        [.grown (.node .chunk F)] ∧ (Branch.node .chunk F).tree.Named ∧ s'.ahead = [] ∧
        (Branch.node .chunk F).tree.kind = .chunk ∧
          ∃ gaps, (Branch.node .chunk F).tree.Conforms gaps ∧ (s'.Clean → gaps = false) := by
    refine .read ((reportUnfinishedComments_reads _ (coherent_initial hi) hd).bind ?_)
    rintro _ s₁ ⟨hg₁, hu, -⟩
    have hu : s₁.used = 0 := hu.trans (Nat.sub_self _)
    refine ((Production.chunk_reads true hg₁.coherent hu).and
      (Production.chunk_reads false hg₁.coherent hu)).mono fun _ s' ⟨hgaps, hfull⟩ => ?_
    by_cases hclean : s'.Clean
    · obtain ⟨F, hg, hf, hend⟩ := hfull
      obtain ⟨hconforms, hnamed⟩ := hnamed (.inl hclean) hf
      exact ⟨F, hg₁.trans hg, hnamed, hend, rfl, false, hconforms, fun _ => rfl⟩
    · obtain ⟨F, hg, hf, hend⟩ := hgaps
      obtain ⟨hconforms, hnamed⟩ := hnamed (.inr rfl) hf
      exact ⟨F, hg₁.trans hg, hnamed, hend, rfl, true, hconforms, fun h => absurd h hclean⟩
  obtain ⟨p, s', hp, hleaves, hdiagnostics, hkind, gaps, hconforms, hgaps⟩ := parseTokens_of_whole
    (Q := fun s t => t.kind = .chunk ∧ ∃ gaps, t.Conforms gaps ∧ (s.Clean → gaps = false)) h hrun
  refine ⟨p, hp, hleaves, hkind, gaps, hconforms, fun hnil => hgaps ?_⟩
  exact Array.toList_eq_nil_iff.1 (hdiagnostics ▸ hnil)

/-- Where nothing is reported, a parse is a tree of the grammar. -/
theorem parseTokens_spec (h : Token.Tiles tokens source) (hk : ∀ t ∈ tokens, t.kind.isToken)
    (hd : ∀ t ∈ tokens, t.Dashed) (settings : Settings) :
    ∃ p, parseTokens tokens source.utf8ByteSize settings = .ok p ∧
      p.tree.leaves = tokens.map Token.leaf ∧
      (p.diagnostics = [] → p.tree.withoutTrivia.kind = .chunk ∧ p.tree.withoutTrivia.Derives) := by
  obtain ⟨p, hp, hleaves, hkind, gaps, hconforms, hgaps⟩ := parseTokens_conforms h hk hd settings
  refine ⟨p, hp, hleaves, fun hnil => ⟨hkind, ?_⟩⟩
  obtain rfl := hgaps hnil
  exact hconforms.derives.1

/-- **The parse of any source**, with gaps unless nothing is reported. -/
theorem parse_conforms (source : String) (settings : Settings) : ∃ p, parse source settings = .ok p ∧
    ∃ gaps, p.tree.withoutTrivia.Conforms gaps ∧ (p.diagnostics = [] → gaps = false) := by
  obtain ⟨p, hp, -, -, hconforms⟩ := parseTokens_conforms (tiles_lex source) (fun t => isToken_of_mem_lex)
    (fun t => dashed_of_mem_lex) settings
  exact ⟨p, hp, hconforms⟩

theorem parseTokens_error (hd : ∃ t ∈ tokens, ¬ t.Dashed) (size : Nat) (settings : Settings) :
    parseTokens tokens size settings = .error (.unreadable .blockComment) := by
  have hrun : whole (.ofTokens tokens size settings) (.initial tokens) =
      .error (.unreadable .blockComment) := by
    have h := reportUnfinishedComments_error (i := .ofTokens tokens size settings) tokens
      (.initial tokens) hd
    change (reportUnfinishedComments tokens _ _ >>= fun r => _) = _
    rw [h]
    rfl
  have hrun : (whole.run (.ofTokens tokens size settings)).run (.initial tokens) =
      .error (.unreadable .blockComment) := hrun
  rw [parseTokens, hrun]
  rfl

/-! ## Every parse -/

/-- **Every parse ends with a tree**: for tokens that tile a source and whose block comments have room for
their dashes, and for the tokens of any source, whatever the nesting limit is and whatever is done with bare
expressions. -/
theorem parse_total :
    (∀ (source : String) (tokens : List Token) (settings : Settings), Token.Tiles tokens source →
      (∀ t ∈ tokens, t.kind.isToken) →
      (∀ t ∈ tokens, t.kind = .blockComment →
        ∃ c d cs, t.text.toList = c :: d :: cs ∧ c.utf8Size = 1 ∧ d.utf8Size = 1) →
      ∃ p, parseTokens tokens source.utf8ByteSize settings = .ok p) ∧
    ∀ (source : String) (settings : Settings), ∃ p, parse source settings = .ok p := by
  have htotal : ∀ (source : String) (tokens : List Token) (settings : Settings),
      Token.Tiles tokens source → (∀ t ∈ tokens, t.kind.isToken) →
      (∀ t ∈ tokens, t.kind = .blockComment →
        ∃ c d cs, t.text.toList = c :: d :: cs ∧ c.utf8Size = 1 ∧ d.utf8Size = 1) →
      ∃ p, parseTokens tokens source.utf8ByteSize settings = .ok p := by
    intro source tokens settings h hk hcomments
    have hd : ∀ t ∈ tokens, t.Dashed := fun t ht => by
      by_cases hkind : t.kind = .blockComment
      · obtain ⟨c, d, cs, htext, hc, hd⟩ := hcomments t ht hkind
        exact Token.dashed_of_toList htext hc hd
      · exact Token.dashed_of_ne hkind
    obtain ⟨p, hp, -⟩ := parseTokens_spec h hk hd settings
    exact ⟨p, hp⟩
  refine ⟨htotal, fun source settings => ?_⟩
  refine htotal source (lex source) settings (tiles_lex source) (fun t => isToken_of_mem_lex) ?_
  intro t ht hkind
  obtain ⟨ds, hds⟩ := dashes_of_mem_lex ht hkind
  exact ⟨'-', '-', ds, hds, rfl, rfl⟩

/-- An unfinished comment, and no nesting at all. -/
theorem parse_total_of_comment :
    ∃ p, parseTokens [⟨.blockComment, 0, "--[["⟩] 4 ⟨some 0, .keep⟩ = .ok p :=
  parse_total.1 "--[[" [⟨.blockComment, 0, "--[["⟩] ⟨some 0, .keep⟩
    ⟨by simp, ⟨rfl, trivial⟩, by simp [Token.textOfList]⟩ (by decide)
    fun _ ht _ => ⟨'-', '-', ['[', '['], by rw [List.mem_singleton.1 ht]; rfl, rfl, rfl⟩

/-- **The tree holds the tokens**, each once, in order and where it stood, and its text is the source;
only a block comment without room for its dashes keeps a parse from ending. -/
theorem tokens_of_parse (source : String) (tokens : List Token) (settings : Settings)
    (h : Token.Tiles tokens source) (hk : ∀ t ∈ tokens, t.kind.isToken) :
    (∃ p, parseTokens tokens source.utf8ByteSize settings = .ok p ∧
      p.tree.tokens = tokens ∧ p.tree.text = source) ∨
    (parseTokens tokens source.utf8ByteSize settings = .error (.unreadable .blockComment) ∧
      ∃ t ∈ tokens, ¬ t.Dashed) := by
  by_cases hd : ∀ t ∈ tokens, t.Dashed
  · obtain ⟨p, hp, hleaves, -⟩ := parseTokens_spec h hk hd settings
    exact .inl ⟨p, hp, Tree.tokens_and_text_of_leaves h hleaves⟩
  · have hd : ∃ t ∈ tokens, ¬ t.Dashed := by simpa using hd
    exact .inr ⟨parseTokens_error hd _ _, hd⟩

/-- Two operators with nothing between them but an unknown character. -/
theorem tokens_of_parse_of_unknown :
    (∃ p, parseTokens [⟨.plus, 0, "+"⟩, ⟨.invalidChar, 1, "?"⟩, ⟨.plus, 2, "+"⟩] 3 ⟨some 1, .keep⟩ = .ok p ∧
      p.tree.tokens = [⟨.plus, 0, "+"⟩, ⟨.invalidChar, 1, "?"⟩, ⟨.plus, 2, "+"⟩] ∧
      p.tree.text = "+?+") ∨
    (parseTokens [⟨.plus, 0, "+"⟩, ⟨.invalidChar, 1, "?"⟩, ⟨.plus, 2, "+"⟩] 3 ⟨some 1, .keep⟩ =
        .error (.unreadable .blockComment) ∧
      ∃ t ∈ [⟨.plus, 0, "+"⟩, ⟨.invalidChar, 1, "?"⟩, ⟨.plus, 2, "+"⟩], ¬ Token.Dashed t) :=
  tokens_of_parse "+?+" [⟨.plus, 0, "+"⟩, ⟨.invalidChar, 1, "?"⟩, ⟨.plus, 2, "+"⟩] ⟨some 1, .keep⟩
    ⟨by simp, ⟨rfl, rfl, rfl, trivial⟩, by decide⟩ (by decide)

/-- **Where nothing is reported, every node has exactly the children that the grammar asks for**, and
no node marks trouble. -/
theorem derives_of_parse (source : String) (settings : Settings) : ∃ p, parse source settings = .ok p ∧
    (p.diagnostics = [] → p.tree.withoutTrivia.kind = .chunk ∧ p.tree.withoutTrivia.Derives) := by
  obtain ⟨p, hp, -, hclean⟩ :=
    parseTokens_spec (tiles_lex source) (fun t => isToken_of_mem_lex) (fun t => dashed_of_mem_lex) settings
  exact ⟨p, hp, hclean⟩

/-! ## Variables -/

/-- Every variable wraps one tree, of one of some kinds. -/
def Tree.VariablesWrap (kinds : List Kind) (t : Tree) : Prop :=
  t.Everywhere fun k cs => k = .var → ∃ kind ∈ kinds, cs.map Tree.kind = [kind]

instance (kinds : List Kind) (t : Tree) : Decidable (t.VariablesWrap kinds) :=
  inferInstanceAs (Decidable (t.Everywhere _))

theorem wrap_of_target {cs : List Tree} (h : cs ∈ target false) :
    ∃ kind ∈ [.nameRef, .indexExpression, .parenExpression], cs.map Tree.kind = [kind] := by
  obtain ⟨⟨k, hk, ds, rfl, -⟩, hcall⟩ := h
  have hne : k ≠ .callExpression := fun hk => by
    have := hcall _ (List.mem_singleton_self _) hk
    cases this
  have hkinds : k = .nameRef ∨ k = .parenExpression ∨ k = .indexExpression := by
    simpa [chainKinds, hne] using hk
  exact ⟨k, by simp only [List.mem_cons]; tauto, rfl⟩

/-- **Where nothing is reported, nothing is assigned to a call**: a variable is a name, what is found at
an index, or an expression in parentheses. -/
theorem variables_of_parse (source : String) (settings : Settings) : ∃ p, parse source settings = .ok p ∧
    (p.diagnostics = [] →
      p.tree.withoutTrivia.VariablesWrap [.nameRef, .indexExpression, .parenExpression]) := by
  obtain ⟨p, hp, gaps, hconforms, hgaps⟩ := parse_conforms source settings
  refine ⟨p, hp, fun hnil => ?_⟩
  obtain rfl := hgaps hnil
  refine Tree.Everywhere.mono (fun k cs hcs hk => ?_) _ hconforms.derives.1
  subst hk
  exact wrap_of_target hcs.1

/-- **An expression in parentheses is assigned to without a word.** -/
theorem parenthesized_variable : ∃ p, parse "(a) = 1" .standard = .ok p ∧ p.diagnostics = [] ∧
    ¬ p.tree.withoutTrivia.VariablesWrap [.nameRef, .indexExpression] := by
  have hrun : (parse "(a) = 1" .standard).toOption.map (fun p =>
      (p.diagnostics.length, decide (p.tree.withoutTrivia.VariablesWrap [.nameRef, .indexExpression]))) =
        some (0, false) := by
    decide +kernel
  cases hp : parse "(a) = 1" .standard with
  | error e =>
    rw [hp] at hrun
    cases hrun
  | ok p =>
    rw [hp] at hrun
    obtain ⟨hnil, hwrap⟩ := Prod.mk.inj (Option.some.inj hrun)
    exact ⟨p, rfl, List.length_eq_zero_iff.1 hnil, of_decide_eq_false hwrap⟩

end LuaTree
