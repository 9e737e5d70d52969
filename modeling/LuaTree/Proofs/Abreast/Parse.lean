import LuaTree.Proofs.Abreast.Statement
import LuaTree.Proofs.Parse

/-!
# Proofs/Abreast/Parse — two parses side by side

A bond that holds where two parses begin holds where they end, of the drafts of their trees.
-/

namespace LuaTree

open LuaTree.Parser

/-- What the parser reads of a source. -/
def Input.ofSource (source : String) (settings : Settings) : Input :=
  .ofTokens (lex source) source.utf8ByteSize settings

/-- The reports of the block comments without a closing mark, in order. -/
def Token.unfinishedComments (ts : List Token) : List Diagnostic :=
  (ts.filter fun t => Token.closesComment? t.kind t.text.toList = some false).map fun t =>
    ⟨.unfinishedComment, t.span, none, []⟩

/-- **The outlook on a source of which nothing has been read**: only unfinished comments are reported. -/
structure Outlook.Begins (i : Input) (a : Outlook) : Prop where
  ahead : a.ahead = solidFrom 0 i.tokens
  comments : a.diagnostics = Token.unfinishedComments i.tokens
  lastReported : a.lastReported = none
  limitReached : a.limitReached = false

theorem Outlook.Begins.problem {i : Input} {a : Outlook} (h : a.Begins i) :
    ∀ d ∈ a.diagnostics, d.problem = .unfinishedComment := by
  rw [h.comments, Token.unfinishedComments, List.forall_mem_map]
  exact fun _ _ => rfl

/-- **A parse that ends with an outlook** and has grown from some drafts. -/
structure Parse.GrowsFrom (p : Parse) (tokens : List Token) (a : Outlook) (F : List Draft) : Prop where
  tree : p.tree = .node .chunk ((Draft.growList tokens 0 F).1 ++
    (tokens.drop (Draft.growList tokens 0 F).2).map Token.tree)
  leaves : solidFrom 0 tokens = Draft.leavesOfList F
  withoutTrivia : p.tree.withoutTrivia = (Branch.node .chunk F).tree
  diagnostics : p.diagnostics = a.diagnostics
  ends : a.ahead = []

theorem Parse.GrowsFrom.solidAfter_eq {p : Parse} {tokens : List Token} {a : Outlook} {F : List Draft}
    (hp : p.GrowsFrom tokens a F) : solidAfter tokens 0 = Draft.leavesOfList F ++ [] := by
  rw [solidAfter, List.drop_zero, hp.leaves, List.append_nil]

namespace Parser

variable {i j : Input} {s : State} {source source' : String} {settings settings' : Settings} {p q : Parse}

/-- Unfinished comments are reported before anything else, and nothing else is done. -/
theorem reportUnfinishedComments_eq : ∀ (ts : List Token) (s : State), Yields (reportUnfinishedComments ts) i s
    fun _ s' => s' = { s with diagnostics := s.diagnostics ++ (Token.unfinishedComments ts).toArray }
  | [], s => .pure (by simp [Token.unfinishedComments])
  | t :: ts, s => by
    rw [reportUnfinishedComments, Token.unfinishedComments]
    split
    · rename_i h
      rw [List.filter_cons_of_neg (by simp [h])]
      exact reportUnfinishedComments_eq ts s
    · rename_i h
      rw [List.filter_cons_of_pos (by simp [h])]
      refine .modifying ((reportUnfinishedComments_eq ts _).mono fun _ s' h => ?_)
      rw [h, Token.unfinishedComments]
      simp
    · exact .exhausted

/-- Every parse begins with the comments and goes on with the source. -/
theorem run_of_parse (hp : parse source settings = .ok p) : ∃ s₁ s,
    s₁.Coherent (.ofSource source settings) ∧ s₁.outlook.Begins (.ofSource source settings) ∧ s₁.depth = 0 ∧
    reportUnfinishedComments (lex source) (.ofSource source settings) (.initial (lex source)) = .ok ((), s₁) ∧
    Production.chunk (.ofSource source settings) s₁ = .ok ((), s) ∧ s.ahead = [] ∧
    Grows (.ofSource source settings) (.initial (lex source)) s₁ [] ∧
    Tree.ofEvents (lex source) s.events = .ok p.tree ∧ p.diagnostics = s.diagnostics.toList := by
  obtain ⟨s, hrun, htree, hdiagnostics⟩ := run_of_parseTokens hp
  obtain ⟨_, s₁, hcomments, hchunk⟩ := run_bind (p := reportUnfinishedComments (lex source))
    (f := fun _ => Production.chunk) hrun
  have hi : (Input.ofSource source settings).Sound := sound_ofTokens (tiles_lex source)
    fun t => isToken_of_mem_lex
  obtain ⟨hg, hused, -⟩ := Yields.of_ensures (reportUnfinishedComments_reads (lex source)
    (coherent_initial hi) fun t => dashed_of_mem_lex) _ s₁ hcomments
  have heq := reportUnfinishedComments_eq (lex source) (.initial (lex source)) _ s₁ hcomments
  obtain ⟨F, -, -, hend⟩ := Yields.of_ensures (Production.chunk_reads true hg.coherent
    (hused.trans (Nat.sub_self _))) _ s hchunk
  refine ⟨s₁, s, hg.coherent, ⟨hg.ahead.symm, ?_, ?_, ?_⟩, ?_, hcomments, hchunk, hend, hg, htree, hdiagnostics⟩
  · rw [heq]
    simp [State.outlook, State.initial, Input.ofSource, Input.ofTokens]
  · exact heq ▸ rfl
  · exact heq ▸ rfl
  · exact heq ▸ rfl

/-- The tree of a parse is that of the drafts that were recorded. -/
theorem growsFrom_of_draws {s₁ : State} {F : List Draft}
    (hg₁ : Grows (.ofSource source settings) (.initial (lex source)) s₁ [])
    (hg : Draws (.ofSource source settings) s₁ s [.grown (.node .chunk F)]) (hend : s.ahead = [])
    (htree : Tree.ofEvents (lex source) s.events = .ok p.tree) (hdiagnostics : p.diagnostics = s.diagnostics.toList) :
    p.GrowsFrom (lex source) s.outlook F := by
  obtain ⟨hleaves, hgrown⟩ := ofEvents_of_grows (hg₁.trans hg.toGrows) hg.named.1 hend
  dsimp only [Input.ofSource, Input.ofTokens] at hleaves hgrown
  rw [htree] at hgrown
  have heq : p.tree = _ := Except.ok.inj hgrown
  exact ⟨heq, hleaves, heq ▸ withoutTrivia_grown hleaves, hdiagnostics, hend⟩

/-- **A bond that holds where two parses begin holds where they end.** -/
theorem Bond.parses (B : Bond (.ofSource source settings) (.ofSource source' settings'))
    (hB : ∀ a b : Outlook, a.Begins (.ofSource source settings) → b.Begins (.ofSource source' settings') →
      B.Holds a b a b [] [])
    (hp : parse source settings = .ok p) (hq : parse source' settings' = .ok q) : ∃ a₀ b₀ a b F G,
      a₀.Begins (.ofSource source settings) ∧ b₀.Begins (.ofSource source' settings') ∧
      B.Holds a₀ b₀ a b [.grown (.node .chunk F)] [.grown (.node .chunk G)] ∧
      p.GrowsFrom (lex source) a F ∧ q.GrowsFrom (lex source') b G := by
  obtain ⟨s₁, s, hs₁, hbegins, hdepth, -, hrun, hend, hg, htree, hdiagnostics⟩ := run_of_parse hp
  obtain ⟨t₁, t, ht₁, hbegins', hdepth', -, hrun', hend', hg', htree', hdiagnostics'⟩ := run_of_parse hq
  obtain ⟨F, G, w⟩ := Bond.chunk_abreast (B := B) hs₁ ht₁ (hdepth.trans hdepth'.symm)
    (hB _ _ hbegins hbegins') () s () t hrun hrun'
  exact ⟨_, _, _, _, F, G, hbegins, hbegins', w.holds, growsFrom_of_draws hg w.left hend htree hdiagnostics,
    growsFrom_of_draws hg' w.right hend' htree' hdiagnostics'⟩

end Parser

end LuaTree
