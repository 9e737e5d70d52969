import LuaTree.Proofs.Course
import LuaTree.Proofs.Faults
import LuaTree.Proofs.Seam
import LuaTree.Proofs.Shifting

/-!
# Proofs/Concatenation — a source behind a finished one

A source in which nothing is wrong and that ends with a semicolon leaves nothing behind: no token, no report, no
open node and no limit that has been reached.  So another source behind it is read as if it stood alone, only
further back (`parse_append`).  The list of statements of both together comes to the last semicolon of the first
(`Proofs/Seam`), reads it (`round_of_semicolon`) and goes on like that of the second (`Proofs/Shifting`).
-/

namespace LuaTree

open LuaTree.Parser Nesting

variable {source first second : String} {settings : Settings} {p q : Parse} {i : Input} {s s' : State}

/-! ## Sources without faults -/

/-- Where nothing is reported, all tokens are known and no comment is left open. -/
theorem faultless_of_parse (hp : parse source settings = .ok p) (hclean : p.diagnostics = []) :
    (∀ t ∈ lex source, t.kind ≠ .invalidChar) ∧ Token.unfinishedComments (lex source) = [] := by
  obtain ⟨p', hp', h⟩ := faults_of_parse source settings
  obtain rfl : p = p' := by simpa [hp] using hp'
  rcases h with ⟨d, hd, -⟩ | h
  · simp [hclean] at hd
  · obtain ⟨ds, hcomments, -⟩ := h.comments
    have hunknown := h.unknown
    rw [hclean] at hunknown hcomments
    refine ⟨fun t ht hkind => ?_, (List.append_eq_nil_iff.1 hcomments.symm).1⟩
    have hnil := List.map_eq_nil_iff.1 hunknown.symm
    exact List.filter_eq_nil_iff.1 hnil t ht (by simpa using hkind)

/-- **Behind a semicolon a source is cut.** -/
theorem lex_seam (hlast : ∃ t ∈ (lex first).getLast?, t.kind = .semicolon) (second : String) :
    lex (first ++ second) = lex first ++ (lex second).map (.shift first.utf8ByteSize) := by
  obtain ⟨t, hlast, ht⟩ := hlast
  have hlexeme : (Token.lexemes first.toList).getLast?.map Prod.fst = some .semicolon := by
    rw [Token.lexemes, ← lex, List.getLast?_map, show (lex first).getLast? = some t from hlast]
    exact congrArg some ht
  have h := Token.lex_append (Token.lexemes_seam hlexeme second.toList).2
  rwa [← String.toList_append, String.ofList_toList, String.ofList_toList, String.ofList_toList,
    ← Token.utf8ByteSize_ofList, String.ofList_toList] at h

/-! ## Lists of statements -/

namespace Parser

/-- A list of statements that is not too deep is a row of rounds. -/
theorem rounds_of_enter {n : Nat} {a : Option Closed}
    (hrun : Production.enter (n + 1) .statements i s = .ok (a, s')) (hlimit : ∀ k ∈ i.settings.limit, s.depth < k) :
    ∃ t, statementRounds n i.bound i s.deeper = .ok ((), t) ∧ s' = t.upper := by
  rcases nested_yields a s' hrun with ⟨k, hk, hle, -⟩ | ⟨-, t, hlist, rfl⟩
  · exact absurd (hlimit k hk) (Nat.not_lt.2 hle)
  · obtain ⟨_, t', hrounds, hpure⟩ := run_bind hlist
    cases hpure
    exact ⟨t, hrounds, rfl⟩

/-- One that is too deep is reported. -/
theorem lt_of_enter {n : Nat} {a : Option Closed} (hs : Unclaimed s)
    (hrun : Production.enter n .statements i s = .ok (a, s')) (hclean : s'.Clean) :
    ∀ k ∈ i.settings.limit, s.depth < k := by
  cases n with
  | zero => cases hrun
  | succ n =>
    rcases nested_yields a s' hrun with ⟨k, -, -, hbail, -⟩ | ⟨hlt, -⟩
    · exact absurd hclean (bailOut_dirty (fun h => (hs h).2) k () s' hbail)
    · exact hlt

/-- **A semicolon is a round of its own**, and nothing else changes. -/
theorem round_of_semicolon {enter : Enter} {l : Token × Nat} {ls : List (Token × Nat)} (hs : s.Sound i)
    (ha : s.ahead = l :: ls) (hl : l.1.kind = .semicolon) (hls : ∀ m ∈ ls.head?, m.1.kind ≠ .invalidChar) :
    Yields (Production.statementRound enter) i s fun r s' => r = .again () ∧ Draws i s s' [.leaf l.2 l.1] ∧
      s'.outlook = { s.outlook with ahead := ls } ∧ s'.Settled := by
  have hnext : s.next = .semicolon := by
    rw [State.next, State.significant_eq, ha, List.map_cons,
      List.filter_cons_of_pos (by rw [Token.isSignificant, hl]; rfl)]
    exact hl
  have hnodes : unknownNodes ls = [] := by
    cases ls with
    | nil => rfl
    | cons m ls => exact if_neg (hls m rfl)
  have hadvance : s.outlook.advance = { s.outlook with ahead := ls } := by
    have hahead : s.outlook.ahead = l :: ls := ha
    rw [Outlook.advance, hahead]
    dsimp only
    rw [Outlook.unquoted, hl,
      if_neg (by simp [closesString?_of_not_mem (by decide : Kind.semicolon ∉ KindSet.strings)])]
    cases ls with
    | nil => rfl
    | cons m ls => exact if_neg (hls m rfl)
  refine Yields.bind (Q := fun b s' => b = true ∧ Draws i s s' [.leaf l.2 l.1] ∧
    s'.outlook = { s.outlook with ahead := ls } ∧ s'.Settled) ?_ ?_
  · refine (isAt_yields .semicolon).bind ?_
    rintro _ _ ⟨rfl, rfl⟩
    rw [hnext, if_pos (by rfl)]
    refine (bump_outlook (s := s.look) { hs with }).bind ?_
    rintro _ s' ⟨m, ms, hm, hg, hlook, hsettled⟩
    obtain ⟨rfl, rfl⟩ := List.cons.inj (ha.symm.trans hm)
    rw [hnodes] at hg
    exact .pure ⟨rfl, ⟨hg.toGrows.of_look hs, hg.named⟩, hlook.trans hadvance, hsettled⟩
  · rintro _ s' ⟨rfl, h⟩
    exact .pure ⟨rfl, h⟩

end Parser

/-! ## The seam -/

/-- **Where nothing is reported, the list of statements takes all tokens.** -/
theorem Parse.Course.of_clean {listed blocked left : State}
    (h : p.Course i i.begun.inside listed blocked left) (hclean : p.diagnostics = []) :
    listed.Clean ∧ listed.ahead = [] ∧ left = blocked.look ∧
      ∀ k ∈ i.settings.limit, 0 < k := by
  have hleft : left.Clean := Array.toList_eq_nil_iff.1 (h.diagnostics ▸ hclean)
  obtain ⟨a, hlisting⟩ := h.listing
  have hlisted : Unclaimed listed := Nesting.unclaimed.entered (logs_unclaimed.chainStatement unclaimed_bailOut)
    i.bound .statements i _ a listed hlisting fun _ => ⟨rfl, rfl⟩
  have hdiagnostics : blocked.diagnostics = listed.diagnostics :=
    Array.toList_inj.1 (congrArg Outlook.diagnostics h.closing.1)
  have hahead : blocked.ahead = listed.ahead := congrArg Outlook.ahead h.closing.1
  have hblocked : Unclaimed blocked := fun hclean => by
    obtain ⟨hlast, hlimit⟩ := hlisted (hdiagnostics.symm.trans hclean)
    exact ⟨(congrArg Outlook.lastReported h.closing.1).trans hlast,
      (congrArg Outlook.limitReached h.closing.1).trans hlimit⟩
  obtain ⟨b, s₁, hend, hrest⟩ := run_bind h.leaving
  obtain ⟨-, rfl⟩ := isAt_yields .error b s₁ hend
  cases b with
  | false => exact absurd hleft (garbage_dirty (s := blocked.look) hblocked i.bound () left hrest)
  | true =>
    cases hrest
    have hclean : listed.Clean := hdiagnostics.symm.trans hleft
    exact ⟨hclean, hahead.symm.trans h.ends, rfl, lt_of_enter (fun _ => ⟨rfl, rfl⟩) hlisting hclean⟩

/-- Up to the last token trivia goes where it went, whatever stands behind it. -/
theorem Tree.dressList_seam {tokens : List Token} {S : List Draft} {l : Token × Nat}
    (hsolid : solidFrom 0 tokens = Draft.leavesOfList S ++ [l]) (hlast : l.2 + 1 = tokens.length)
    (behind : List Token) :
    dressList (tokens ++ behind) 0 (Draft.treesOfList S ++ [l.1.tree]) =
        dressList tokens 0 (Draft.treesOfList S ++ [l.1.tree]) ∧
      (dressList tokens 0 (Draft.treesOfList S ++ [l.1.tree])).2 = tokens.length := by
  have hlength : (Draft.leavesOfList S).length = (leavesOfList (Draft.treesOfList S)).length := by
    rw [Draft.leaves_treesOfList, List.length_map]
  obtain ⟨hdress, hafter⟩ := dressList_extend behind (Draft.treesOfList S) 0 hsolid hlength (List.cons_ne_nil l [])
  set c := (dressList tokens 0 (Draft.treesOfList S)).2 with hc
  obtain ⟨hleaf, -⟩ := dress_leaf_extend hafter behind l.1.kind l.1.text
  obtain ⟨hindex, -⟩ := take_of_solidAfter hafter
  have hnext : (l.1.tree.dress tokens c).2 = tokens.length := by
    rw [Token.tree, dress]
    dsimp only
    omega
  simp only [dressList_append, dressList, hdress, ← hc, Token.tree] at hleaf hnext ⊢
  exact ⟨by rw [hleaf], hnext⟩

/-- Behind the seam it goes where it goes in the second source alone. -/
theorem Tree.dressList_joined {front tokens : List Token} {S F : List Draft} {l : Token × Nat}
    (hsolid : solidFrom 0 front = Draft.leavesOfList S ++ [l]) (hlast : l.2 + 1 = front.length) (n : Nat) :
    dressList (front ++ tokens.map (.shift n)) 0 (Draft.treesOfList S ++ [l.1.tree] ++ Draft.treesOfList F) =
      ((dressList front 0 (Draft.treesOfList S ++ [l.1.tree])).1 ++ (dressList tokens 0 (Draft.treesOfList F)).1,
        front.length + (dressList tokens 0 (Draft.treesOfList F)).2) := by
  obtain ⟨hdress, hlength⟩ := dressList_seam hsolid hlast (tokens.map (.shift n))
  rw [dressList_append, hdress, hlength, ← Nat.add_zero front.length, dressList_shift, Nat.add_zero]

/-! ## Over the seam -/

/-- Where nothing is left over, the statements are those of the list. -/
theorem Parse.Course.statements_of_draws {t blocked : State} {F : List Draft}
    (h : p.Course i i.begun.inside t.upper blocked blocked.look) (hF : Draws i i.opened.deeper t F) :
    p.tree.statements = Tree.nodesOfList (Tree.dressList i.tokens 0 (Draft.treesOfList F)).1 := by
  have hF' : Draws i i.opened t.upper F := ⟨hF.toGrows.upper { h.coherent with }, hF.named⟩
  have hblocked := (h.closing.2 F hF').coherent
  have hrefl : Draws i blocked blocked.look [] :=
    ⟨{ Grows.refl hblocked with coherent := { hblocked with } }, trivial⟩
  exact (h.statements hF' hrefl).1

/-- Trivia adds no node. -/
theorem Tree.not_mem_of_dressList {tokens : List Token} {ts : List Tree} {c : Nat} {k : Kind}
    (h : ∀ t ∈ nodesOfList (dressList tokens c ts).1, t.kind ≠ k) (cs : List Tree) : node k cs ∉ ts := fun hcs => by
  have hmem : node k cs ∈ nodesOfList ts := List.mem_filter.2 ⟨hcs, rfl⟩
  have hkind := List.mem_map_of_mem (f := Tree.kind) hmem
  rw [← @kinds_dressList tokens ts c] at hkind
  obtain ⟨t, ht, hkind⟩ := List.mem_map.1 hkind
  exact h t ht hkind

/-- **The last semicolon is read in the longer source**, and nothing of the first one is left. -/
theorem State.Pending.round {j : Input} {enter : Enter} {behind : List Token} {ds : Array Diagnostic}
    {S : List Draft} {l : Token × Nat} (hs' : s'.Pending) (hS : Draws i s s' S) (hahead : s'.ahead = [l])
    (hkind : l.1.kind = .semicolon) (hj : j.Sound) (htokens : j.tokens = i.tokens ++ behind)
    (hbehind : ∀ m ∈ (solidFrom i.tokens.length behind).head?, m.1.kind ≠ .invalidChar) :
    Yields (Production.statementRound enter) j (s'.onto behind ds) fun r u => r = .again () ∧
      Draws j (s.onto behind ds) u (S ++ [.leaf l.2 l.1]) ∧
      u.outlook = ⟨solidFrom i.tokens.length behind, ds.toList, none, false⟩ ∧ u.Settled := by
  have hS' : Draws j (s.onto behind ds) (s'.onto behind ds) S := hS.onto hj htokens hs'.clean
  have hahead' : (s'.onto behind ds).ahead = l :: solidFrom i.tokens.length behind := by
    rw [hS.coherent.ahead_onto, hahead]
    rfl
  have hsettled : (s'.onto behind ds).Settled := by
    rw [State.Settled, hahead']
    rintro _ ⟨⟩
    rw [hkind]
    decide
  have hsound : (s'.onto behind ds).Sound j := { hS'.coherent with settled := hsettled }
  intro r u hround
  obtain ⟨hr, hl, hlook, hsettled'⟩ := round_of_semicolon hsound hahead' hkind hbehind r u hround
  obtain ⟨hreported, hlimit⟩ := hS.coherent.reported hs'.clean
  refine ⟨hr, hS'.trans hl, hlook.trans ?_, hsettled'⟩
  simp only [State.outlook, State.onto, hreported, hlimit]

/-- **How a run comes over the seam**: it records what the first source alone records, and goes on behind its last
semicolon as at the beginning of a source. -/
theorem exists_crossing {j : Input} {listed blocked left t : State} {behind : List Token} {ds : Array Diagnostic}
    {k m : Nat} (hp : parse first settings = .ok p) (hclean : p.diagnostics = [])
    (hcourse : p.Course (.ofSource first settings) (Input.ofSource first settings).begun.inside listed blocked left)
    (hfirst : (Input.ofSource first settings).begun.Settled)
    (hlast : ∃ t ∈ (lex first).getLast?, t.kind = .semicolon)
    (hreturn : ∀ t ∈ p.tree.statements, t.kind ≠ .returnStatement) (hsettings : settings = j.settings)
    (hj : j.Sound) (htokens : j.tokens = lex first ++ behind)
    (hbehind : ∀ m ∈ (solidFrom (lex first).length behind).head?, m.1.kind ≠ .invalidChar)
    (hrun : statementRounds ((lex first).length + k) m j
      ((Input.ofSource first settings).opened.deeper.onto behind ds) = .ok ((), t)) :
    ∃ S l u m', solidFrom 0 (lex first) = Draft.leavesOfList S ++ [l] ∧ l.2 + 1 = (lex first).length ∧
      p.tree.statements = Tree.nodesOfList (Tree.dressList (lex first) 0 (Draft.treesOfList S ++ [l.1.tree])).1 ∧
      Draws j ((Input.ofSource first settings).opened.deeper.onto behind ds) u (S ++ [.leaf l.2 l.1]) ∧
      u.Settled ∧ u.outlook = ⟨solidFrom (lex first).length behind, ds.toList, none, false⟩ ∧
      statementRounds ((lex first).length + k) m' j u = .ok ((), t) := by
  set i := Input.ofSource first settings with hi
  obtain ⟨hknown, hcomments⟩ := faultless_of_parse hp hclean
  obtain ⟨hlisted, hnothing, rfl, hlimit⟩ := hcourse.of_clean hclean
  obtain ⟨a, hlisting⟩ := hcourse.listing
  obtain ⟨t₀, hrounds, rfl⟩ := rounds_of_enter hlisting hlimit
  have hs : i.opened.deeper.Sound i := { hcourse.coherent with settled := hfirst }
  have hpending : i.opened.deeper.Pending := by
    refine ⟨?_, hlast⟩
    change (Token.unfinishedComments (lex first)).toArray = #[]
    rw [hcomments]
  have hreturn (F : List Draft) (hF : Draws i i.opened.deeper t₀ F) :=
    Tree.not_mem_of_dressList (hcourse.statements_of_draws hF ▸ hreturn)
  obtain ⟨s₁, S, F, l, m₁, hS, -, hpending₁, hahead, hkind, hF, htrees, hrun⟩ := exists_seam hsettings k
    i.bound m (.refl hs (by simp [State.used, State.deeper])) (State.remaining_le_length hs.toCoherent) hknown
    hpending hrounds hlisted hnothing hreturn hrun
  cases m₁ with
  | zero => cases hrun
  | succ m₁ =>
  obtain ⟨r, u, hround, hrun⟩ := run_bind hrun
  obtain ⟨rfl, hl, hlook, hsettled⟩ := hpending₁.round hS hahead hkind hj htokens hbehind r u hround
  refine ⟨S, l, u, m₁, ?_, ?_, htrees ▸ hcourse.statements_of_draws hF, hl, hsettled, hlook, hrun⟩
  · exact hS.ahead.trans (by rw [hahead])
  · obtain ⟨m, hm, -, hindex⟩ := hpending₁.getLast?_ahead
    rw [hahead, List.getLast?_singleton, Option.mem_some_iff] at hm
    rw [hm, hindex, hS.coherent.position_add]
    rfl

/-! ## Behind the seam -/

theorem Token.unfinishedComments_append (ts us : List Token) :
    unfinishedComments (ts ++ us) = unfinishedComments ts ++ unfinishedComments us := by
  rw [unfinishedComments, List.filter_append, List.map_append]
  rfl

theorem Token.unfinishedComments_shift (n : Nat) (ts : List Token) :
    unfinishedComments (ts.map (shift n)) = (unfinishedComments ts).map (.shift n) := by
  rw [unfinishedComments, unfinishedComments, List.filter_map, List.map_map, List.map_map]
  refine List.map_congr_left fun t _ => ?_
  simp only [Function.comp_apply, span_shift]
  rfl

/-- **What follows the seam is read as the second source alone**: its statements lead to the same trees, and so does
what is left over, and the reports are moved by the bytes in front. -/
theorem Parse.Course.behind {i j : Input} {n c m m' N N' : Nat} {r : Parse}
    {t₁ t₂ u blocked₁ blocked₂ left₁ left₂ : State}
    {S : List Draft} (hcourse₁ : q.Course i i.begun.inside t₁.upper blocked₁ left₁)
    (hcourse₂ : r.Course j j.begun.inside t₂.upper blocked₂ left₂) (hfirst : i.begun.Settled)
    (hsettings : i.settings = j.settings) (hsize : j.size = n + i.size)
    (hrounds₁ : statementRounds N m i i.opened.deeper = .ok ((), t₁))
    (hrounds₂ : statementRounds N' m' j u = .ok ((), t₂)) (hu : Draws j j.opened.deeper u S)
    (hsettled : u.Settled) (hlook : u.outlook = i.opened.deeper.outlook.shift n c) :
    ∃ F G F' G', Draws i i.opened t₁.upper F ∧ Draws j j.opened t₂.upper (S ++ G) ∧
      Draws i blocked₁ left₁ F' ∧ Draws j blocked₂ left₂ G' ∧ Draft.treesOfList G = Draft.treesOfList F ∧
      Draft.treesOfList G' = Draft.treesOfList F' ∧ r.diagnostics = q.diagnostics.map (.shift n) := by
  let B := Bond.shifted hsettings hsize c
  have hbefore : i.opened.deeper.Coherent i := { hcourse₁.coherent with }
  have w : B.Rows i.opened.deeper u i.opened.deeper u [] [] :=
    ⟨.refl hbefore, .refl hu.coherent, hfirst, hsettled, hu.depth.symm, hlook ▸ .refl _⟩
  obtain ⟨-, F, G, w⟩ := Bond.Alongside.rounds (fun _ => (B.enters N N').statementRound) m m' () _ u w
    () t₁ () t₂ hrounds₁ hrounds₂
  rw [List.nil_append, List.nil_append] at w
  have hF : Draws i i.opened t₁.upper F := ⟨w.left.toGrows.upper { hcourse₁.coherent with }, w.left.named⟩
  have hG : Draws j j.opened t₂.upper (S ++ G) :=
    ⟨(hu.trans w.right).toGrows.upper { hcourse₂.coherent with }, (hu.trans w.right).named⟩
  -- the ends of the lists and blocks change nothing
  obtain ⟨hblock₁, hdraws₁⟩ := hcourse₁.closing
  obtain ⟨hblock₂, hdraws₂⟩ := hcourse₂.closing
  have hblocked₁ := hdraws₁ F hF
  have hblocked₂ := hdraws₂ _ hG
  have w' : B.Rows blocked₁ blocked₂ blocked₁ blocked₂ [] [] := by
    refine ⟨.refl hblocked₁.coherent, .refl hblocked₂.coherent, ?_, ?_, hblocked₁.depth.trans hblocked₂.depth.symm, ?_⟩
    · rw [State.Settled, show blocked₁.ahead = _ from congrArg Outlook.ahead hblock₁]
      exact w.leftSettled
    · rw [State.Settled, show blocked₂.ahead = _ from congrArg Outlook.ahead hblock₂]
      exact w.rightSettled
    · rw [hblock₁, hblock₂]
      exact B.now w.holds
  obtain ⟨-, F', G', w'⟩ := (B.enters i.bound j.bound).leftovers _ _ w' () left₁ () left₂ hcourse₁.leaving
    hcourse₂.leaving
  refine ⟨F, G, F', G', hF, hG, w'.left, w'.right, w.holds.trees, w'.holds.trees, ?_⟩
  have hdiagnostics := congrArg Outlook.diagnostics w'.holds.now
  rw [hcourse₂.diagnostics, hcourse₁.diagnostics]
  exact hdiagnostics

section Joined

variable (hlex : lex (first ++ second) = lex first ++ (lex second).map (.shift first.utf8ByteSize))
include hlex

theorem settled_append (hknown : ∀ t ∈ lex first, t.kind ≠ .invalidChar)
    (hsecond : ∀ t ∈ (lex second).find? (!·.kind.isTrivia), t.kind ≠ .invalidChar) :
    (Input.ofSource (first ++ second) settings).begun.Settled := by
  refine settled_of_find? fun t ht => ?_
  change t ∈ (lex (first ++ second)).find? _ at ht
  rw [hlex, List.find?_append, Option.mem_def, Option.or_eq_some_iff, List.find?_map] at ht
  rcases ht with ht | ⟨-, ht⟩
  · exact hknown t (List.mem_of_find?_eq_some ht)
  · obtain ⟨u, hu, rfl⟩ := Option.map_eq_some_iff.1 ht
    exact hsecond u hu

/-- The parse of both begins like that of the first, with the second behind. -/
theorem opened_append : (Input.ofSource (first ++ second) settings).opened.deeper =
    (Input.ofSource first settings).opened.deeper.onto ((lex second).map (.shift first.utf8ByteSize))
      (Token.unfinishedComments (lex (first ++ second))).toArray := by
  simp [Input.opened, Input.begun, State.inside, State.deeper, State.onto, State.initial, Input.ofSource,
    Input.ofTokens, hlex]

end Joined

/-- **A source behind a finished one is read as if it stood alone.**  Let nothing be reported of the first source, let
it end with a semicolon and have no `return` among its statements, and let the second one not begin with an unknown
character.  Then the statements of both together are those of the first and those of the second, the node with what is
left over is that of the second, and its diagnostics are those of the second, moved by the bytes of the first. -/
theorem parse_append (hp : parse first settings = .ok p) (hq : parse second settings = .ok q)
    (hclean : p.diagnostics = []) (hlast : ∃ t ∈ (lex first).getLast?, t.kind = .semicolon)
    (hreturn : ∀ t ∈ p.tree.statements, t.kind ≠ .returnStatement)
    (hfirst : ∀ t ∈ (lex second).find? (!·.kind.isTrivia), t.kind ≠ .invalidChar) :
    ∃ r, parse (first ++ second) settings = .ok r ∧
      r.tree.statements = p.tree.statements ++ q.tree.statements ∧ r.tree.garbage? = q.tree.garbage? ∧
      r.diagnostics = q.diagnostics.map (.shift first.utf8ByteSize) := by
  obtain ⟨r, hr, -⟩ := parse_conforms (first ++ second) settings
  refine ⟨r, hr, ?_⟩
  have hlex := lex_seam hlast second
  obtain ⟨hknown, hcomments⟩ := faultless_of_parse hp hclean
  -- the courses of the three parses
  have hfirst₀ : (Input.ofSource first settings).begun.Settled :=
    settled_of_find? fun t ht => hknown t (List.mem_of_find?_eq_some ht)
  have hfirst₁ : (Input.ofSource second settings).begun.Settled := settled_of_find? hfirst
  have hfirst₂ : (Input.ofSource (first ++ second) settings).begun.Settled := settled_append hlex hknown hfirst
  obtain ⟨s₀, listed, blocked, left, hcourse⟩ := course_of_parse hp
  obtain rfl := hcourse.first_eq hfirst₀
  obtain ⟨s₁, listed₁, blocked₁, left₁, hcourse₁⟩ := course_of_parse hq
  obtain rfl := hcourse₁.first_eq hfirst₁
  obtain ⟨s₂, listed₂, blocked₂, left₂, hcourse₂⟩ := course_of_parse hr
  obtain rfl := hcourse₂.first_eq hfirst₂
  obtain ⟨-, -, -, hlimit⟩ := hcourse.of_clean hclean
  set i := Input.ofSource second settings with hi
  set j := Input.ofSource (first ++ second) settings with hj
  have hbound : j.bound = (lex first).length + (lex second).length + 1 := by
    simp [hj, Input.ofSource, Input.ofTokens, hlex]
  obtain ⟨a₁, hlisting₁⟩ := hcourse₁.listing
  obtain ⟨t₁, hrounds₁, rfl⟩ := rounds_of_enter hlisting₁ hlimit
  obtain ⟨a₂, hlisting₂⟩ := hcourse₂.listing
  rw [hbound] at hlisting₂
  obtain ⟨t₂, hrounds₂, rfl⟩ := rounds_of_enter hlisting₂ hlimit
  have hbegun : j.opened.deeper = (Input.ofSource first settings).opened.deeper.onto
      ((lex second).map (.shift first.utf8ByteSize)) (Token.unfinishedComments j.tokens).toArray := opened_append hlex
  have htokens : j.tokens = lex first ++ (lex second).map (.shift first.utf8ByteSize) := hlex
  have hbehind : solidFrom (lex first).length ((lex second).map (.shift first.utf8ByteSize)) =
      i.begun.ahead.map (Token.moved first.utf8ByteSize (lex first).length) := solidFrom_shift _ _ 0 _
  -- over the seam
  rw [hbegun] at hrounds₂
  obtain ⟨S, l, u, m, hsolid, hindex, hstatements, hu, hsettled, hlook, hrounds₂⟩ := exists_crossing hp hclean
    hcourse hfirst₀ hlast hreturn (j := j) rfl hcourse₂.coherent.input htokens (fun m hm => by
      rw [hbehind, List.head?_map] at hm
      obtain ⟨m', hm', rfl⟩ := Option.map_eq_some_iff.1 hm
      exact hfirst₁ m' hm') hrounds₂
  have hlook : u.outlook = i.opened.deeper.outlook.shift first.utf8ByteSize (lex first).length := by
    rw [hlook, hbehind, htokens, Token.unfinishedComments_append, hcomments, Token.unfinishedComments_shift]
    rfl
  rw [← hbegun] at hu
  obtain ⟨F, G, F', G', hF, hG, hF', hG', htrees, htrees', hdiagnostics⟩ := hcourse₁.behind hcourse₂ hfirst₁
    rfl String.utf8ByteSize_append hrounds₁ hrounds₂ hu hsettled hlook
  obtain ⟨hstatements₁, hgarbage₁⟩ := hcourse₁.statements hF hF'
  obtain ⟨hstatements₂, hgarbage₂⟩ := hcourse₂.statements hG hG'
  -- the trivia of both goes where it went
  have hrow := @Tree.dressList_joined (lex first) (lex second) S F l hsolid hindex first.utf8ByteSize
  have hboth : Draft.treesOfList (S ++ [.leaf l.2 l.1] ++ G) =
      Draft.treesOfList S ++ [l.1.tree] ++ Draft.treesOfList F := by
    rw [Draft.treesOfList_append, Draft.treesOfList_append, htrees]
    rfl
  rw [← hboth, ← htokens] at hrow
  refine ⟨?_, ?_, hdiagnostics⟩
  · rw [hstatements₂, hrow, Tree.nodesOfList_append, ← hstatements, hstatements₁]
    rfl
  · rw [hgarbage₂, hgarbage₁, hrow, htrees', htokens]
    dsimp only
    rw [Tree.dressList_shift]
    rfl

/-- A call that is not closed, behind one that is. -/
theorem parse_append_of_calls : ∃ p q r, parse "f();" .standard = .ok p ∧ parse "g(" .standard = .ok q ∧
    p.diagnostics = [] ∧ (∃ t ∈ (lex "f();").getLast?, t.kind = .semicolon) ∧
    (∀ t ∈ p.tree.statements, t.kind ≠ .returnStatement) ∧
    (∀ t ∈ (lex "g(").find? (!·.kind.isTrivia), t.kind ≠ .invalidChar) ∧
    parse ("f();" ++ "g(") .standard = .ok r ∧ r.tree.statements = p.tree.statements ++ q.tree.statements ∧
    r.tree.garbage? = q.tree.garbage? ∧ r.diagnostics = q.diagnostics.map (.shift "f();".utf8ByteSize) := by
  have hrun : (parse "f();" .standard).toOption.map (fun p => (p.diagnostics.length, p.tree.statements.map Tree.kind)) =
      some (0, [.callStatement]) := by
    decide +kernel
  obtain ⟨p, hp, -⟩ := parse_conforms "f();" .standard
  obtain ⟨q, hq, -⟩ := parse_conforms "g(" .standard
  rw [hp] at hrun
  obtain ⟨hclean, hkinds⟩ := Prod.mk.inj (Option.some.inj hrun)
  have hclean : p.diagnostics = [] := List.length_eq_zero_iff.1 hclean
  have hlast : ∃ t ∈ (lex "f();").getLast?, t.kind = .semicolon := by decide +kernel
  have hreturn : ∀ t ∈ p.tree.statements, t.kind ≠ .returnStatement := fun t ht hkind => by
    have hmem := List.mem_map_of_mem (f := Tree.kind) ht
    rw [hkinds, hkind] at hmem
    revert hmem
    decide
  have hfirst : ∀ t ∈ (lex "g(").find? (!·.kind.isTrivia), t.kind ≠ .invalidChar := by decide +kernel
  obtain ⟨r, hr, h⟩ := parse_append hp hq hclean hlast hreturn hfirst
  exact ⟨p, q, r, hp, hq, hclean, hlast, hreturn, hfirst, hr, h⟩

end LuaTree
