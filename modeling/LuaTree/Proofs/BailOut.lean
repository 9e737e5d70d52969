import LuaTree.Proofs.Trait
import LuaTree.Proofs.Troubles

/-!
# Proofs/BailOut — what the nesting limit leaves

When the nesting limit is reached, all that is left goes into one Error node and is reported once; the
productions that are still open go on and find nothing more.  So a run has a **course**: as long as it
stays below the limit, its Error nodes are unknown characters; in one stretch the limit is reached; and
beyond it neither a report nor another such node follows.  From the course of a whole run the shape of its tree is
read off (`bail_out_of_parse`).
-/

namespace LuaTree

open LuaTree.Parser

/-! ## Reports that are not about the limit -/

namespace Outlook

/-- The nesting limit is not among what has been reported since. -/
def Quiet (a₀ a : Outlook) : Prop := Adds (fun d => d.problem ≠ .recursionLimitExceeded) a₀ a

variable {a₀ a a' : Outlook}

theorem Quiet.refl (a : Outlook) : a.Quiet a := Adds.refl a

theorem Quiet.trans (h : a₀.Quiet a) (h' : a.Quiet a') : a₀.Quiet a' := Adds.trans h h'

theorem quiet_told (a : Outlook) {d : Diagnostic} (hd : d.problem ≠ .recursionLimitExceeded) :
    a.Quiet (a.told d) :=
  adds_told a hd

theorem quiet_settle (a : Outlook) : a.Quiet a.settle := adds_passed a fun _ _ _ => nofun

theorem quiet_advance (a : Outlook) : a.Quiet a.advance :=
  adds_advance a fun _ _ p hp => by rintro rfl; simp at hp

end Outlook

/-! ## Troubles in front of the rest -/

/-- A trouble in front of the tokens `R`: garbage, or an unknown character in a node of its own. -/
def Trouble.Before (R : List (Token × Nat)) (m : Trouble) : Prop :=
  m = .garbage ∨
    ∃ (l : Token × Nat) (S : List (Token × Nat)), m = .error [.leaf l.2 l.1] S ∧ l.1.kind = .invalidChar ∧ R <:+ S

theorem Trouble.Before.mono {R S : List (Token × Nat)} {m : Trouble} (h : m.Before S) (hR : R <:+ S) :
    m.Before R :=
  h.imp_right fun ⟨l, T, hm, hl, hS⟩ => ⟨l, T, hm, hl, hR.trans hS⟩

theorem leaves_unknownNodes (ls : List (Token × Nat)) :
    Draft.leavesOfList (unknownNodes ls) ++ ls.dropWhile (·.1.kind = .invalidChar) = ls := by
  induction ls with
  | nil => rfl
  | cons l ls ih =>
    rw [unknownNodes, List.dropWhile_cons]
    by_cases hl : l.1.kind = .invalidChar
    · simpa [hl, Draft.leavesOfList, Draft.leaves, Branch.leaves] using ih
    · simp [hl, Draft.leavesOfList]

theorem before_of_mem_unknownNodes {R : List (Token × Nat)} {m : Trouble} {ls : List (Token × Nat)}
    (h : m ∈ Draft.troublesOfList R (unknownNodes ls)) : m.Before R := by
  induction ls with
  | nil => simp [unknownNodes, Draft.troublesOfList] at h
  | cons l ls ih =>
    rw [unknownNodes] at h
    split at h
    · rename_i hl
      rw [Draft.troublesOfList, List.mem_append] at h
      refine h.elim (fun h => ?_) ih
      have h : m = .error [.leaf l.2 l.1] (Draft.leavesOfList (unknownNodes ls) ++ R) := by
        simpa [Draft.troubles, Branch.troubles, Trouble.ofNode, Draft.troublesOfList] using h
      exact .inr ⟨l, _, h, hl, List.suffix_append ..⟩
    · simp [Draft.troublesOfList] at h

/-! ## The course of a run -/

/-- **What the limit leaves**: it is reported behind all that was reported before, from the first of the
tokens `R` that are left to the end of a source of `size` bytes. -/
structure Outlook.GivesUp (size : Nat) (R : List (Token × Nat)) (a₀ a : Outlook) : Prop where
  settled : ∀ l ∈ R.head?, l.1.kind ≠ .invalidChar
  told : ∃ a₁ d, a₀.Quiet a₁ ∧ a.diagnostics = a₁.diagnostics ++ [d] ∧
    d.problem = .recursionLimitExceeded ∧ d.span.start = R.head?.elim size (·.1.start) ∧ d.span.stop = size

/-- **How the nesting limit shows in a stretch of a run** that records the drafts `F`. -/
inductive Outlook.Course (size : Nat) (a₀ a : Outlook) (F : List Draft) : Prop
  /-- It has not been reached. -/
  | below (read : a₀.ahead = Draft.leavesOfList F ++ a.ahead) (start : a₀.limitReached = false)
    (stop : a.limitReached = false) (quiet : a₀.Quiet a)
    (troubles : ∀ m ∈ Draft.troublesOfList a.ahead F, m.Before a.ahead)
  /-- It was reached with the tokens `R` ahead, and nothing of the sort has been opened since. -/
  | reached (R : List (Token × Nat)) (ms : List Trouble) (read : a₀.ahead = Draft.leavesOfList F)
    (rest : R <:+ a₀.ahead) (start : a₀.limitReached = false) (stop : a.limitReached = true)
    (ended : a.ahead = []) (told : Outlook.GivesUp size R a₀ a)
    (troubles : Draft.troublesOfList [] F = ms ++ [.error (Draft.row R) []]) (before : ∀ m ∈ ms, m.Before R)
  /-- It had been reached before. -/
  | beyond (read : Draft.leavesOfList F = []) (start : a₀.limitReached = true)
    (stop : a.limitReached = true) (nothing : a₀.ahead = []) (ended : a.ahead = [])
    (quiet : a.diagnostics = a₀.diagnostics) (troubles : Draft.troublesOfList [] F = [])

namespace Outlook.Course

variable {i : Input} {size : Nat} {a₀ a a' : Outlook} {F F' : List Draft}

theorem now (h : Course size a₀ a F) : Course size a a [] := by
  cases h with
  | below read start stop quiet troubles => exact .below rfl stop stop (.refl a) (by simp [Draft.troublesOfList])
  | reached R ms read rest start stop ended told troubles before =>
    exact .beyond rfl stop stop ended ended rfl rfl
  | beyond read start stop nothing ended quiet troubles => exact .beyond rfl stop stop ended ended rfl rfl

/-- Only one of two stretches can reach the limit. -/
theorem trans (h : Course size a₀ a F) (h' : Course size a a' F') : Course size a₀ a' (F ++ F') := by
  have htroubles (R : List (Token × Nat)) : Draft.troublesOfList R (F ++ F') =
      Draft.troublesOfList (Draft.leavesOfList F' ++ R) F ++ Draft.troublesOfList R F' :=
    Draft.troublesOfList_append ..
  cases h with
  | below read start stop quiet troubles =>
    cases h' with
    | below read' _ stop' quiet' troubles' =>
      refine .below ?_ start stop' (quiet.trans quiet') fun m hm => ?_
      · rw [read, read', Draft.leavesOfList_append, List.append_assoc]
      · rw [htroubles, ← read', List.mem_append] at hm
        exact hm.elim (fun hm => (troubles m hm).mono (read' ▸ List.suffix_append ..)) (troubles' m)
    | reached R ms read' rest _ stop' ended told troubles' before =>
      have hread : a₀.ahead = Draft.leavesOfList F ++ a.ahead := read
      obtain ⟨hsettled, a₁, d, hquiet, hd⟩ := told
      refine .reached R (Draft.troublesOfList a.ahead F ++ ms) ?_ (rest.trans (hread ▸ List.suffix_append ..))
        start stop' ended ⟨hsettled, a₁, d, quiet.trans hquiet, hd⟩ ?_ fun m hm => ?_
      · rw [read, read', Draft.leavesOfList_append]
      · rw [htroubles, List.append_nil, ← read', troubles', List.append_assoc]
      · exact (List.mem_append.1 hm).elim (fun hm => (troubles m hm).mono rest) (before m)
    | beyond _ start' => simp [stop] at start'
  | reached R ms read rest start stop ended told troubles before =>
    cases h' with
    | below _ start' => simp [stop] at start'
    | reached _ _ _ _ start' => simp [stop] at start'
    | beyond read' _ stop' _ ended' quiet' troubles' =>
      refine .reached R ms ?_ rest start stop' ended' ⟨told.settled, ?_⟩ ?_ before
      · rw [read, Draft.leavesOfList_append, read', List.append_nil]
      · rw [quiet']
        exact told.told
      · rw [htroubles, read', List.append_nil, troubles, troubles', List.append_nil]
  | beyond read start stop nothing ended quiet troubles =>
    cases h' with
    | below _ start' => simp [stop] at start'
    | reached _ _ _ _ start' => simp [stop] at start'
    | beyond read' _ stop' _ ended' quiet' troubles' =>
      refine .beyond ?_ start stop' nothing ended' (quiet'.trans quiet) ?_
      · rw [Draft.leavesOfList_append, read, read']
        rfl
      · rw [htroubles, read', List.append_nil, troubles, troubles']
        rfl

/-- The drafts matter only with their leaves and their troubles. -/
theorem congr (h : Course size a₀ a F) (hleaves : Draft.leavesOfList F' = Draft.leavesOfList F)
    (htroubles : ∀ R, Draft.troublesOfList R F' = Draft.troublesOfList R F) : Course size a₀ a F' := by
  cases h with
  | below read start stop quiet troubles =>
    exact .below (hleaves ▸ read) start stop quiet (htroubles _ ▸ troubles)
  | reached R ms read rest start stop ended told troubles before =>
    exact .reached R ms (hleaves ▸ read) rest start stop ended told (htroubles _ ▸ troubles) before
  | beyond read start stop nothing ended quiet troubles =>
    exact .beyond (hleaves ▸ read) start stop nothing ended quiet (htroubles _ ▸ troubles)

/-- A node that is closed is no trouble, or garbage that was opened in front of a token. -/
theorem close {d : Draft} {k : Kind} (h : Course size a₀ a (d :: F)) (hd : d.Waits) (hk : k ≠ .error)
    (hg : k = .garbage → a₀.ahead ≠ []) : Course size a₀ a [.grown (d.close k F)] := by
  have hleaves : Draft.leavesOfList [.grown (d.close k F)] = Draft.leavesOfList (d :: F) := by
    simp [Draft.leavesOfList, Draft.leaves, Draft.leaves_close hd]
  by_cases hgarbage : k = .garbage
  case neg => exact h.congr hleaves fun R => by rw [Draft.troubles_close hd hk, if_neg hgarbage]; rfl
  have htroubles (R : List (Token × Nat)) :
      Draft.troublesOfList R [.grown (d.close k F)] = .garbage :: Draft.troublesOfList R (d :: F) := by
    rw [Draft.troubles_close hd hk, if_pos hgarbage]
    rfl
  have hbefore {R : List (Token × Nat)} {ms : List Trouble} (h : ∀ m ∈ ms, m.Before R) :
      ∀ m ∈ Trouble.garbage :: ms, m.Before R :=
    List.forall_mem_cons.2 ⟨.inl rfl, h⟩
  cases h with
  | below read start stop quiet troubles =>
    exact .below (hleaves ▸ read) start stop quiet (htroubles _ ▸ hbefore troubles)
  | reached R ms read rest start stop ended told troubles before =>
    refine .reached R (.garbage :: ms) (hleaves ▸ read) rest start stop ended told ?_ (hbefore before)
    rw [htroubles, troubles]
    rfl
  | beyond _ _ _ nothing => exact absurd nothing (hg hgarbage)

theorem told {d : Diagnostic} (h : Course size a₀ a F) (hd : d.problem ≠ .recursionLimitExceeded) :
    Course size a₀ (a.told d) F := by
  have hsame (hlimit : a.limitReached = true) : a.told d = a := by simp [Outlook.told, hlimit]
  cases h with
  | below read start stop quiet troubles =>
    refine .below ?_ start ?_ (quiet.trans (quiet_told a hd)) ?_
    · rw [ahead_told, read]
    · rw [limitReached_told, stop]
    · rw [ahead_told]
      exact troubles
  | reached R ms read rest start stop ended told troubles before =>
    rw [hsame stop]
    exact .reached R ms read rest start stop ended told troubles before
  | beyond read start stop nothing ended quiet troubles =>
    rw [hsame stop]
    exact .beyond read start stop nothing ended quiet troubles

theorem settle (h : Course size a a []) : Course size a a.settle (unknownNodes a.ahead) := by
  have hread := leaves_unknownNodes a.ahead
  rw [← ahead_settle] at hread
  have hbelow (stop : a.limitReached = false) : Course size a a.settle (unknownNodes a.ahead) :=
    .below hread.symm stop (by rw [limitReached_settle, stop]) (quiet_settle a)
      fun m hm => before_of_mem_unknownNodes hm
  cases h with
  | below _ _ stop => exact hbelow stop
  | reached _ _ _ _ start stop => simp [start] at stop
  | beyond _ _ stop _ ended =>
    have hsettle : a.settle = a := by
      rw [Outlook.settle, ended, Outlook.passed]
      cases a
      cases ended
      rfl
    rw [hsettle, ended]
    exact .beyond rfl stop stop ended ended rfl rfl

theorem advance {l : Token × Nat} {ls : List (Token × Nat)} (h : Course size a a [])
    (hl : a.ahead = l :: ls) : Course size a a.advance (.leaf l.2 l.1 :: unknownNodes ls) := by
  have hahead := ahead_advance hl
  cases h with
  | below _ _ stop =>
    refine .below ?_ stop (by rw [limitReached_advance, stop]) (quiet_advance a) fun m hm => ?_
    · rw [hahead, Draft.leavesOfList, List.append_assoc, leaves_unknownNodes, hl]
      rfl
    · exact before_of_mem_unknownNodes hm
  | reached _ _ _ _ start stop => simp [start] at stop
  | beyond _ _ _ _ ended => simp [ended] at hl

/-- **Where the limit is reached**, the rest of the tokens goes into one node. -/
theorem bail (h : Course i.size a a []) (hi : i.Sound) (hready : a.Ready i) (limit : Nat) :
    Course i.size a (a.bail limit i.size) a.aside := by
  cases h with
  | below _ _ stop =>
    have hstart := hready.start_span i.size
    have hle : (a.span i.size).start ≤ i.size := by
      rw [hstart]
      cases hl : a.ahead with
      | nil => exact Nat.le_refl _
      | cons l ls => exact (Nat.le_add_right ..).trans (hi.within _ (hready.faces.mem (by simp [hl])).1)
    rw [Outlook.bail, Outlook.aside, if_neg (by simp [stop]), if_neg (by simp [stop])]
    refine .reached a.ahead [] ?_ List.suffix_rfl stop rfl rfl
      ⟨hready.settled, a, _, .refl a, rfl, rfl, hstart, ?_⟩ ?_ (by simp)
    · simp [Draft.leavesOfList, Draft.leaves, Branch.leaves]
    · exact Nat.add_sub_cancel' hle
    · simp [Draft.troublesOfList, Draft.troubles, Branch.troubles, Trouble.ofNode, Draft.leavesOfList]
  | reached _ _ _ _ start stop => simp [start] at stop
  | beyond _ _ stop _ ended =>
    rw [bail_of_limitReached stop, Outlook.aside, if_pos stop]
    exact .beyond rfl stop stop ended ended rfl rfl

end Outlook.Course

/-- **Every run takes a course.** -/
def Parser.Trait.course {i : Input} (hi : i.Sound) : Trait i where
  Holds a₀ a F := a₀.Course i.size a F
  Spans _ := True
  now h := h.now
  trans h h' := h.trans h'
  blank := ⟨fun h => h.congr rfl fun _ => rfl, fun h => h.congr rfl fun _ => rfl⟩
  wrapping h := h.congr rfl fun _ => rfl
  close h hd hk hg := h.close hd hk hg
  span _ := trivial
  spanOf _ _ _ _ := trivial
  told h _ _ _ hd := h.told fun hproblem => hd (by simp [Problem.ungrammatical, hproblem])
  settle h _ := h.settle
  advance h _ hl := h.advance hl
  bail limit h ha := h.bail hi ha limit

/-! ## The shape of the tree -/

/-- The tokens from an offset on, up to the last one that is no trivia. -/
def Token.restFrom (tokens : List Token) (n : Nat) : List Token :=
  (tokens.filter fun t => n ≤ t.start).rdropWhile (·.kind.isTrivia)

section Shape

variable {tokens : List Token} {source : String} {R S : List (Token × Nat)} {l : Located} {k : Nat} {t : Token}

/-- Where the tokens `R` at the end of a source of `size` bytes begin. -/
abbrev startOf (size : Nat) (R : List (Token × Nat)) : Nat := R.head?.elim size (·.1.start)

theorem exists_of_forall₂ {α β : Type} {r : α → β → Prop} {as : List α} {bs : List β}
    (h : List.Forall₂ r as bs) {a : α} (ha : a ∈ as) : ∃ b ∈ bs, r a b := by
  induction h with
  | nil => simp at ha
  | cons hab _ ih =>
    rcases List.mem_cons.1 ha with rfl | ha
    · exact ⟨_, List.mem_cons_self, hab⟩
    · obtain ⟨b, hb, hr⟩ := ih ha
      exact ⟨b, List.mem_cons_of_mem _ hb, hr⟩

/-- The Error node around the rest holds the tokens from its start on. -/
theorem Trouble.shown_rest (h : Token.Tiles tokens source)
    (hl : Trouble.Shown tokens l (.error (Draft.row R) [])) :
    l = ⟨startOf source.utf8ByteSize R, .node .error
      ((Token.restFrom tokens (startOf source.utf8ByteSize R)).map Token.tree)⟩ ∧
    (Token.restFrom tokens (startOf source.utf8ByteSize R)).head? = R.head?.map Prod.fst := by
  obtain ⟨c, rfl, hsolid, htrivia⟩ := hl
  rw [Draft.leavesOfList_row, List.append_nil] at hsolid
  have hrest (hstart : offset tokens c = startOf source.utf8ByteSize R) :
      Token.restFrom tokens (startOf source.utf8ByteSize R) =
        (tokens.drop c).rdropWhile (·.kind.isTrivia) := by
    rw [Token.restFrom, ← hstart, h.adjacent.filter_offset h.filled]
  cases R with
  | nil =>
    -- neither trivia nor another token is left
    have hdrop : tokens.drop c = [] := by
      cases hdrop : tokens.drop c with
      | nil => rfl
      | cons t ts =>
        have ht := isTrivia_of_solidFrom_eq_nil hsolid t (by simp [hdrop])
        simp [triviaFrom, hdrop, ht] at htrivia
    have hstart : offset tokens c = startOf source.utf8ByteSize [] := by
      have htake : tokens.take c = tokens := by
        conv => rhs; rw [← List.take_append_drop c tokens, hdrop, List.append_nil]
      rw [offset, htake, Token.sizeOfList, h.text]
      rfl
    rw [hrest hstart, hstart, Draft.growList_row hsolid, hdrop]
    exact ⟨rfl, rfl⟩
  | cons l R =>
    obtain ⟨t, k⟩ := l
    obtain ⟨hk, -, ht, ⟨us, hus⟩, -⟩ := take_of_solidAfter hsolid
    rw [htrivia] at hk
    obtain rfl : k = c := hk
    have hstart : offset tokens k = startOf source.utf8ByteSize ((t, k) :: R) :=
      (h.adjacent.start_eq hus).symm
    rw [hrest hstart, hstart, Draft.growList_row hsolid]
    refine ⟨rfl, ?_⟩
    rw [hus, ← List.nil_append (t :: us), rdropWhile_append_cons (by simp [ht])]
    rfl

/-- The Error node around an unknown character holds this token and lies before the rest. -/
theorem Trouble.shown_unknown (h : Token.Tiles tokens source) (hl : Trouble.Shown tokens l (.error [.leaf k t] S))
    (hR : R <:+ S) : l = ⟨t.start, .node .error [t.tree]⟩ ∧ l.stop ≤ startOf source.utf8ByteSize R := by
  obtain ⟨c, rfl, hsolid, htrivia⟩ := hl
  have hsolid : solidAfter tokens c = (t, k) :: S := hsolid
  obtain ⟨hk, htake, -, ⟨us, hus⟩, hS⟩ := take_of_solidAfter hsolid
  rw [htrivia] at hk htake
  obtain rfl : k = c := hk
  have hstart : offset tokens k = t.start := (h.adjacent.start_eq hus).symm
  have hgrown : (Draft.growList tokens k [.leaf k t]).1 = [t.tree] := by
    rw [Draft.growList, Draft.grow, htake]
    rfl
  rw [hgrown, hstart]
  refine ⟨rfl, ?_⟩
  have hsize : Tree.size (.node .error [t.tree]) = t.text.utf8ByteSize := rfl
  have hstop : Located.stop ⟨t.start, .node .error [t.tree]⟩ = t.stop := congrArg (t.start + ·) hsize
  rw [hstop]
  cases R with
  | nil =>
    have hmem : t ∈ tokens := List.mem_of_mem_drop (hus ▸ List.mem_cons_self)
    have hbound := (h.adjacent.bounds hmem).2
    rwa [Token.sizeOfList, h.text, Nat.zero_add] at hbound
  | cons l R =>
    have hmem : l.1 ∈ us := by
      have hdrop : tokens.drop (k + 1) = us := by
        rw [← List.drop_drop, hus, List.drop_one, List.tail_cons]
      have hmem : l.1 ∈ (solidAfter tokens (k + 1)).map Prod.fst :=
        List.mem_map_of_mem (hS ▸ hR.subset List.mem_cons_self)
      rw [map_fst_solidFrom, hdrop] at hmem
      exact (List.mem_filter.1 hmem).1
    have hordered := h.adjacent.pairwise.sublist (List.drop_sublist k tokens)
    rw [hus, List.pairwise_cons] at hordered
    exact hordered.1 _ hmem

/-- What came before the rest shows no other Error node than that. -/
theorem Trouble.Before.shown {m : Trouble} (h : m.Before R) (hl : Trouble.Shown (lex source) l m)
    (herror : l.kind = .error) : (∃ c, l.tree = .node .error [.leaf .invalidChar c]) ∧
      l.stop ≤ startOf source.utf8ByteSize R := by
  rcases h with rfl | ⟨u, S, rfl, hu, hS⟩
  · have hgarbage : l.kind = .garbage := hl
    rw [herror] at hgarbage
    cases hgarbage
  · obtain ⟨rfl, hle⟩ := Trouble.shown_unknown (tiles_lex source) hl hS
    refine ⟨⟨u.1.text, ?_⟩, hle⟩
    rw [Token.tree, hu]

/-- **What a tree looks like where the limit was reached** at a span: one Error node holds the tokens from
there on, each by itself; the other Error nodes hold an unknown character each, in front of it, and no
garbage comes behind it. -/
structure Tree.BailedOut (t : Tree) (source : String) (x : Span) : Prop where
  stop : x.stop = source.utf8ByteSize
  first : ∀ u ∈ (Token.restFrom (lex source) x.start).head?, u.isSignificant ∧ u.start = x.start
  none_left : Token.restFrom (lex source) x.start = [] → x.start = source.utf8ByteSize
  nodes : ∃ before after, t.nodes = before ++
      ⟨x.start, .node .error ((Token.restFrom (lex source) x.start).map Token.tree)⟩ :: after ∧
    (∀ l ∈ after, l.kind ≠ .garbage) ∧
    ∀ l ∈ before ++ after, l.kind = .error →
      (∃ c, l.tree = .node .error [.leaf .invalidChar c]) ∧ l.stop ≤ x.start

/-- The troubles of a run that reaches the limit make the shape. -/
theorem Tree.bailedOut_of_troubles {t : Tree} {ms : List Trouble} {x : Span}
    (htroubles : List.Forall₂ (Trouble.Shown (lex source)) (t.nodes.filter Located.isTrouble)
      (ms ++ [.error (Draft.row R) []]))
    (hbefore : ∀ m ∈ ms, m.Before R) (hfirst : ∀ l ∈ R.head?, l.1.isSignificant)
    (hstart : x.start = startOf source.utf8ByteSize R) (hstop : x.stop = source.utf8ByteSize) :
    t.BailedOut source x := by
  -- the last of them is the node around the rest
  obtain ⟨ls, l, hls, hms, hl⟩ : ∃ ls l, t.nodes.filter Located.isTrouble = ls ++ [l] ∧
      List.Forall₂ (Trouble.Shown (lex source)) ls ms ∧ Trouble.Shown (lex source) l (.error (Draft.row R) []) := by
    have hdrop := List.forall₂_drop_append _ _ _ htroubles
    obtain ⟨l, ls, hl, hnil, hdrop⟩ := List.forall₂_cons_right_iff.1 hdrop
    cases hnil
    exact ⟨_, l, by rw [← hdrop, List.take_append_drop], List.forall₂_take_append _ _ _ htroubles, hl⟩
  obtain ⟨hnode, hhead⟩ := Trouble.shown_rest (tiles_lex source) hl
  rw [← hstart] at hnode hhead
  obtain ⟨before, rest, hnodes, hls', hrest⟩ := List.filter_eq_append_iff.1 hls
  obtain ⟨skipped, after, hrest', hskipped, -, hafter⟩ := List.filter_eq_cons_iff.1 hrest
  have hnone : ∀ y ∈ after, y.isTrouble = false := by simpa [List.filter_eq_nil_iff] using hafter
  have hearly : ∀ y ∈ before ++ skipped, y.kind = .error →
      (∃ c, y.tree = .node .error [.leaf .invalidChar c]) ∧ y.stop ≤ x.start := by
    intro y hy herror
    have htrouble : y.isTrouble = true := by simp [Located.isTrouble, herror]
    have hmem : y ∈ ls := by
      rw [← hls', List.mem_filter]
      refine ⟨(List.mem_append.1 hy).resolve_right fun hy => ?_, htrouble⟩
      exact hskipped y hy htrouble
    obtain ⟨m, hm, hshown⟩ := exists_of_forall₂ hms hmem
    exact hstart ▸ (hbefore m hm).shown hshown herror
  refine ⟨hstop, fun u hu => ?_, fun hnil => ?_, before ++ skipped, after, ?_, ?_, ?_⟩
  · rw [hhead] at hu
    obtain ⟨l, hl, rfl⟩ := Option.mem_map.1 hu
    refine ⟨hfirst l hl, ?_⟩
    rw [hstart, startOf, show R.head? = some l from hl]
    rfl
  · rw [hnil] at hhead
    have hR : R.head? = none := by simpa using hhead.symm
    rw [hstart, startOf, hR]
    rfl
  · rw [hnodes, hrest', hnode, List.append_assoc]
  · intro y hy hgarbage
    simpa [Located.isTrouble, hgarbage] using hnone y hy
  · intro y hy herror
    refine (List.mem_append.1 hy).elim (fun hy => hearly y hy herror) fun hy => ?_
    simpa [Located.isTrouble, herror] using hnone y hy

end Shape

namespace Parse.GrowsFrom

variable {source : String} {p : Parse} {a : Outlook} {F : List Draft}

/-- The nodes inside of the root are those that have grown. -/
theorem nodes_eq (hp : p.GrowsFrom (lex source) a F) :
    p.tree.nodes = ⟨0, p.tree⟩ :: Located.nodesOfRow 0 (Draft.growList (lex source) 0 F).1 := by
  rw [hp.tree, Tree.nodes, Located.nodesFrom, Located.nodesOfRow_append, Located.nodesOfRow_map_tree, List.append_nil]

/-- The troubles of a parse are those of its drafts. -/
theorem troubles (hp : p.GrowsFrom (lex source) a F) :
    List.Forall₂ (Trouble.Shown (lex source)) (p.tree.nodes.filter Located.isTrouble) (Draft.troublesOfList [] F) := by
  have hroot : Located.isTrouble ⟨0, p.tree⟩ = false := by
    rw [hp.tree]
    rfl
  rw [hp.nodes_eq, List.filter_cons_of_neg (by simp [hroot])]
  exact Draft.troubles_growList F 0 hp.solidAfter_eq

end Parse.GrowsFrom

/-- **The nesting limit is reported at most once, as the last thing**, from the first token that is left to
the end of the source; one Error node holds what is left, whatever was open, and after it neither garbage nor
another Error node is opened. -/
theorem bail_out_of_parse (source : String) (settings : Settings) : ∃ p, parse source settings = .ok p ∧
    p.tree.tokens = lex source ∧
    ((∀ d ∈ p.diagnostics, d.problem ≠ .recursionLimitExceeded) ∨
      ∃ ds d, p.diagnostics = ds ++ [d] ∧ (∀ e ∈ ds, e.problem ≠ .recursionLimitExceeded) ∧
        d.problem = .recursionLimitExceeded ∧ p.tree.BailedOut source d.span) := by
  have htiles := tiles_lex source
  obtain ⟨p, hp, hleaves, -⟩ := parseTokens_spec htiles (fun _ => isToken_of_mem_lex)
    (fun _ => dashed_of_mem_lex) settings
  refine ⟨p, hp, (Tree.tokens_and_text_of_leaves htiles hleaves).1, ?_⟩
  have hi : (Input.ofSource source settings).Sound := sound_ofTokens htiles fun _ => isToken_of_mem_lex
  obtain ⟨a₀, a, F, ha₀, hcourse, hF⟩ := (Trait.course hi).parses
    (fun a ha => .below rfl ha.limitReached ha.limitReached (.refl a) (by simp [Draft.troublesOfList])) hp
  have hcomments : ∀ d ∈ a₀.diagnostics, d.problem ≠ .recursionLimitExceeded := fun d hd => by
    simp [ha₀.problem d hd]
  have hone : Draft.troublesOfList [] [.grown (.node .chunk F)] = Draft.troublesOfList [] F := by
    simp [Draft.troublesOfList, Draft.troubles, Branch.troubles, Trouble.ofNode, Draft.leavesOfList]
  cases hcourse with
  | below _ _ _ quiet =>
    obtain ⟨ds, hds, hquiet⟩ := quiet
    refine .inl fun d hd => ?_
    rw [hF.diagnostics, hds, List.mem_append] at hd
    exact hd.elim (hcomments d) (hquiet d)
  | reached R ms _ rest _ _ _ told troubles before =>
    obtain ⟨hsettled, a₁, d, ⟨ds, hds, hquiet⟩, hlast, hproblem, hstart, hstop⟩ := told
    refine .inr ⟨a₁.diagnostics, d, hF.diagnostics.trans hlast, fun e he => ?_, hproblem,
      Tree.bailedOut_of_troubles ?_ before (fun l hl => ?_) hstart hstop⟩
    · rw [hds, List.mem_append] at he
      exact he.elim (hcomments e) (hquiet e)
    · rw [← troubles, hone]
      exact hF.troubles
    · have hfaces : a₀.Faces (.ofSource source settings) := by
        rw [Outlook.Faces, ha₀.ahead]
      have hmem : l ∈ a₀.ahead := rest.subset (List.mem_of_mem_head? hl)
      simp [Token.isSignificant, Kind.isSignificant, (hfaces.mem hmem).2, hsettled l hl]
  | beyond _ start => simp [ha₀.limitReached] at start

end LuaTree
