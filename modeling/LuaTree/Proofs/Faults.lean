import LuaTree.Proofs.BailOut

/-!
# Proofs/Faults — no lexical fault goes unreported

A report is kept unless the one before it has the same offset, so what matters is where the last report was.
It was at a token that had been consumed or at the next significant one, never at an unknown character ahead
(`Outlook.Fresh`); so each of these is reported when its node is made, and a rollback, after which it lies ahead
again, takes its report back as well.  A run that stays below the nesting limit thus gives account of all that
it has read (`Outlook.Accounts`): of each unknown character by a report and a node of its own, in order, and of
each unfinished string by a report at its start.
-/

namespace LuaTree

open LuaTree.Parser

/-! ## Unknown characters -/

/-- The report of an unknown character. -/
def Token.unexpected (t : Token) : Diagnostic := ⟨.unexpectedCharacter, t.span, none, []⟩

/-- The tokens that no rule knows. -/
def unknownOf (ls : List (Token × Nat)) : List (Token × Nat) := ls.filter (·.1.kind = .invalidChar)

theorem unknownOf_append (ls ms : List (Token × Nat)) : unknownOf (ls ++ ms) = unknownOf ls ++ unknownOf ms :=
  List.filter_append ..

/-- What stands in an Error node. -/
def Trouble.inside? : Trouble → Option (List Draft)
  | .garbage => none
  | .error ds _ => some ds

/-- The Error nodes of drafts. -/
def Draft.errorsOfList (behind : List (Token × Nat)) (ds : List Draft) : List (List Draft) :=
  (Draft.troublesOfList behind ds).filterMap Trouble.inside?

theorem leavesOfList_unknownNodes (ls : List (Token × Nat)) :
    Draft.leavesOfList (unknownNodes ls) = ls.takeWhile (·.1.kind = .invalidChar) := by
  have h := (leaves_unknownNodes ls).trans
    (List.takeWhile_append_dropWhile (p := fun l : Token × Nat => decide (l.1.kind = .invalidChar))).symm
  exact List.append_cancel_right h

theorem unknownOf_unknownNodes (ls : List (Token × Nat)) :
    unknownOf (Draft.leavesOfList (unknownNodes ls)) = ls.takeWhile (·.1.kind = .invalidChar) := by
  rw [unknownOf, leavesOfList_unknownNodes, List.filter_eq_self]
  intro l hl
  exact List.mem_takeWhile_imp (p := fun l : Token × Nat => decide (l.1.kind = .invalidChar)) hl

/-- Each of them stands in a node of its own. -/
theorem errorsOfList_unknownNodes (R ls : List (Token × Nat)) : Draft.errorsOfList R (unknownNodes ls) =
    (ls.takeWhile (·.1.kind = .invalidChar)).map fun l => [.leaf l.2 l.1] := by
  induction ls with
  | nil => rfl
  | cons l ls ih =>
    rw [unknownNodes, List.takeWhile_cons]
    by_cases hl : l.1.kind = .invalidChar
    · rw [if_pos hl, if_pos (by simpa using hl), List.map_cons, ← ih]
      rfl
    · rw [if_neg hl, if_neg (by simpa using hl)]
      rfl

/-! ## Where the last report was -/

namespace Outlook

/-- **The last report is among the diagnostics, and not about an unknown character ahead.** -/
structure Fresh (a : Outlook) : Prop where
  kept : ∀ n ∈ a.lastReported, ∃ d ∈ a.diagnostics, d.span.start = n
  free : ∀ l ∈ a.ahead, l.1.kind = .invalidChar → a.lastReported ≠ some l.1.start

variable {i : Input} {a a₀ a' : Outlook} {d : Diagnostic} {F F' : List Draft}

/-- Below the limit a report is among the diagnostics, or there is one at its place. -/
theorem exists_at_told (hkept : ∀ n ∈ a.lastReported, ∃ d ∈ a.diagnostics, d.span.start = n)
    (hlimit : a.limitReached = false) (d : Diagnostic) :
    ∃ e ∈ (a.told d).diagnostics, e.span.start = d.span.start := by
  rw [told, hlimit, Bool.false_or]
  split
  · rename_i hlast
    exact hkept _ (beq_iff_eq.1 hlast)
  · exact ⟨d, by simp, rfl⟩

theorem Fresh.told (h : a.Fresh) (hd : ∀ l ∈ a.ahead, l.1.kind = .invalidChar → d.span.start ≠ l.1.start) :
    (a.told d).Fresh := by
  rw [Outlook.told]
  split
  · exact h
  · refine ⟨fun n hn => ⟨d, by simp, Option.some.inj hn⟩, fun l hl hkind heq => hd l hl hkind ?_⟩
    exact Option.some.inj heq

/-- **Each unknown character in front is reported**, in order. -/
theorem passed_spec : ∀ {ls : List (Token × Nat)} {a : Outlook}, a.limitReached = false →
    (∀ n ∈ a.lastReported, ∃ d ∈ a.diagnostics, d.span.start = n) →
    (∀ l ∈ ls, l.1.kind = .invalidChar → a.lastReported ≠ some l.1.start) →
    (ls.Pairwise fun l m => l.1.start < m.1.start) → (a.passed ls).Fresh ∧ (a.passed ls).diagnostics =
      a.diagnostics ++ (ls.takeWhile (·.1.kind = .invalidChar)).map fun l => l.1.unexpected
  | [], a, _, hkept, _, _ => ⟨⟨hkept, nofun⟩, (List.append_nil _).symm⟩
  | l :: ls, a, hlimit, hkept, hfree, hordered => by
    rw [List.pairwise_cons] at hordered
    rw [passed, List.takeWhile_cons]
    by_cases hl : l.1.kind = .invalidChar
    case neg =>
      rw [if_neg hl, if_neg (by simpa using hl)]
      exact ⟨⟨hkept, hfree⟩, (List.append_nil _).symm⟩
    rw [if_pos hl, if_pos (by simpa using hl)]
    have htold : a.told l.1.unexpected =
        { a with lastReported := some l.1.start, diagnostics := a.diagnostics ++ [l.1.unexpected] } := by
      have hlast : a.lastReported ≠ some l.1.unexpected.span.start := hfree l List.mem_cons_self hl
      rw [Outlook.told, if_neg (by simpa [hlimit] using hlast)]
      rfl
    change (passed (a.told l.1.unexpected) ls).Fresh ∧ (passed (a.told l.1.unexpected) ls).diagnostics = _
    rw [htold]
    obtain ⟨hfresh, hdiagnostics⟩ := passed_spec
      (a := { a with lastReported := some l.1.start, diagnostics := a.diagnostics ++ [l.1.unexpected] }) hlimit
      (fun n hn => ⟨l.1.unexpected, by simp, Option.some.inj hn⟩)
      (fun m hm _ heq => (hordered.1 m hm).ne (Option.some.inj heq)) hordered.2
    refine ⟨hfresh, ?_⟩
    rw [hdiagnostics, List.map_cons, List.append_assoc]
    rfl

/-! ## Giving account -/

/-- **What was read below the nesting limit is accounted for**: the unknown characters by a report and a node
each, in order, and the unfinished strings by a report at their starts. -/
structure Accounts (a₀ a : Outlook) (F : List Draft) : Prop where
  read : a₀.ahead = Draft.leavesOfList F ++ a.ahead
  before : a₀.limitReached = false
  limit : a.limitReached = false
  fresh : a.Fresh
  unknown : ∃ ds, a.diagnostics = a₀.diagnostics ++ ds ∧ (∀ d ∈ ds, d.problem ≠ .unfinishedComment) ∧
    ds.filter (·.problem = .unexpectedCharacter) =
      (unknownOf (Draft.leavesOfList F)).map fun l => l.1.unexpected
  errors : Draft.errorsOfList a.ahead F = (unknownOf (Draft.leavesOfList F)).map fun l => [.leaf l.2 l.1]
  strings : ∀ l ∈ Draft.leavesOfList F, Token.closesString? l.1.kind l.1.text.toList = some false →
    ∃ d ∈ a.diagnostics, d.span.start = l.1.start

namespace Accounts

theorem refl (h : a.Fresh) (hlimit : a.limitReached = false) : Accounts a a [] :=
  ⟨rfl, hlimit, hlimit, h, ⟨[], (List.append_nil _).symm, nofun, rfl⟩, rfl, nofun⟩

theorem trans (h : Accounts a₀ a F) (h' : Accounts a a' F') : Accounts a₀ a' (F ++ F') := by
  obtain ⟨ds, hds, hcomments, hunknown⟩ := h.unknown
  obtain ⟨es, hes, hcomments', hunknown'⟩ := h'.unknown
  have hleaves := Draft.leavesOfList_append F F'
  refine ⟨?_, h.before, h'.limit, h'.fresh, ⟨ds ++ es, ?_, ?_, ?_⟩, ?_, fun l hl hopen => ?_⟩
  · rw [h.read, h'.read, hleaves, List.append_assoc]
  · rw [hes, hds, List.append_assoc]
  · exact fun d hd => (List.mem_append.1 hd).elim (hcomments d) (hcomments' d)
  · rw [List.filter_append, hunknown, hunknown', hleaves, unknownOf_append, List.map_append]
  · rw [Draft.errorsOfList, Draft.troublesOfList_append, List.filterMap_append, hleaves, unknownOf_append,
      List.map_append, ← h.errors, ← h'.errors, h'.read]
    rfl
  · rw [hleaves, List.mem_append] at hl
    rcases hl with hl | hl
    · obtain ⟨d, hd, hstart⟩ := h.strings l hl hopen
      exact ⟨d, hes ▸ List.mem_append_left _ hd, hstart⟩
    · exact h'.strings l hl hopen

/-- Only the tokens and the Error nodes matter. -/
theorem congr (h : Accounts a₀ a F) (hleaves : Draft.leavesOfList F' = Draft.leavesOfList F)
    (herrors : Draft.errorsOfList a.ahead F' = Draft.errorsOfList a.ahead F) : Accounts a₀ a F' := by
  obtain ⟨read, before, limit, fresh, unknown, errors, strings⟩ := h
  rw [← hleaves] at read unknown strings errors
  exact ⟨read, before, limit, fresh, unknown, herrors.trans errors, strings⟩

/-- A report that is about nothing of the sort. -/
theorem told (h : Accounts a₀ a F) (hproblem : d.problem ∉ Problem.ungrammatical)
    (hd : ∀ l ∈ a.ahead, l.1.kind = .invalidChar → d.span.start ≠ l.1.start) : Accounts a₀ (a.told d) F := by
  simp only [Problem.ungrammatical, List.mem_cons, List.not_mem_nil, or_false, not_or] at hproblem
  obtain ⟨es, hes, -⟩ := adds_told (P := fun _ => True) a (d := d) trivial
  refine ⟨by rw [ahead_told, h.read], h.before, (limitReached_told ..).trans h.limit, h.fresh.told hd, ?_,
    by rw [ahead_told, h.errors], fun l hl hopen => ?_⟩
  · obtain ⟨ds, hds, hcomments, hunknown⟩ := h.unknown
    rw [Outlook.told]
    split
    · exact ⟨ds, hds, hcomments, hunknown⟩
    · refine ⟨ds ++ [d], by rw [hds, List.append_assoc], ?_, ?_⟩
      · exact List.forall_mem_append.2 ⟨hcomments, List.forall_mem_singleton.2 hproblem.2.2.1⟩
      · simpa [List.filter_append, hproblem.1] using hunknown
  · obtain ⟨e, he, hstart⟩ := h.strings l hl hopen
    exact ⟨e, hes ▸ List.mem_append_left _ he, hstart⟩

/-- Unknown characters are no strings. -/
theorem settle (h : a.Fresh) (hlimit : a.limitReached = false) (hi : i.Sound) (ha : a.Faces i) :
    Accounts a a.settle (unknownNodes a.ahead) := by
  obtain ⟨hfresh, hdiagnostics⟩ := passed_spec hlimit h.kept h.free (ha.pairwise_start hi)
  refine ⟨?_, hlimit, (limitReached_settle a).trans hlimit, hfresh, ⟨_, hdiagnostics, ?_, ?_⟩, ?_,
    fun l hl hopen => ?_⟩
  · rw [ahead_settle, leaves_unknownNodes]
  · intro d hd
    obtain ⟨l, -, rfl⟩ := List.mem_map.1 hd
    simp [Token.unexpected]
  · rw [unknownOf_unknownNodes, List.filter_eq_self]
    intro d hd
    obtain ⟨l, -, rfl⟩ := List.mem_map.1 hd
    simp [Token.unexpected]
  · rw [errorsOfList_unknownNodes, unknownOf_unknownNodes]
  · rw [leavesOfList_unknownNodes] at hl
    have hkind := List.mem_takeWhile_imp (p := fun l : Token × Nat => decide (l.1.kind = .invalidChar)) hl
    rw [closesString?_of_not_mem (by rw [of_decide_eq_true hkind]; decide)] at hopen
    cases hopen

/-- The next token, with a report if it is an unfinished string. -/
theorem unquoted {l : Token × Nat} {ls : List (Token × Nat)} (h : a.Fresh) (hlimit : a.limitReached = false)
    (hi : i.Sound) (ha : a.Ready i) (hl : a.ahead = l :: ls) :
    Accounts a (a.unquoted l.1 ls) [.leaf l.2 l.1] := by
  have hordered := ha.faces.pairwise_start hi
  rw [hl, List.pairwise_cons] at hordered
  have hknown : l.1.kind ≠ .invalidChar := ha.settled l (by simp [hl])
  have hfresh : Fresh { a with ahead := ls } :=
    ⟨h.kept, fun m hm => h.free m (hl ▸ List.mem_cons_of_mem _ hm)⟩
  have hunknown : unknownOf (Draft.leavesOfList [.leaf l.2 l.1]) = [] := by
    simp [unknownOf, Draft.leavesOfList, Draft.leaves, hknown]
  rw [Outlook.unquoted]
  split
  · have htold := hfresh.told (d := ⟨.unfinishedString, l.1.span, none, []⟩)
      fun m hm _ => (hordered.1 m hm).ne
    obtain ⟨ds, hds, hcomments⟩ := adds_told (P := fun d => d.problem = .unfinishedString)
      { a with ahead := ls } (d := ⟨.unfinishedString, l.1.span, none, []⟩) rfl
    refine ⟨?_, hlimit, (limitReached_told ..).trans hlimit, htold, ⟨ds, hds, fun d hd => ?_, ?_⟩, ?_,
      fun m hm _ => ?_⟩
    · rw [ahead_told, hl]
      rfl
    · simp [hcomments d hd]
    · rw [hunknown, List.filter_eq_nil_iff.2 fun d hd => by simp [hcomments d hd]]
      rfl
    · rw [hunknown]
      rfl
    · obtain rfl : m = l := by simpa [Draft.leavesOfList, Draft.leaves] using hm
      exact exists_at_told hfresh.kept hlimit ⟨.unfinishedString, m.1.span, none, []⟩
  · rename_i hclosed
    refine ⟨hl, hlimit, hlimit, hfresh, ⟨[], (List.append_nil _).symm, List.forall_mem_nil _, ?_⟩, ?_,
      fun m hm hopen => ?_⟩
    · rw [hunknown]
      rfl
    · rw [hunknown]
      rfl
    · obtain rfl : m = l := by simpa [Draft.leavesOfList, Draft.leaves] using hm
      exact absurd hopen hclosed

/-- The next token and the unknown characters behind it. -/
theorem advance {l : Token × Nat} {ls : List (Token × Nat)} (h : a.Fresh) (hlimit : a.limitReached = false)
    (hi : i.Sound) (ha : a.Ready i) (hl : a.ahead = l :: ls) :
    Accounts a a.advance (.leaf l.2 l.1 :: unknownNodes ls) := by
  have hunquoted := unquoted h hlimit hi ha hl
  have hahead : (a.unquoted l.1 ls).ahead = ls := ahead_unquoted ..
  have hfaces : (a.unquoted l.1 ls).Faces i := by
    rw [Faces, hahead]
    exact (List.suffix_cons l ls).trans (hl ▸ ha.faces)
  have hsettle := settle hunquoted.fresh hunquoted.limit hi hfaces
  rw [hahead] at hsettle
  rw [Outlook.advance, hl]
  exact hunquoted.trans hsettle

end Accounts

end Outlook

/-! ## Runs that give account -/

namespace Outlook

/-- The nesting limit has been reached and reported. -/
def Reached (a : Outlook) : Prop :=
  a.limitReached = true ∧ ∃ d ∈ a.diagnostics, d.problem = .recursionLimitExceeded

theorem Reached.later {a a' : Outlook} (h : a.Reached) (hadds : a.Adds (fun _ => True) a')
    (hlimit : a'.limitReached = a.limitReached) : a'.Reached :=
  let ⟨hreached, d, hd, hproblem⟩ := h
  ⟨hlimit.trans hreached, d, hadds.mem hd, hproblem⟩

end Outlook

section

variable {i : Input} {a a₀ : Outlook} {x : Span}

/-- Tokens at different places. -/
theorem start_ne_of_kind {t u : Token} (hi : i.Sound) (ht : t ∈ i.tokens) (hu : u ∈ i.tokens)
    (h : t.kind ≠ u.kind) : t.start ≠ u.start := by
  have hnodup : (i.tokens.map Token.start).Nodup := List.pairwise_map.2 (hi.pairwise_start.imp fun h => h.ne)
  exact fun heq => h (congrArg Token.kind (List.inj_on_of_nodup_map hnodup ht hu heq))

/-- What a report is about is no unknown character. -/
def Span.Known (i : Input) (x : Span) : Prop := ∀ t ∈ i.tokens, t.kind = .invalidChar → x.start ≠ t.start

theorem Outlook.Ready.known (ha : a.Ready i) (hi : i.Sound) : (a.span i.size).Known i := by
  intro t ht hkind
  rw [ha.start_span]
  cases hl : a.ahead with
  | nil => exact ((hi.start_lt_stop ht).trans_le (hi.within t ht)).ne'
  | cons l ls =>
    have hmem := (ha.faces.mem (l := l) (by simp [hl])).1
    exact start_ne_of_kind hi hmem ht (hkind ▸ ha.settled l (by simp [hl]))

theorem known_of_spanOf {ls : List (Token × Nat)} (hi : i.Sound) (ha₀ : a₀.Ready i) (ha : a.Ready i)
    (hls : a₀.ahead = ls ++ a.ahead) (hx : SpanOf a i.size ls x) : x.Known i := by
  rcases hx with ⟨l, -, hl, -, hstart, -⟩ | ⟨-, rfl⟩
  · intro t ht hkind
    have hhead : l ∈ a₀.ahead.head? := by
      rw [hls, List.head?_append, hl]
      rfl
    rw [hstart]
    exact start_ne_of_kind hi (ha₀.faces.mem (List.mem_of_mem_head? hhead)).1 ht
      (hkind ▸ ha₀.settled l hhead)
  · exact ha.known hi

end

/-- **That a run gives account of what it has read is kept by every word**, until the nesting limit is
reached. -/
def Parser.Trait.accounting {i : Input} (hi : i.Sound) : Trait i where
  Holds a₀ a F := a.Reached ∨ a₀.Accounts a F
  Spans := Span.Known i
  now h := h.imp_right fun h => .refl h.fresh h.limit
  trans {a₀ a a' F F'} h h' := by
    rcases h' with h' | h'
    · exact .inl h'
    rcases h with h | h
    · exact absurd h.1 (by simp [h'.before])
    · exact .inr (h.trans h')
  blank := or_congr_right ⟨fun h => h.congr rfl rfl, fun h => h.congr rfl rfl⟩
  wrapping h := h.imp_right fun h => h.congr rfl rfl
  close h hd hk _ := h.imp_right fun h => h.congr
    (by simp [Draft.leavesOfList, Draft.leaves, Draft.leaves_close hd]) (by
      rw [Draft.errorsOfList, Draft.troubles_close hd hk, List.filterMap_append]
      split <;> rfl)
  span ha := ha.known hi
  spanOf ha₀ ha hls hx := known_of_spanOf hi ha₀ ha hls hx
  told {a₀ a F d} h ha hd _ hproblem := h.imp
    (fun h => h.later (Outlook.adds_told a trivial) (Outlook.limitReached_told ..))
    fun h => h.told hproblem fun l hl hkind => hd l.1 (ha.faces.mem hl).1 hkind
  settle {a} h ha := h.imp
    (fun h => h.later (Outlook.adds_passed a fun _ _ _ => trivial) (Outlook.limitReached_settle a))
    fun h => .settle h.fresh h.limit hi ha
  advance {a l ls} h ha hl := h.imp
    (fun h => h.later (Outlook.adds_advance a fun _ _ _ _ => trivial) (Outlook.limitReached_advance a))
    fun h => .advance h.fresh h.limit hi ha hl
  bail {a} limit h ha := by
    rw [Outlook.bail]
    split
    · rename_i hreached
      exact .inl (h.resolve_right fun h => by simp [h.limit] at hreached)
    · exact .inl ⟨rfl, _, List.mem_append_right _ (List.mem_singleton_self _), rfl⟩

/-! ## Lexical faults of a source -/

section

variable {source : String} {settings : Settings} {p : Parse}

/-- **A parse that tells of every lexical fault.** -/
structure Parse.TellsFaults (p : Parse) (source : String) : Prop where
  /-- Each unknown character is reported, in order, -/
  unknown : p.diagnostics.filter (·.problem = .unexpectedCharacter) =
    ((lex source).filter (·.kind = .invalidChar)).map fun t => ⟨.unexpectedCharacter, t.span, none, []⟩
  /-- and stands in an Error node of its own; there are no others. -/
  errors : p.tree.nodes.filter (·.kind = .error) =
    ((lex source).filter (·.kind = .invalidChar)).map fun t => ⟨t.start, .node .error [t.tree]⟩
  /-- At each unfinished string something is reported. -/
  strings : ∀ t ∈ lex source, Token.closesString? t.kind t.text.toList = some false →
    ∃ d ∈ p.diagnostics, d.span.start = t.start
  /-- The unfinished comments are reported in order, before all else. -/
  comments : ∃ ds, p.diagnostics = ((lex source).filter fun t =>
      Token.closesComment? t.kind t.text.toList = some false).map (fun t =>
        ⟨.unfinishedComment, t.span, none, []⟩) ++ ds ∧
    ∀ d ∈ ds, d.problem ≠ .unfinishedComment

/-- The tokens of a source that no rule knows. -/
theorem unknownOf_solidFrom (n : Nat) (ts : List Token) :
    (unknownOf (solidFrom n ts)).map Prod.fst = ts.filter (·.kind = .invalidChar) := by
  have hsolid : (unknownOf (solidFrom n ts)).map Prod.fst =
      ((solidFrom n ts).map Prod.fst).filter (·.kind = .invalidChar) := by
    rw [unknownOf, List.filter_map]
    rfl
  rw [hsolid, map_fst_solidFrom, List.filter_filter]
  refine List.filter_congr fun t _ => ?_
  by_cases hkind : t.kind = .invalidChar
  · rw [hkind]
    rfl
  · simp [hkind]

/-- Error nodes around single unknown characters are where these are. -/
theorem errors_of_shown {ls : List Located} {ms : List Trouble}
    (h : List.Forall₂ (Trouble.Shown (lex source)) ls ms) : ∀ {us : List (Token × Nat)},
    ms.filterMap Trouble.inside? = us.map (fun l => [.leaf l.2 l.1]) →
    ls.filter (·.kind = .error) = us.map fun l => ⟨l.1.start, .node .error [l.1.tree]⟩ := by
  induction h with
  | nil =>
    intro us hus
    rw [List.map_eq_nil_iff.1 hus.symm]
    rfl
  | @cons l m ls ms hl _ ih =>
    intro us hus
    cases m with
    | garbage =>
      have hkind : l.kind = .garbage := hl
      rw [List.filter_cons_of_neg (by simp [hkind])]
      exact ih hus
    | error ds R =>
      rw [List.filterMap_cons] at hus
      obtain ⟨u, us, rfl, hu, htail⟩ := List.map_eq_cons_iff.1 hus.symm
      obtain rfl : [.leaf u.2 u.1] = ds := hu
      obtain ⟨rfl, -⟩ := Trouble.shown_unknown (tiles_lex source) hl List.suffix_rfl
      rw [List.filter_cons_of_pos (by rfl), ih htail.symm]
      rfl

end

/-- **No lexical fault goes unreported**, unless the nesting limit is reached. -/
theorem faults_of_parse (source : String) (settings : Settings) : ∃ p, parse source settings = .ok p ∧
    ((∃ d ∈ p.diagnostics, d.problem = .recursionLimitExceeded) ∨ p.TellsFaults source) := by
  have htiles := tiles_lex source
  obtain ⟨p, hp, -⟩ := parseTokens_spec htiles (fun _ => isToken_of_mem_lex)
    (fun _ => dashed_of_mem_lex) settings
  refine ⟨p, hp, ?_⟩
  have hi : (Input.ofSource source settings).Sound := sound_ofTokens htiles fun _ => isToken_of_mem_lex
  obtain ⟨a₀, a, F, ha₀, h, hF⟩ := (Trait.accounting hi).parses
    (fun a ha => .inr (.refl ⟨by simp [ha.lastReported], by simp [ha.lastReported]⟩ ha.limitReached)) hp
  rcases h with ⟨-, d, hd, hproblem⟩ | h
  · exact .inl ⟨d, hF.diagnostics ▸ hd, hproblem⟩
  right
  have hleaves : Draft.leavesOfList [.grown (.node .chunk F)] = solidFrom 0 (lex source) := by
    rw [hF.leaves]
    simp [Draft.leavesOfList, Draft.leaves, Branch.leaves]
  have hnothing : a.ahead = [] := by
    have hread := h.read
    rw [ha₀.ahead, hleaves] at hread
    exact List.self_eq_append_right.1 hread
  obtain ⟨ds, hds, hcomments, hunknown⟩ := h.unknown
  rw [ha₀.comments] at hds
  refine ⟨?_, ?_, fun t ht hopen => ?_, ds, hF.diagnostics.trans hds, hcomments⟩
  · have hnone : (Token.unfinishedComments (lex source)).filter (·.problem = .unexpectedCharacter) = [] :=
      List.filter_eq_nil_iff.2 fun d hd => by simp [ha₀.problem d (ha₀.comments ▸ hd)]
    rw [hF.diagnostics, hds, List.filter_append, hunknown, hleaves]
    change List.filter _ (Token.unfinishedComments (lex source)) ++ _ = _
    rw [hnone, ← unknownOf_solidFrom 0, List.map_map]
    rfl
  · have herrors := h.errors
    rw [hnothing, hleaves, Draft.errorsOfList] at herrors
    have hone : Draft.troublesOfList [] [.grown (.node .chunk F)] = Draft.troublesOfList [] F := by
      simp [Draft.troublesOfList, Draft.troubles, Branch.troubles, Trouble.ofNode, Draft.leavesOfList]
    have hshown := errors_of_shown hF.troubles (hone ▸ herrors)
    rw [List.filter_filter] at hshown
    rw [← unknownOf_solidFrom 0, List.map_map]
    refine Eq.trans (List.filter_congr fun l _ => ?_) hshown
    by_cases hkind : l.kind = .error <;> simp [hkind, Located.isTrouble]
  · have hsolid : t.kind.isTrivia = false := by
      by_contra htrivia
      have hnot : t.kind ∉ KindSet.strings := by
        have hall : ∀ k ∈ Kind.all, k.isTrivia = true → k ∉ KindSet.strings := by decide +kernel
        exact hall _ (Kind.mem_all _) (by simpa using htrivia)
      rw [closesString?_of_not_mem hnot] at hopen
      cases hopen
    have hmem : t ∈ (solidFrom 0 (lex source)).map Prod.fst := by
      rw [map_fst_solidFrom, List.mem_filter]
      exact ⟨ht, by simp [hsolid]⟩
    obtain ⟨l, hl, rfl⟩ := List.mem_map.1 hmem
    obtain ⟨d, hd, hstart⟩ := h.strings l (hleaves ▸ hl) hopen
    exact ⟨d, hF.diagnostics ▸ hd, hstart⟩

end LuaTree
