import LuaTree.Proofs.Placing
import LuaTree.Proofs.Trait

/-!
# Proofs/Pointing — the spans of diagnostics

A word that reports takes its span from the tokens: from the next one, from those that were consumed since a
moment, or from all that is left.  What a report notes was consumed before, so it ends in front of the next
token, which the report is about (`Outlook.Past.before`).  That all spans point to tokens in this way is kept by
every word (`Trait.pointing`), and so it holds of the diagnostics of every parse (`points_of_parse`).
-/

namespace LuaTree

open LuaTree.Parser

/-- **A span that points to tokens** of a source of some size: from the start of one of them or the end of
the source to the end of one of them, unless it is empty. -/
structure Span.Points (tokens : List Token) (size : Nat) (x : Span) : Prop where
  start : (∃ t ∈ tokens, x.start = t.start) ∨ x.start = size
  stop : (∃ t ∈ tokens, x.stop = t.stop) ∨ x.stop = x.start
  within : x.stop ≤ size

/-- **A diagnostic that points to tokens**, its notes to single ones in front of its span. -/
structure Diagnostic.Points (tokens : List Token) (size : Nat) (d : Diagnostic) : Prop where
  span : d.span.Points tokens size
  notes : ∀ n ∈ d.notes, ∃ t ∈ tokens, n.span = t.span ∧ t.stop ≤ d.span.start

section

variable {i : Input} {a a₀ : Outlook} {x : Span}

theorem Token.points (hi : i.Sound) {t : Token} (ht : t ∈ i.tokens) : t.span.Points i.tokens i.size :=
  ⟨.inl ⟨t, ht, rfl⟩, .inl ⟨t, ht, rfl⟩, hi.within t ht⟩

/-- A report without notes. -/
theorem Span.Points.diagnostic {tokens : List Token} {size : Nat} (hx : x.Points tokens size)
    (problem : Problem) (detail : Option String) : Diagnostic.Points tokens size ⟨problem, x, detail, []⟩ :=
  ⟨hx, List.forall_mem_nil _⟩

/-- The next token, or the end. -/
theorem Outlook.Ready.points (ha : a.Ready i) (hi : i.Sound) : (a.span i.size).Points i.tokens i.size := by
  cases hl : a.ahead with
  | nil =>
    have hspan : a.span i.size = .place i.size := by
      rw [Outlook.span, Outlook.significant, hl]
      rfl
    rw [hspan]
    exact ⟨.inr rfl, .inr rfl, Nat.le_refl _⟩
  | cons l ls =>
    rw [ha.span_eq hl]
    exact Token.points hi (ha.faces.mem (by simp [hl])).1

/-- Tokens that were consumed, or the place of the next one. -/
theorem points_of_spanOf {ls : List (Token × Nat)} (hi : i.Sound) (ha₀ : a₀.Faces i) (ha : a.Ready i)
    (hls : a₀.ahead = ls ++ a.ahead) (hx : SpanOf a i.size ls x) : x.Points i.tokens i.size := by
  have hmem {l : Token × Nat} (hl : l ∈ ls) : l.1 ∈ i.tokens :=
    (ha₀.mem (hls ▸ List.mem_append_left _ hl)).1
  rcases hx with ⟨l, m, hl, hm, hstart, hstop⟩ | ⟨-, rfl⟩
  · have hl := hmem (List.mem_of_head? hl)
    have hm := hmem (List.mem_of_getLast? hm)
    exact ⟨.inl ⟨_, hl, hstart⟩, .inl ⟨_, hm, hstop⟩, hstop ▸ hi.within _ hm⟩
  · have hnext := ha.points hi
    exact ⟨hnext.start, .inr rfl, (a.span i.size).start_le_stop.trans hnext.within⟩

/-- **What was read before ends in front of what comes next.** -/
theorem Outlook.Past.before (h : a.Past i x) (hi : i.Sound) (ha : a.Ready i) :
    ∃ t ∈ i.tokens, x = t.span ∧ t.stop ≤ (a.span i.size).start := by
  obtain ⟨ls, l, hls, hl, rfl⟩ := h
  have hfaces : Outlook.Faces ⟨ls ++ a.ahead, [], none, false⟩ i := by
    rw [Outlook.Faces, hls]
  have hmem : l.1 ∈ i.tokens := (hfaces.mem (List.mem_append_left _ hl)).1
  refine ⟨l.1, hmem, rfl, ?_⟩
  rw [ha.start_span]
  cases hm : a.ahead with
  | nil => exact hi.within _ hmem
  | cons m ms =>
    have hordered : ((solidFrom 0 i.tokens).map Prod.fst).Pairwise fun t u => t.stop ≤ u.start := by
      rw [map_fst_solidFrom]
      exact hi.ordered.filter _
    rw [← hls, List.map_append, List.pairwise_append] at hordered
    exact hordered.2.2 _ (List.mem_map_of_mem hl) _ (List.mem_map_of_mem (hm ▸ List.mem_cons_self))

end

/-- **That the diagnostics point to tokens is kept by every word.** -/
def Parser.Trait.pointing {i : Input} (hi : i.Sound) (hend : ∀ t ∈ i.tokens.getLast?, t.stop = i.size) :
    Trait i where
  Holds a₀ a _ := a₀.Adds (Diagnostic.Points i.tokens i.size) a
  Spans := Span.Points i.tokens i.size
  now _ := .refl _
  trans := .trans
  blank := .rfl
  wrapping := id
  close h _ _ _ := h
  span ha := ha.points hi
  spanOf ha₀ ha hls hx := points_of_spanOf hi ha₀.faces ha hls hx
  told h ha hd hrecalls _ := by
    refine h.trans (Outlook.adds_told _ ⟨hd, fun n hn => ?_⟩)
    obtain ⟨hpast, hspan⟩ := hrecalls.notes n hn
    rw [hspan]
    exact hpast.before hi ha
  settle _ ha := Outlook.adds_passed _ fun l hl _ => (Token.points hi (ha.mem hl).1).diagnostic _ _
  advance _ ha _ := Outlook.adds_advance _ fun l hl _ _ => (Token.points hi (ha.faces.mem hl).1).diagnostic _ _
  bail {a} limit _ ha := by
    rw [Outlook.bail]
    split
    · exact .refl a
    refine ⟨_, rfl, List.forall_mem_singleton.2 (Span.Points.diagnostic ?_ _ _)⟩
    have hnext := ha.points hi
    have hle := (a.span i.size).start_le_stop.trans hnext.within
    have hstop : (a.span i.size).start + (i.size - (a.span i.size).start) = i.size := Nat.add_sub_cancel' hle
    refine ⟨hnext.start, ?_, hstop.le⟩
    -- it ends with the last token, if one is left
    rcases hnext.start with ⟨t, ht, -⟩ | hstart
    · have hlast := List.getLast?_eq_some_getLast (List.ne_nil_of_mem ht)
      exact .inl ⟨_, List.getLast_mem (List.ne_nil_of_mem ht), hstop.trans (hend _ hlast).symm⟩
    · exact .inr (hstop.trans hstart.symm)

variable {source : String} {settings : Settings} {p : Parse}

/-- The last token ends where the source ends. -/
theorem stop_of_getLast? : ∀ t ∈ (lex source).getLast?, t.stop = source.utf8ByteSize := by
  intro t ht
  obtain ⟨ts, hts⟩ := List.getLast?_eq_some_iff.1 ht
  have htiles := tiles_lex source
  have hadjacent := htiles.adjacent
  rw [hts] at hadjacent
  rw [← htiles.text, hts]
  change t.stop = Token.sizeOfList (ts ++ [t])
  rw [Token.sizeOfList_append, Token.stop, hadjacent.append.1, Nat.zero_add, Token.sizeOfList_cons]
  rfl

/-- **The diagnostics of a parse point to tokens of the source.** -/
theorem points_of_parse (hp : parse source settings = .ok p) :
    ∀ d ∈ p.diagnostics, d.Points (lex source) source.utf8ByteSize := by
  have hi : (Input.ofSource source settings).Sound := sound_ofTokens (tiles_lex source)
    fun _ => isToken_of_mem_lex
  obtain ⟨a₀, a, F, ha₀, ⟨ds, hds, hpoints⟩, hF⟩ := (Trait.pointing hi stop_of_getLast?).parses
    (fun _ _ => .refl _) hp
  intro d hd
  rw [hF.diagnostics, hds, List.mem_append] at hd
  refine hd.elim (fun hd => ?_) (hpoints d)
  rw [ha₀.comments, Token.unfinishedComments, List.mem_map] at hd
  obtain ⟨t, ht, rfl⟩ := hd
  exact (Token.points hi (List.mem_filter.1 ht).1).diagnostic _ _

end LuaTree
