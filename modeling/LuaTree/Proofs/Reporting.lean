import LuaTree.Command.Output
import LuaTree.Proofs.Extent
import LuaTree.Proofs.Pointing

/-!
# Proofs/Reporting — every diagnostic of a parse can be shown

A report cuts the source at the ends of spans, and its lines as well, so these have to lie between
characters (`IsCut`).  The tokens do, hence so do the spans of a parse, wide or widened; and a place between
characters of the source is one in each line, or lies outside of it (`Line.before?_of_cut`).
-/

namespace LuaTree

/-! ## Places between characters -/

/-- **A byte offset between characters** of a text, or at one of its ends. -/
def IsCut (cs : List Char) (n : Nat) : Prop := ∃ as bs, cs = as ++ bs ∧ byteLength as = n

namespace IsCut

variable {cs ds : List Char} {n : Nat}

theorem zero (cs : List Char) : IsCut cs 0 := ⟨[], cs, rfl, rfl⟩

theorem all (cs : List Char) : IsCut cs (byteLength cs) := ⟨cs, [], (List.append_nil cs).symm, rfl⟩

theorem le (h : IsCut cs n) : n ≤ byteLength cs := by
  obtain ⟨as, bs, rfl, rfl⟩ := h
  rw [byteLength_append]
  exact Nat.le_add_right _ _

/-- A place of a joined text is one of a part of it, or lies outside. -/
theorem left (h : IsCut (cs ++ ds) n) : IsCut cs (min n (byteLength cs)) := by
  obtain ⟨as, bs, hcs, rfl⟩ := h
  rcases List.append_eq_append_iff.1 hcs with ⟨us, rfl, -⟩ | ⟨us, rfl, -⟩
  · rw [byteLength_append, Nat.min_eq_right (Nat.le_add_right _ _)]
    exact all cs
  · rw [byteLength_append, Nat.min_eq_left (Nat.le_add_right _ _)]
    exact ⟨as, us, rfl, rfl⟩

theorem right (h : IsCut (cs ++ ds) n) : IsCut ds (n - byteLength cs) := by
  obtain ⟨as, bs, hcs, rfl⟩ := h
  rcases List.append_eq_append_iff.1 hcs with ⟨us, rfl, rfl⟩ | ⟨us, rfl, -⟩
  · rw [byteLength_append, Nat.add_sub_cancel_left]
    exact ⟨us, bs, rfl, rfl⟩
  · rw [byteLength_append, Nat.sub_eq_zero_of_le (Nat.le_add_right _ _)]
    exact zero ds

theorem takeBytes? (h : IsCut cs n) : ∃ as, takeBytes? cs n = some as := by
  obtain ⟨as, bs, rfl, rfl⟩ := h
  exact ⟨as, takeBytes?_append as bs⟩

end IsCut

/-! ## Lines -/

namespace Line

theorem exists_break (raw : List Char) : ∃ mark, raw = withoutBreak raw ++ mark := by
  rw [withoutBreak]
  split
  · rename_i r h
    exact ⟨['\r', '\n'], by rw [← List.reverse_reverse raw, h]; simp⟩
  · rename_i r _ h
    exact ⟨['\n'], by rw [← List.reverse_reverse raw, h]; simp⟩
  · exact ⟨[], (List.append_nil raw).symm⟩

/-- A line stands between two parts of the text. -/
theorem exists_place_of_mem {line : Line} : ∀ {ls : List (List Char)} {number start : Nat},
    line ∈ place number start ls → ∃ before after, ls.flatten = before ++ (line.text ++ after) ∧
      line.start = start + byteLength before
  | [], _, _, h => by simp [place] at h
  | l :: ls, number, start, h => by
    rw [place, List.mem_cons] at h
    rcases h with rfl | h
    · obtain ⟨mark, hmark⟩ := exists_break l
      refine ⟨[], mark ++ ls.flatten, ?_, rfl⟩
      rw [List.flatten_cons, List.nil_append, ← List.append_assoc]
      exact congrArg (· ++ ls.flatten) hmark
    · obtain ⟨before, after, hls, hstart⟩ := exists_place_of_mem h
      refine ⟨l ++ before, after, by rw [List.flatten_cons, hls, List.append_assoc], ?_⟩
      rw [hstart, byteLength_append, Nat.add_assoc]

theorem find_mem (offset : Nat) (l : Line) (ls : List Line) : find offset l ls ∈ l :: ls := by
  induction ls generalizing l with
  | nil => exact List.mem_cons_self
  | cons next ls ih =>
    rw [find]
    split
    · exact List.mem_cons_self
    · exact List.mem_cons_of_mem _ (ih next)

/-- **What stands in a line before a place of the source** can be told for every line. -/
theorem before?_of_cut {source : List Char} {n : Nat} (h : IsCut source n) {line : Line}
    (hline : line ∈ (split source).1 :: (split source).2) : ∃ cs, line.before? n = some cs := by
  rw [before?]
  refine IsCut.takeBytes? ?_
  rw [split] at hline
  cases hplace : place 1 0 (cut source) with
  | nil =>
    simp only [hplace, List.mem_singleton] at hline
    obtain rfl : line = ⟨1, 0, [], 0⟩ := hline
    exact (Nat.min_zero n).symm ▸ IsCut.zero []
  | cons l ls =>
    have hmem : line ∈ place 1 0 (cut source) := by simpa [hplace] using hline
    obtain ⟨before, after, hsource, hstart⟩ := exists_place_of_mem hmem
    rw [flatten_cut] at hsource
    rw [hstart, Nat.zero_add]
    rw [hsource] at h
    exact h.right.left

end Line

/-! ## Marks -/

namespace Report

variable {source : List Char} {x : Span}

/-- A span that begins and ends between characters. -/
structure Fits (source : List Char) (x : Span) : Prop where
  start : IsCut source x.start
  stop : IsCut source x.stop

/-- **Such a span can be widened**, to one that begins where it begins and is not empty, except at the end. -/
theorem Fits.widen? (h : Fits source x) : ∃ y, widen? source x = some y ∧ Fits source y ∧
    y.start = x.start ∧ (y.isEmpty = true → x = .place (byteLength source)) := by
  rw [Report.widen?]
  by_cases hempty : x.isEmpty = true
  case neg => exact ⟨x, if_neg hempty, h, rfl, fun hx => absurd hx hempty⟩
  rw [if_pos hempty]
  obtain ⟨as, bs, rfl, hstart⟩ := h.start
  have hdrop : dropBytes? (as ++ bs) x.start = some bs := hstart ▸ dropBytes?_append as bs
  rw [hdrop]
  cases bs with
  | nil =>
    refine ⟨x, rfl, h, rfl, fun _ => ?_⟩
    have hstop : x.start = x.stop := by simpa [Span.isEmpty] using hempty
    cases x
    simp only at hstart hstop
    subst hstop hstart
    simp [Span.place]
  | cons c bs =>
    refine ⟨.ofLength x.start c.utf8Size, rfl, ⟨⟨as, c :: bs, rfl, hstart⟩, as ++ [c], bs, by simp, ?_⟩, rfl, ?_⟩
    · simp [Span.ofLength, hstart]
    · intro hnone
      have := c.utf8Size_pos
      simp [Span.isEmpty, Span.ofLength] at hnone
      omega

theorem Fits.mark? (h : Fits source x) (label : String) (isPrimary : Bool) :
    ∃ m, mark? source x label isPrimary = some m := by
  obtain ⟨y, hy, hfits, -⟩ := h.widen?
  have hwithin : ¬ byteLength source + 1 < y.stop := by
    have := hfits.stop.le
    omega
  have hline := Line.find_mem y.start (Line.split source).1 (Line.split source).2
  obtain ⟨as, has⟩ := Line.before?_of_cut hfits.start hline
  obtain ⟨bs, hbs⟩ := Line.before?_of_cut hfits.stop hline
  rw [Report.mark?, hy]
  simp [hwithin, has, hbs]

theorem place?_of_cut {n : Nat} (h : IsCut source n) : ∃ place, place? source n = some place := by
  obtain ⟨as, has⟩ := Line.before?_of_cut h (Line.find_mem n (Line.split source).1 (Line.split source).2)
  rw [place?]
  simp [has]

/-! ## Whole reports -/

/-- A mapping succeeds if it does everywhere. -/
theorem exists_mapM_eq_some {α β : Type} {f : α → Option β} {as : List α} (h : ∀ a ∈ as, ∃ b, f a = some b) :
    ∃ bs, as.mapM f = some bs := by
  induction as with
  | nil => exact ⟨[], rfl⟩
  | cons a as ih =>
    rw [List.forall_mem_cons] at h
    obtain ⟨b, hb⟩ := h.1
    obtain ⟨bs, hbs⟩ := ih h.2
    exact ⟨b :: bs, by rw [List.mapM_cons, hb, hbs]; rfl⟩

variable {r : Report} {d : Diagnostic} {ds : List Diagnostic}

/-- A diagnostic whose spans lie between characters has a report. -/
theorem one?_of_fits (h : Fits r.source.toList d.span) (hnotes : ∀ n ∈ d.notes, Fits r.source.toList n.span) :
    ∃ text, r.one? d = some text := by
  obtain ⟨primary, hprimary⟩ := h.mark? d.message true
  obtain ⟨notes, hnotes⟩ := exists_mapM_eq_some fun n hn => (hnotes n hn).mark? n.message false
  obtain ⟨y, hy, hfits, -⟩ := h.widen?
  obtain ⟨place, hplace⟩ := place?_of_cut hfits.start
  have hmarks : marks? r.source.toList d = some (primary :: notes) := by
    rw [marks?, hprimary]
    simp [hnotes]
  rw [one?, rows?]
  simp [hmarks, hy, hplace]

/-- Diagnostics whose spans lie between characters have reports. -/
theorem write?_of_fits (h : ∀ d ∈ ds, Fits r.source.toList d.span ∧ ∀ n ∈ d.notes, Fits r.source.toList n.span) :
    ∃ text, r.write? ds = some text := by
  obtain ⟨texts, htexts⟩ := exists_mapM_eq_some (f := r.one?) fun d hd => one?_of_fits (h d hd).1 (h d hd).2
  rw [write?, htexts]
  exact ⟨_, rfl⟩

end Report

/-! ## Reports of parses -/

variable {source : String} {settings : Settings} {p : Parse} {t : Token} {x : Span}

/-- Tokens begin and end between characters. -/
theorem fits_of_mem_lex (ht : t ∈ lex source) : Report.Fits source.toList t.span := by
  obtain ⟨before, after, hsource, hstart, -⟩ := Token.exists_place_of_mem source.toList ht
  rw [Nat.zero_add] at hstart
  refine ⟨⟨before, _, hsource, hstart⟩, before ++ t.text.toList, after, by rw [hsource, List.append_assoc], ?_⟩
  rw [byteLength_append, hstart, Token.span, Span.ofLength, ← Token.utf8ByteSize_ofList, String.ofList_toList]

theorem Span.Points.fits (h : x.Points (lex source) source.utf8ByteSize) : Report.Fits source.toList x := by
  have hstart : IsCut source.toList x.start := by
    rcases h.start with ⟨t, ht, hx⟩ | hx
    · exact hx ▸ (fits_of_mem_lex ht).start
    · rw [hx, ← String.ofList_toList (s := source), Token.utf8ByteSize_ofList, String.toList_ofList]
      exact .all _
  refine ⟨hstart, ?_⟩
  rcases h.stop with ⟨t, ht, hx⟩ | hx
  · exact hx ▸ (fits_of_mem_lex ht).stop
  · exact hx ▸ hstart

/-- The spans of a diagnostic. -/
def Diagnostic.spans (d : Diagnostic) : List Span := d.span :: d.notes.map Note.span

/-- **The diagnostics of a parse point into its source, and can be shown.**  Each runs from the start of a
token or the end of the source to the end of a token, unless it is empty, and its notes are tokens in front of
it.  So each of these spans is widened within the source and between characters, to one that is not empty
unless it is the end of the source; and the report of all of them succeeds. -/
theorem report_of_parse (source : String) (settings : Settings) : ∃ p, parse source settings = .ok p ∧
    (∀ d ∈ p.diagnostics, d.Points (lex source) source.utf8ByteSize ∧
      ∀ x ∈ d.spans, ∃ y, Report.widen? source.toList x = some y ∧ Report.Fits source.toList y ∧
        y.start = x.start ∧ y.stop ≤ source.utf8ByteSize ∧
        (y.isEmpty = true → x = .place source.utf8ByteSize)) ∧
    ∀ path colored, ∃ text, p.report ⟨source, path, colored⟩ = .ok text := by
  obtain ⟨p, hp, -⟩ := parseTokens_spec (tiles_lex source) (fun _ => isToken_of_mem_lex)
    (fun _ => dashed_of_mem_lex) settings
  have hpoints := points_of_parse hp
  have hfits : ∀ d ∈ p.diagnostics, ∀ x ∈ d.spans, Report.Fits source.toList x := by
    intro d hd x hx
    rcases List.mem_cons.1 hx with rfl | hx
    · exact (hpoints d hd).span.fits
    · obtain ⟨n, hn, rfl⟩ := List.mem_map.1 hx
      obtain ⟨t, ht, hspan, -⟩ := (hpoints d hd).notes n hn
      exact hspan ▸ fits_of_mem_lex ht
  have hsize : byteLength source.toList = source.utf8ByteSize := by
    rw [← Token.utf8ByteSize_ofList, String.ofList_toList]
  refine ⟨p, hp, fun d hd => ⟨hpoints d hd, fun x hx => ?_⟩, fun path colored => ?_⟩
  · obtain ⟨y, hy, hfit, hstart, hempty⟩ := (hfits d hd x hx).widen?
    exact ⟨y, hy, hfit, hstart, hsize ▸ hfit.stop.le, hsize ▸ hempty⟩
  · have hsorted : ∀ d ∈ Diagnostic.sorted p.diagnostics, Report.Fits source.toList d.span ∧
        ∀ n ∈ d.notes, Report.Fits source.toList n.span := by
      intro d hd
      have hd := (Diagnostic.sorted_perm _).mem_iff.1 hd
      exact ⟨hfits d hd _ List.mem_cons_self,
        fun n hn => hfits d hd _ (List.mem_cons_of_mem _ (List.mem_map_of_mem hn))⟩
    obtain ⟨text, htext⟩ := Report.write?_of_fits (r := ⟨source, path, colored⟩) hsorted
    refine ⟨text, ?_⟩
    rw [Parse.report, htext]
    rfl

end LuaTree
