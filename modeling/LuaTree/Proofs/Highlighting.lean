import LuaTree.Highlight
import LuaTree.Proofs.Escapes

/-!
# Proofs/Highlighting — what of a source is highlighted, and as what

The pieces of a token tile its text (`Highlight.Pieces`): there is one, or a quoted string is cut at its escapes, whose
layout says where the gaps are.  Tokens stand apart from each other, so the pieces of one token are found again among
those of the source (`highlight_partitions`).
-/

namespace LuaTree

namespace Escape

variable {n m lo hi a b : Nat} {e : Escape} {es : List Escape} {text : List Char}

/-! ## Gaps between escapes -/

/-- The escape, moved by some bytes. -/
def shift (n : Nat) (e : Escape) : Escape := ⟨n + e.start, n + e.stop, e.valid⟩

theorem map_shift_allFrom (n : Nat) (cs : List Char) : ∀ m skip : Nat,
    (allFrom m skip cs).map (shift n) = allFrom (n + m) skip cs := by
  induction cs with
  | nil => exact fun _ _ => rfl
  | cons c cs ih =>
    rintro m (_ | skip)
    · rw [allFrom, allFrom]
      split
      · rw [List.map_cons, ih, shift]
        simp only [Nat.add_assoc]
      · rw [ih, Nat.add_assoc]
    · rw [allFrom, allFrom, ih, Nat.add_assoc]

theorem cover_cons_iff : Cover (e :: es) m ↔ (e.start ≤ m ∧ m < e.stop) ∨ Cover es m := by
  simp [Cover]

theorem Laid.le_of_cover (h : Laid n text es) (hcover : Cover es m) : n ≤ m := by
  obtain ⟨e, he, hstart, -⟩ := hcover
  exact Nat.le_trans (h.bounds e he).1 hstart

/-- **A gap between escapes**, as large as it can be between two offsets. -/
structure Gap (es : List Escape) (lo hi a b : Nat) : Prop where
  filled : a < b
  lower : lo ≤ a
  upper : b ≤ hi
  free : ∀ m, a ≤ m → m < b → ¬ Cover es m
  left : a = lo ∨ Cover es (a - 1)
  right : b = hi ∨ Cover es b

theorem gap_nil_iff : Gap [] lo hi a b ↔ lo < hi ∧ a = lo ∧ b = hi := by
  have hnone (m : Nat) : ¬ Cover [] m := fun ⟨_, he, _⟩ => nomatch he
  constructor
  · rintro ⟨hlt, -, -, -, hleft, hright⟩
    obtain rfl := hleft.resolve_right (hnone _)
    obtain rfl := hright.resolve_right (hnone _)
    exact ⟨hlt, rfl, rfl⟩
  · rintro ⟨hlt, rfl, rfl⟩
    exact ⟨hlt, Nat.le_refl _, Nat.le_refl _, fun m _ _ => hnone m, .inl rfl, .inl rfl⟩

/-- In front of the first escape there is one gap, or nothing. -/
theorem gap_before (hlo : lo < e.start) (hstop : e.start < e.stop) (hhi : e.stop ≤ hi)
    (hes : ∀ m, Cover es m → e.stop ≤ m) : Gap (e :: es) lo hi lo e.start where
  filled := hlo
  lower := Nat.le_refl lo
  upper := by omega
  free m _ hm hcover := by
    rcases cover_cons_iff.1 hcover with h | h
    · omega
    · have := hes m h
      omega
  left := .inl rfl
  right := .inr (cover_cons_iff.2 (.inl ⟨Nat.le_refl _, hstop⟩))

/-- The gaps behind the first escape are gaps of the whole. -/
theorem Gap.cons (h : Gap es e.stop hi a b) (hlo : lo ≤ e.start) (hstop : e.start < e.stop) :
    Gap (e :: es) lo hi a b where
  filled := h.filled
  lower := by
    have := h.lower
    omega
  upper := h.upper
  free m hm hm' hcover := by
    have := h.lower
    exact h.free m hm hm' ((cover_cons_iff.1 hcover).resolve_left (by omega))
  left := .inr (cover_cons_iff.2 (h.left.imp_left fun h => by omega))
  right := h.right.imp_right Cover.cons

/-- There are no other gaps. -/
theorem Gap.of_cons (h : Gap (e :: es) lo hi a b) (hlo : lo ≤ e.start) (hstop : e.start < e.stop)
    (hhi : e.stop ≤ hi) (hes : ∀ m, Cover es m → e.stop ≤ m) :
    (lo < e.start ∧ a = lo ∧ b = e.start) ∨ Gap es e.stop hi a b := by
  obtain ⟨hlt, hlower, hupper, hfree, hleft, hright⟩ := h
  simp only [cover_cons_iff] at hfree hleft hright
  by_cases ha : a < e.start
  · -- the gap ends in front of the escape
    have hb : b ≤ e.start := Nat.le_of_not_lt fun hb =>
      hfree e.start (Nat.le_of_lt ha) hb (.inl ⟨Nat.le_refl _, hstop⟩)
    have hleft' : a = lo := by
      rcases hleft with h | h | h
      · exact h
      · omega
      · have := hes _ h
        omega
    have hright' : b = e.start := by
      rcases hright with h | h | h
      · omega
      · omega
      · have := hes _ h
        omega
    exact .inl ⟨by omega, hleft', hright'⟩
  · have ha' : e.stop ≤ a := Nat.le_of_not_lt fun h =>
      hfree a (Nat.le_refl _) hlt (.inl ⟨Nat.le_of_not_lt ha, h⟩)
    refine .inr ⟨hlt, ha', hupper, fun m hm hm' hcover => hfree m hm hm' (.inr hcover), ?_, ?_⟩
    · rcases hleft with h | h | h
      · omega
      · exact .inl (by omega)
      · exact .inr h
    · rcases hright with h | h | h
      · exact .inl h
      · omega
      · exact .inr h

/-- **Behind the first gap come those behind the first escape.** -/
theorem gap_cons_iff (hlo : lo ≤ e.start) (hstop : e.start < e.stop) (hhi : e.stop ≤ hi)
    (hes : ∀ m, Cover es m → e.stop ≤ m) :
    Gap (e :: es) lo hi a b ↔ (lo < e.start ∧ a = lo ∧ b = e.start) ∨ Gap es e.stop hi a b := by
  refine ⟨fun h => h.of_cons hlo hstop hhi hes, ?_⟩
  rintro (⟨hlt, rfl, rfl⟩ | h)
  · exact gap_before hlt hstop hhi hes
  · exact h.cons hlo hstop

end Escape

/-! ## The pieces of a token -/

namespace Highlight

open Escape

variable {n : Nat} {x y text : List Char} {c : Category} {hs gs : List Highlight} {es : List Escape} {h : Highlight}

/-- **Pieces that tile a text** which begins at byte `n`. -/
structure Pieces (n : Nat) (text : List Char) (hs : List Highlight) : Prop where
  filled : ∀ h ∈ hs, h.text ≠ []
  placed : ∀ h ∈ hs, ∃ before after, text = before ++ (h.text ++ after) ∧ h.start = n + byteLength before
  ordered : hs.Pairwise fun g h => g.stop ≤ h.start
  covering : ∀ m, n ≤ m → m < n + byteLength text → ∃ h ∈ hs, h.start ≤ m ∧ m < h.stop

theorem byteLength_pos (h : text ≠ []) : 0 < byteLength text := by
  obtain ⟨c, cs, rfl⟩ := List.exists_cons_of_ne_nil h
  have := c.utf8Size_pos
  rw [byteLength_cons]
  omega

namespace Pieces

theorem bounds (h : Pieces n text hs) : ∀ g ∈ hs, n ≤ g.start ∧ g.start < g.stop ∧ g.stop ≤ n + byteLength text := by
  intro g hg
  obtain ⟨before, after, rfl, hstart⟩ := h.placed g hg
  have hpos := byteLength_pos (h.filled g hg)
  simp only [stop, byteLength_append]
  omega

theorem nil : Pieces n [] [] := ⟨nofun, nofun, .nil, fun m _ hm => by simp at hm; omega⟩

theorem single (htext : text ≠ []) (c : Category) : Pieces n text [⟨n, text, c⟩] where
  filled := by simpa using htext
  placed := by simpa using ⟨[], by simp, rfl⟩
  ordered := List.pairwise_singleton ..
  covering m hm hm' := ⟨_, List.mem_singleton_self _, hm, hm'⟩

theorem append (hx : Pieces n x hs) (hy : Pieces (n + byteLength x) y gs) : Pieces n (x ++ y) (hs ++ gs) where
  filled := List.forall_mem_append.2 ⟨hx.filled, hy.filled⟩
  placed := by
    refine List.forall_mem_append.2 ⟨fun h hh => ?_, fun h hh => ?_⟩
    · obtain ⟨before, after, rfl, hstart⟩ := hx.placed h hh
      exact ⟨before, after ++ y, by simp, hstart⟩
    · obtain ⟨before, after, rfl, hstart⟩ := hy.placed h hh
      exact ⟨x ++ before, after, by simp, by rw [hstart, byteLength_append, Nat.add_assoc]⟩
  ordered := List.pairwise_append.2 ⟨hx.ordered, hy.ordered, fun g hg h hh =>
    Nat.le_trans (hx.bounds g hg).2.2 (hy.bounds h hh).1⟩
  covering m hm hm' := by
    rw [byteLength_append] at hm'
    by_cases hlt : m < n + byteLength x
    · obtain ⟨h, hh, hcover⟩ := hx.covering m hm hlt
      exact ⟨h, List.mem_append_left _ hh, hcover⟩
    · obtain ⟨h, hh, hcover⟩ := hy.covering m (Nat.le_of_not_lt hlt) (by omega)
      exact ⟨h, List.mem_append_right _ hh, hcover⟩

theorem plain (n : Nat) (text : List Char) : Pieces n text (plain n text) := by
  cases text with
  | nil => exact nil
  | cons c cs => exact single (by simp) .string

end Pieces

/-- The category of an escape. -/
def ofEscape (valid : Bool) : Category := if valid then .validEscape else .invalidEscape

/-- At an escape a text is cut in front of it and behind it. -/
theorem split_escape (n : Nat) (gap w rest : List Char) (valid : Bool) (es : List Escape) :
    split n (gap ++ '\x5c' :: (w ++ rest))
        (⟨n + byteLength gap, n + byteLength (gap ++ '\x5c' :: w), valid⟩ :: es) =
      Highlight.plain n gap ++ [⟨n + byteLength gap, '\x5c' :: w, ofEscape valid⟩] ++
        split (n + byteLength (gap ++ '\x5c' :: w)) rest es := by
  have hsize : n + byteLength (gap ++ '\x5c' :: w) - (n + byteLength gap) = byteLength ('\x5c' :: w) := by
    rw [byteLength_append]
    omega
  rw [split, Nat.add_sub_cancel_left, cutBytes_append]
  dsimp only
  rw [hsize, ← List.cons_append, cutBytes_append]
  dsimp only
  rw [List.append_assoc]
  rfl

theorem pieces_split (h : Laid n text es) : Pieces n text (split n text es) := by
  induction h with
  | plain => exact .plain ..
  | @escape n gap w rest valid es _ _ _ _ ih =>
    rw [split_escape, ← List.cons_append, ← List.append_assoc]
    exact ((Pieces.plain n gap).append (.single (by simp) _)).append ih

theorem filter_plain (n : Nat) (text : List Char) : (plain n text).filter (·.category ≠ .string) = [] := by
  cases text <;> rfl

/-- The pieces that are not plain are the escapes. -/
theorem escapes_split (h : Laid n text es) :
    ((split n text es).filter (·.category ≠ .string)).map (fun h => (h.start, h.stop, h.category)) =
      es.map fun e => (e.start, e.stop, ofEscape e.valid) := by
  induction h with
  | plain =>
    rw [split, filter_plain]
    rfl
  | @escape n gap w rest valid es _ _ _ _ ih =>
    have hcategory : ofEscape valid ≠ .string := by cases valid <;> decide
    rw [split_escape, List.filter_append, List.filter_append, filter_plain, List.nil_append, List.map_append, ih,
      List.map_cons, List.filter_cons_of_pos (by simpa using hcategory)]
    simp [stop, Nat.add_assoc]

theorem exists_plain_iff {a b : Nat} : (∃ h ∈ plain n text, h.category = .string ∧ h.start = a ∧ h.stop = b) ↔
    n < n + byteLength text ∧ a = n ∧ b = n + byteLength text := by
  cases text with
  | nil => simp [plain]
  | cons c cs =>
    have hpos := byteLength_pos (List.cons_ne_nil c cs)
    have hone : plain n (c :: cs) = [⟨n, c :: cs, .string⟩] := rfl
    rw [hone, and_iff_right (Nat.lt_add_of_pos_right hpos)]
    simp [stop, eq_comm]

/-- **The plain pieces are the gaps.** -/
theorem gaps_split {a b : Nat} (h : Laid n text es) :
    (∃ h ∈ split n text es, h.category = .string ∧ h.start = a ∧ h.stop = b) ↔
      Gap es n (n + byteLength text) a b := by
  induction h with
  | plain => exact exists_plain_iff.trans gap_nil_iff.symm
  | @escape n gap w rest valid es _ _ _ hlaid ih =>
    have hcategory : ofEscape valid ≠ .string := by cases valid <;> decide
    have hmiddle : ¬ ∃ h ∈ [(⟨n + byteLength gap, '\x5c' :: w, ofEscape valid⟩ : Highlight)],
        h.category = .string ∧ h.start = a ∧ h.stop = b := by
      simp [hcategory]
    have hpos := byteLength_pos (List.cons_ne_nil '\x5c' w)
    have hstop : n + byteLength gap < n + byteLength (gap ++ '\x5c' :: w) := by
      rw [byteLength_append]
      omega
    have hsize : n + byteLength (gap ++ '\x5c' :: (w ++ rest)) =
        n + byteLength (gap ++ '\x5c' :: w) + byteLength rest := by
      rw [← List.cons_append, ← List.append_assoc, byteLength_append _ rest, Nat.add_assoc]
    rw [split_escape, hsize, gap_cons_iff (Nat.le_add_right ..) hstop (Nat.le_add_right ..)
      fun m => hlaid.le_of_cover]
    simp only [List.mem_append, or_and_right, exists_or, hmiddle, or_false, exists_plain_iff, ih]

/-! ## The pieces of a source -/

variable {t : Token} {source : String}

/-- Every kind of token but blanks, line breaks and unknown characters has a category. -/
theorem ofKind?_eq_none_iff : ∀ k : Kind, k.isToken = true → k ≠ .comment →
    (Category.ofKind? k = none ↔ k ∈ [.whitespace, .newline, .invalidChar]) := by
  have hall : ∀ k ∈ Kind.all, k.isToken = true → k ≠ .comment →
      (Category.ofKind? k = none ↔ k ∈ [.whitespace, .newline, .invalidChar]) := by
    decide +kernel
  exact fun k => hall k (Kind.mem_all k)

theorem category_of_isQuoted {k : Kind} (h : k.isQuoted = true) : Category.ofKind? k = some .string := by
  unfold Kind.isQuoted at h
  split at h
  · rfl
  · rfl
  · cases h

theorem laid_token (t : Token) : Laid t.start t.text.toList ((all t.text.toList).map (shift t.start)) := by
  rw [all, map_shift_allFrom]
  exact laid_allFrom t.text.toList t.start 0

theorem ofToken_of_isQuoted (h : t.kind.isQuoted = true) :
    ofToken t = split t.start t.text.toList ((all t.text.toList).map (shift t.start)) := by
  rw [ofToken, category_of_isQuoted h, all, map_shift_allFrom]
  exact if_pos h

theorem ofToken_of_not_isQuoted (h : t.kind.isQuoted = false) :
    ofToken t = ((Category.ofKind? t.kind).map (Highlight.mk t.start t.text.toList)).toList := by
  unfold ofToken
  cases Category.ofKind? t.kind with
  | none => rfl
  | some c => exact if_neg (by simp [h])

theorem pieces_ofToken (htext : t.text ≠ "") (hsome : Category.ofKind? t.kind ≠ none) :
    Pieces t.start t.text.toList (ofToken t) := by
  cases hquoted : t.kind.isQuoted with
  | true =>
    rw [ofToken_of_isQuoted hquoted]
    exact pieces_split (laid_token t)
  | false =>
    obtain ⟨c, hc⟩ := Option.ne_none_iff_exists'.1 hsome
    rw [ofToken_of_not_isQuoted hquoted, hc]
    exact .single (by simpa using htext) c

theorem ofToken_eq_nil (h : Category.ofKind? t.kind = none) : ofToken t = [] := by
  rw [ofToken, h]

theorem stop_eq (t : Token) : t.stop = t.start + byteLength t.text.toList := by
  rw [Token.stop, ← String.ofList_toList (s := t.text), Token.utf8ByteSize_ofList, String.toList_ofList]

/-- The pieces of a token lie in it. -/
theorem bounds_ofToken (htext : t.text ≠ "") :
    ∀ h ∈ ofToken t, t.start ≤ h.start ∧ h.start < h.stop ∧ h.stop ≤ t.stop := by
  cases hnone : Category.ofKind? t.kind with
  | none => simp [ofToken_eq_nil hnone]
  | some c =>
    rw [stop_eq]
    exact (pieces_ofToken htext (by simp [hnone])).bounds

/-- Whether a piece lies in a token. -/
def isIn (t : Token) (h : Highlight) : Bool := t.start ≤ h.start && h.stop ≤ t.stop

/-- The pieces of a token lie in no token that is apart from it. -/
theorem filter_ofToken (htext : t.text ≠ "") {u : Token} (hapart : t.stop ≤ u.start ∨ u.stop ≤ t.start) :
    (ofToken t).filter (isIn u) = [] := by
  refine List.filter_eq_nil_iff.2 fun h hh => ?_
  have := bounds_ofToken htext h hh
  simp only [isIn, Bool.and_eq_true, decide_eq_true_eq]
  omega

/-- **The pieces of a source that lie in a token are those of the token.** -/
theorem filter_highlight (ht : t ∈ lex source) : (highlight source).filter (isIn t) = ofToken t := by
  have hfilled := (tiles_lex source).filled
  have hpairwise := (tiles_lex source).adjacent.pairwise
  obtain ⟨ts, us, hlex⟩ := List.append_of_mem ht
  rw [hlex, List.pairwise_append, List.pairwise_cons] at hpairwise
  obtain ⟨-, ⟨hus, -⟩, hts⟩ := hpairwise
  rw [hlex, List.forall_mem_append, List.forall_mem_cons] at hfilled
  obtain ⟨hfilledBefore, hfilled, hfilledBehind⟩ := hfilled
  have hbefore : ts.flatMap (fun u => (ofToken u).filter (isIn t)) = [] :=
    List.flatMap_eq_nil_iff.2 fun u hu =>
      filter_ofToken (hfilledBefore u hu) (.inl (hts u hu t List.mem_cons_self))
  have hbehind : us.flatMap (fun u => (ofToken u).filter (isIn t)) = [] :=
    List.flatMap_eq_nil_iff.2 fun u hu => filter_ofToken (hfilledBehind u hu) (.inr (hus u hu))
  have hself : (ofToken t).filter (isIn t) = ofToken t := by
    refine List.filter_eq_self.2 fun h hh => ?_
    have := bounds_ofToken hfilled h hh
    simp only [isIn, Bool.and_eq_true, decide_eq_true_eq]
    omega
  rw [highlight, hlex, List.filter_flatMap, List.flatMap_append, List.flatMap_cons, hbefore, hbehind, hself,
    List.nil_append, List.append_nil]

/-- The tokens without a category are blanks, line breaks and unknown characters. -/
theorem category_eq_none_iff (ht : t ∈ lex source) :
    Category.ofKind? t.kind = none ↔ t.kind ∈ [.whitespace, .newline, .invalidChar] := by
  obtain ⟨c, ds, hkind, -⟩ := Token.exists_head_of_mem _ ht
  exact ofKind?_eq_none_iff t.kind (isToken_of_mem_lex ht) (hkind ▸ Token.head_ne_comment _)

/-- Each piece is one of those that tile a token. -/
theorem exists_token_of_mem (hh : h ∈ highlight source) : ∃ t ∈ lex source,
    t.kind ∉ [.whitespace, .newline, .invalidChar] ∧ h ∈ ofToken t ∧
      Pieces t.start t.text.toList (ofToken t) := by
  obtain ⟨t, ht, hh⟩ := List.mem_flatMap.1 hh
  have hsome : Category.ofKind? t.kind ≠ none := fun hnone => by
    rw [ofToken_eq_nil hnone] at hh
    cases hh
  exact ⟨t, ht, mt (category_eq_none_iff ht).2 hsome, hh, pieces_ofToken ((tiles_lex source).filled t ht) hsome⟩

theorem pairwise_ofToken (htext : t.text ≠ "") : (ofToken t).Pairwise fun g h => g.stop ≤ h.start := by
  cases hnone : Category.ofKind? t.kind with
  | none => simp [ofToken_eq_nil hnone]
  | some c => exact (pieces_ofToken htext (by simp [hnone])).ordered

/-- The pieces of a source stand apart from each other, in order. -/
theorem pairwise_highlight (source : String) : (highlight source).Pairwise fun g h => g.stop ≤ h.start := by
  have htiles := tiles_lex source
  refine List.pairwise_flatMap.2 ⟨fun t ht => pairwise_ofToken (htiles.filled t ht), ?_⟩
  refine htiles.adjacent.pairwise.imp_of_mem fun {t u} ht hu hle g hg h hh => ?_
  have hg := bounds_ofToken (htiles.filled t ht) g hg
  have hh := bounds_ofToken (htiles.filled u hu) h hh
  omega

/-- **What is highlighted of a source.** -/
structure Partitions (source : String) (hs : List Highlight) : Prop where
  filled : ∀ h ∈ hs, h.text ≠ []
  /-- Each piece stands in the source, between two of its characters. -/
  placed : ∀ h ∈ hs, ∃ before after, source.toList = before ++ (h.text ++ after) ∧ h.start = byteLength before
  ordered : hs.Pairwise fun g h => g.stop ≤ h.start
  /-- A byte is highlighted if it is one of a token that is no blank, line break or unknown character. -/
  union : ∀ m, (∃ h ∈ hs, h.start ≤ m ∧ m < h.stop) ↔
    ∃ t ∈ lex source, t.kind ∉ [.whitespace, .newline, .invalidChar] ∧ t.start ≤ m ∧ m < t.stop
  /-- Each of these tokens is one piece, if it is no quoted string. -/
  whole : ∀ t ∈ lex source, t.kind ∉ [.whitespace, .newline, .invalidChar] → t.kind.isQuoted = false →
    ∃ c, Category.ofKind? t.kind = some c ∧ hs.filter (isIn t) = [⟨t.start, t.text.toList, c⟩]
  /-- In a quoted string the pieces that are not plain are its escapes. -/
  escapes : ∀ t ∈ lex source, t.kind.isQuoted = true →
    ((hs.filter (isIn t)).filter (·.category ≠ .string)).map (fun h => (h.start, h.stop, h.category)) =
      (all t.text.toList).map fun e => (t.start + e.start, t.start + e.stop, ofEscape e.valid)
  /-- The plain pieces are the gaps between them. -/
  gaps : ∀ t ∈ lex source, t.kind.isQuoted = true → ∀ a b,
    (∃ h ∈ hs.filter (isIn t), h.category = .string ∧ h.start = a ∧ h.stop = b) ↔
      Gap ((all t.text.toList).map (shift t.start)) t.start t.stop a b

end Highlight

open Highlight in
/-- **Highlighting cuts a source into pieces**: they are in order and apart from each other and cover the tokens that
are no blanks, line breaks or unknown characters.  Each token is one piece with its own category, but a quoted string,
whose pieces are its escapes and the gaps between them. -/
theorem highlight_partitions (source : String) : Partitions source (highlight source) := by
  refine ⟨fun h hh => ?_, fun h hh => ?_, pairwise_highlight source, fun m => ⟨?_, ?_⟩,
    fun t ht hkind hquoted => ?_, fun t ht hquoted => ?_, fun t ht hquoted a b => ?_⟩
  · obtain ⟨t, -, -, hh, hpieces⟩ := exists_token_of_mem hh
    exact hpieces.filled h hh
  · obtain ⟨t, ht, -, hh, hpieces⟩ := exists_token_of_mem hh
    obtain ⟨before, after, htext, hstart⟩ := hpieces.placed h hh
    obtain ⟨before', after', hsource, hstart', -⟩ := Token.exists_place_of_mem _ ht
    refine ⟨before' ++ before, after ++ after', by rw [hsource, htext]; simp, ?_⟩
    rw [hstart, ← hstart', byteLength_append, Nat.zero_add]
  · rintro ⟨h, hh, hstart, hstop⟩
    obtain ⟨t, ht, hkind, hh, hpieces⟩ := exists_token_of_mem hh
    have hbounds := hpieces.bounds h hh
    rw [← stop_eq] at hbounds
    exact ⟨t, ht, hkind, by omega, by omega⟩
  · rintro ⟨t, ht, hkind, hstart, hstop⟩
    have hpieces := pieces_ofToken ((tiles_lex source).filled t ht) (mt (category_eq_none_iff ht).1 hkind)
    obtain ⟨h, hh, hcover⟩ := hpieces.covering m hstart (by rwa [← stop_eq])
    exact ⟨h, List.mem_flatMap.2 ⟨t, ht, hh⟩, hcover⟩
  · obtain ⟨c, hc⟩ := Option.ne_none_iff_exists'.1 (mt (category_eq_none_iff ht).1 hkind)
    refine ⟨c, hc, ?_⟩
    rw [filter_highlight ht, ofToken_of_not_isQuoted hquoted, hc]
    rfl
  · rw [filter_highlight ht, ofToken_of_isQuoted hquoted, escapes_split (laid_token t), List.map_map]
    rfl
  · rw [filter_highlight ht, ofToken_of_isQuoted hquoted, gaps_split (laid_token t), stop_eq]

end LuaTree
