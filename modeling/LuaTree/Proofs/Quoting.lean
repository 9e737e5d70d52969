import LuaTree.Proofs.Escapes
import LuaTree.Proofs.Splitting

/-!
# Proofs/Quoting — a literal that its escapes hold together is one token

If the escapes of a text cover each quote and line break between two quotes, and not the last quote, the text is one
quoted string, as long as none of them is a line feed with a carriage return behind it: the lexer takes an escape of
a line break for two characters in the other order only, and then meets the carriage return as the end of the line
(`lex_of_escapes`).  Between the escapes stand ordinary characters, so the lexer goes on from one to the next.
-/

namespace LuaTree

namespace Escape

open Token

variable {quote : Char} {n : Nat} {b w rest ds body : List Char} {es : List Escape}

/-! ## One escape -/

theorem quotedLength_ordinary (h : ∀ d ∈ ds, Ordinary quote d) (rest : List Char) :
    quotedLength quote (ds ++ rest) = ds.length + quotedLength quote rest := by
  induction ds with
  | nil => simp
  | cons d ds ih =>
    obtain ⟨hd, hds⟩ := List.forall_mem_cons.1 h
    have hbreak : ¬ (d = '\n' ∨ d = '\r') := not_or.2 ⟨hd.lf, hd.cr⟩
    rw [List.cons_append, quotedLength_cons hd.backslash, if_neg hbreak, if_neg hd.quote, ih hds, List.length_cons]
    omega

/-- **The lexer takes an escape as it is**, unless it is a line feed and a carriage return. -/
theorem Extent.quotedLength_eq (hquote : quote = '\x27' ∨ quote = '\x22') (h : Extent w rest) (hrest : rest ≠ [])
    (hpair : w ≠ ['\n', '\r']) :
    quotedLength quote ('\x5c' :: w ++ rest) = ('\x5c' :: w).length + quotedLength quote rest := by
  -- behind its first character an escape has ordinary ones
  have hfirst {c : Char} {ds : List Char} (hc : c = '\r' → (ds ++ rest).head? ≠ some '\n')
      (hds : ∀ d ∈ ds, Ordinary quote d) : quotedLength quote ('\x5c' :: (c :: ds) ++ rest) =
        ('\x5c' :: c :: ds).length + quotedLength quote rest := by
    rw [List.cons_append, List.cons_append, quotedLength_escape hc, quotedLength_ordinary hds]
    simp only [List.length_cons]
    omega
  have hhex {ds : List Char} (h : ∀ d ∈ ds, isHex d = true) : ∀ d ∈ ds, Ordinary quote d :=
    fun d hd => ordinary_of_isHex hquote (h d hd)
  have hbrace {c : Char} (h : c = '\x7b' ∨ c = '\x7d') : Ordinary quote c := ordinary_of_brace hquote h
  cases h with
  | nothing => exact absurd rfl hrest
  | @lineBreak c _ hc hnext =>
    refine hfirst (fun hcr hlf => ?_) nofun
    exact absurd ((hnext '\n' hlf (.inl rfl)).trans hcr) (by decide)
  | pair hw =>
    obtain rfl := hw.resolve_right hpair
    rw [List.cons_append, List.cons_append, List.cons_append, List.nil_append, quotedLength]
    simp only [List.length_cons, List.length_nil]
    omega
  | byte hrun => exact hfirst (fun hcr => absurd hcr (by decide)) (hhex hrun.of_class)
  | decimal hne hrun =>
    obtain ⟨d, ds, rfl⟩ := List.exists_cons_of_ne_nil hne
    have hdecimal := List.forall_mem_cons.1 hrun.of_class
    refine hfirst (fun hcr => ?_) (hhex fun e he => isHex_of_isDecimal (hdecimal.2 e he))
    rw [hcr] at hdecimal
    exact absurd hdecimal.1 (by decide)
  | code hds =>
    refine hfirst (fun hcr => absurd hcr (by decide)) (List.forall_mem_cons.2 ⟨hbrace (.inl rfl), ?_⟩)
    exact List.forall_mem_append.2 ⟨hhex hds, by simpa using hbrace (.inr rfl)⟩
  | unclosed hrun =>
    exact hfirst (fun hcr => absurd hcr (by decide)) (List.forall_mem_cons.2 ⟨hbrace (.inl rfl), hhex hrun.of_class⟩)
  | single _ hcr => exact hfirst (fun h => absurd h hcr) nofun

/-- In front of a carriage return the lexer stops. -/
theorem quotedLength_pair (quote : Char) (rest : List Char) :
    quotedLength quote ('\x5c' :: '\n' :: '\r' :: rest) = 2 := by
  rw [quotedLength_escape (fun h => absurd h (by decide)), quotedLength_of_break (.inr rfl)]

/-! ## From one escape to the next -/

theorem Cover.of_cons {e : Escape} {m : Nat} (h : Cover (e :: es) m) (hle : e.stop ≤ m) : Cover es m := by
  obtain ⟨f, hf, hcover⟩ := h
  rcases List.mem_cons.1 hf with rfl | hf
  · omega
  · exact ⟨f, hf, hcover⟩

instance (es : List Escape) (n : Nat) : Decidable (Cover es n) :=
  inferInstanceAs (Decidable (∃ e ∈ es, e.start ≤ n ∧ n < e.stop))

/-- The characters of a text, one after the other. -/
theorem forall_of_get {P : List Char → Char → Prop}
    (h : ∀ i (hi : i < ds.length), P (ds.take i) (ds.get ⟨i, hi⟩)) : ∀ x c y, ds = x ++ c :: y → P x c := by
  rintro x c y rfl
  simpa using h x.length (by simp)

/-- What needs an escape and stands in none is not there. -/
theorem ordinary_of_gap (hgap : '\x5c' ∉ ds)
    (h : ∀ x c y, ds = x ++ c :: y → ¬ (c = quote ∨ c = '\n' ∨ c = '\r')) : ∀ d ∈ ds, Ordinary quote d := by
  intro d hd
  obtain ⟨x, y, hds⟩ := List.append_of_mem hd
  have hnot := h x d y hds
  simp only [not_or] at hnot
  exact ⟨fun hbackslash => hgap (hbackslash ▸ hd), hnot.1, hnot.2.1, hnot.2.2⟩

/-- The quotes and line breaks in front of the last quote are escaped, and the last quote is not. -/
structure Enclosed (quote : Char) (n : Nat) (body : List Char) (es : List Escape) : Prop where
  covered : ∀ x c y, body = x ++ c :: y → c = quote ∨ c = '\n' ∨ c = '\r' → Cover es (n + byteLength x)
  last : ¬ Cover es (n + byteLength body)

namespace Enclosed

variable {gap : List Char} {valid : Bool}

/-- The last quote is behind each escape. -/
theorem exists_rest (hclosed : Enclosed quote n body
      (⟨n + byteLength gap, n + byteLength (gap ++ '\x5c' :: w), valid⟩ :: es))
    (htext : gap ++ '\x5c' :: w ++ rest = body ++ [quote]) :
    ∃ last, body = gap ++ '\x5c' :: w ++ last ∧ rest = last ++ [quote] := by
  refine (exists_of_append_eq htext).resolve_left ?_
  rintro ⟨v, hv⟩
  have hsize := congrArg byteLength hv
  simp only [byteLength_append, byteLength_cons] at hsize
  rcases exists_of_append_eq hv with ⟨u, rfl⟩ | ⟨u, rfl, -⟩
  · have hlength := congrArg List.length htext
    simp only [List.length_append, List.length_cons, List.length_nil] at hlength
    omega
  · have hpos := quote.utf8Size_pos
    refine hclosed.last ⟨_, List.mem_cons_self, ?_, ?_⟩ <;>
      simp only [byteLength_append, byteLength_cons] at * <;> omega

/-- In front of the first escape nothing needs one. -/
theorem ordinary (hclosed : Enclosed quote n (gap ++ body) es) (hgap : '\x5c' ∉ gap)
    (hes : ∀ e ∈ es, n + byteLength gap ≤ e.start) : ∀ d ∈ gap, Ordinary quote d := by
  refine ordinary_of_gap hgap fun x c y hsplit hc => ?_
  obtain ⟨e, he, hstart, -⟩ := hclosed.covered x c (y ++ body) (by simp [hsplit]) hc
  have hle := hes e he
  have hpos := c.utf8Size_pos
  rw [hsplit, byteLength_append, byteLength_cons] at hle
  omega

/-- Behind the first escape the others do it. -/
theorem behind {e : Escape} (hclosed : Enclosed quote n (gap ++ body) (e :: es)) (hstop : e.stop = n + byteLength gap) :
    Enclosed quote e.stop body es where
  covered x c y hsplit hc := by
    have hcover := hclosed.covered (gap ++ x) c y (by simp [hsplit]) hc
    rw [byteLength_append, ← Nat.add_assoc, ← hstop] at hcover
    exact hcover.of_cons (Nat.le_add_right ..)
  last hcover := by
    refine hclosed.last ?_
    rw [byteLength_append, ← Nat.add_assoc, ← hstop]
    exact hcover.cons

end Enclosed

/-- **The lexer reads up to the last quote**, if it does not stop in an escape. -/
theorem Laid.quotedLength_iff (hquote : quote = '\x27' ∨ quote = '\x22') (h : Laid n b es) : ∀ body,
    b = body ++ [quote] → Enclosed quote n body es → (quotedLength quote b = b.length ↔
      ∀ e ∈ es, sliceBytes? b (e.start - n) (e.stop - n) ≠ some ['\x5c', '\n', '\r']) := by
  induction h with
  | @plain n gap hgap =>
    rintro body rfl hclosed
    have hbody := (show Enclosed quote n (body ++ []) [] by rwa [List.append_nil]).ordinary
      (fun hmem => hgap (List.mem_append_left _ hmem)) nofun
    have hone : quotedLength quote [quote] = 1 := by
      rcases hquote with rfl | rfl <;> rfl
    rw [quotedLength_ordinary hbody, hone, List.length_append, List.length_singleton]
    exact iff_of_true rfl nofun
  | @escape n gap w rest valid es hgap hextent _ hlaid ih =>
    intro body htext hclosed
    rw [← List.cons_append, ← List.append_assoc] at htext
    obtain ⟨last, rfl, rfl⟩ := hclosed.exists_rest htext
    have hordinary : ∀ d ∈ gap, Ordinary quote d := by
      rw [List.append_assoc] at hclosed
      refine hclosed.ordinary hgap (List.forall_mem_cons.2 ⟨Nat.le_refl _, fun e he => ?_⟩)
      have hstart := (hlaid.bounds e he).1
      rw [byteLength_append] at hstart
      omega
    have hrest := ih last rfl (hclosed.behind rfl)
    have hslice : ∀ e ∈ es, sliceBytes? (gap ++ '\x5c' :: w ++ (last ++ [quote])) (e.start - n) (e.stop - n) =
        sliceBytes? (last ++ [quote]) (e.start - (n + byteLength (gap ++ '\x5c' :: w)))
          (e.stop - (n + byteLength (gap ++ '\x5c' :: w))) := by
      intro e he
      obtain ⟨hstart, hlt, -⟩ := hlaid.bounds e he
      rw [sliceBytes?_append _ (by omega) (by omega), Nat.sub_sub, Nat.sub_sub]
    have hfirst : sliceBytes? (gap ++ '\x5c' :: w ++ (last ++ [quote])) (n + byteLength gap - n)
        (n + byteLength (gap ++ '\x5c' :: w) - n) = some ('\x5c' :: w) := by
      rw [Nat.add_sub_cancel_left, Nat.add_sub_cancel_left, List.append_assoc, sliceBytes?_middle]
    have hothers : (∀ e ∈ es, sliceBytes? (gap ++ '\x5c' :: w ++ (last ++ [quote])) (e.start - n) (e.stop - n) ≠
        some ['\x5c', '\n', '\r']) ↔ quotedLength quote (last ++ [quote]) = (last ++ [quote]).length := by
      rw [hrest]
      exact forall₂_congr fun e he => by rw [hslice e he]
    rw [← List.cons_append, ← List.append_assoc, List.forall_mem_cons, hothers, hfirst, List.append_assoc,
      quotedLength_ordinary hordinary, List.length_append]
    by_cases hpair : w = ['\n', '\r']
    · subst hpair
      rw [List.cons_append, List.cons_append, List.cons_append, List.nil_append, quotedLength_pair]
      refine iff_of_false ?_ (by simp)
      simp only [List.length_cons, List.length_append]
      omega
    · rw [hextent.quotedLength_eq hquote (by simp) hpair, List.length_append]
      simp [hpair]

end Escape

/-! ## The token of a literal -/

namespace Token

open Pattern

variable {quote : Char} {k : Kind} {cs : List Char}

/-- A character that only the rule of one kind begins with, and that this rule matches alone. -/
theorem head_of_rule (hrule : ⟨k, literal [quote]⟩ ∈ Rule.all)
    (hbegins : ∀ r ∈ Rule.all, r.kind = k ∨ (r.pattern.deriv quote).isNever = true)
    (halone : ∀ r ∈ Rule.all, r.kind = k → ∀ m, r.pattern.Matches m → m = [quote]) :
    head (quote :: cs) = complete k 1 cs := by
  rcases head_cases (quote :: cs) with hhead | ⟨r, hr, n, hn, hhead⟩
  · refine absurd (matches_literal_iff.2 rfl) (not_matches_of_unknown (by rw [hhead]) hrule (s := [quote]) ?_)
    exact List.prefix_append [quote] cs
  · obtain ⟨hle, hmatches⟩ := matches_of_longest? hn
    obtain ⟨n, rfl⟩ := Nat.exists_eq_succ_of_ne_zero (Nat.ne_of_gt (pos_of_mem_rules hr hn))
    rw [List.take_succ_cons] at hmatches
    rcases hbegins r hr with rfl | hnever
    · have hmark := congrArg List.length (halone r hr rfl _ hmatches)
      rw [← List.take_succ_cons, List.length_take_of_le hle] at hmark
      obtain rfl : n = 0 := Nat.succ.inj hmark
      exact hhead
    · exact absurd (matches_deriv_iff.2 hmatches) (not_matches_of_isNever hnever)

/-- **At a quote the lexer reads a quoted string.** -/
theorem head_quote (hquote : quote = '\x27' ∨ quote = '\x22') (cs : List Char) :
    ∃ k, k.isQuoted = true ∧ head (quote :: cs) = (k, 1 + quotedLength quote cs) := by
  have hmark {r : Rule} (hr : r ∈ Rule.all) {m : List Char} (hm : r.pattern.Matches m) := Rule.marks_of_kind hr hm
  rcases hquote with rfl | rfl
  · refine ⟨.singleQuotedString, rfl, head_of_rule (k := .singleQuotedString) ?_ (by decide +kernel) ?_⟩
    · simp [Rule.all, Rule.unspelled]
    · exact fun r hr hkind m hm => (hmark hr hm).1 hkind
  · refine ⟨.doubleQuotedString, rfl, head_of_rule (k := .doubleQuotedString) ?_ (by decide +kernel) ?_⟩
    · simp [Rule.all, Rule.unspelled]
    · exact fun r hr hkind m hm => (hmark hr hm).2.1 hkind

/-- A text is one token if this is its head. -/
theorem lex_eq_singleton_iff {t : String} (ht : t.toList ≠ []) :
    lex t = [⟨k, 0, t⟩] ↔ head t.toList = (k, t.toList.length) := by
  constructor
  · intro h
    have hlexemes : lexemes t.toList = [(k, t)] := congrArg (List.map leaf) h
    obtain ⟨u, hu, -, hhead, -⟩ := exists_of_lexemes_cons hlexemes
    rwa [← hu] at hhead
  · intro h
    have hlexemes := lexemes_append (u := []) ht (by rwa [List.append_nil])
    rw [List.append_nil, String.ofList_toList] at hlexemes
    rw [lex_eq_placeFrom, hlexemes]
    rfl

/-- **A text between two quotes is one token if the lexer reads it to its end**, and then it is finished, as no
escape takes the last quote. -/
theorem lex_quoted_iff {t : String} {body : List Char} (hquote : quote = '\x27' ∨ quote = '\x22')
    (ht : t.toList = quote :: (body ++ [quote]))
    (hlast : ¬ Escape.Cover (Escape.all t.toList) (byteLength (quote :: body))) :
    (∃ k, k.isQuoted = true ∧ lex t = [⟨k, 0, t⟩] ∧ closesString? k t.toList = some true) ↔
      quotedLength quote (body ++ [quote]) = (body ++ [quote]).length := by
  obtain ⟨k, hk, hhead⟩ := head_quote hquote (body ++ [quote])
  constructor
  · rintro ⟨k', -, hlex, -⟩
    rw [lex_eq_singleton_iff (by simp [ht]), ht, hhead] at hlex
    have hlength := (Prod.mk.inj hlex).2
    rw [List.length_cons] at hlength
    omega
  · intro hlength
    refine ⟨k, hk, (lex_eq_singleton_iff (by simp [ht])).2 ?_, ?_⟩
    · rw [ht, hhead, hlength, List.length_cons, Nat.add_comm]
    · have hone : quote.utf8Size = 1 := by rcases hquote with rfl | rfl <;> rfl
      have hreach : QuotedReach ⟨k, 0, t⟩ quote (body ++ [quote]) [] :=
        quotedReach_of_quotedLength hk hquote ht (by rwa [List.append_nil])
      have hsize : t.utf8ByteSize = byteLength (quote :: body) + 1 := by
        rw [← String.ofList_toList (s := t), utf8ByteSize_ofList, ht]
        simp only [byteLength_cons, byteLength_append, byteLength_nil, hone]
        omega
      refine hreach.closed_iff.2 ⟨by rw [hsize, byteLength_cons]; omega, ?_, by rwa [hsize]⟩
      rw [ht, ← List.cons_append, List.getLast?_concat]

end Token

open Escape Token

/-- **A literal that its escapes hold together is one token**, and it is finished: the escapes of a text between two
quotes cover all quotes and line breaks in it but the last one.  An escape of a line feed and a carriage return is the
only one that the lexer ends too early. -/
theorem lex_of_escapes {t : String} {quote : Char} {body : List Char} (hquote : quote = '\x27' ∨ quote = '\x22')
    (ht : t.toList = quote :: (body ++ [quote]))
    (hcovered : ∀ x c y, body = x ++ c :: y → c = quote ∨ c = '\n' ∨ c = '\r' →
      Cover (all t.toList) (byteLength (quote :: x)))
    (hlast : ¬ Cover (all t.toList) (byteLength (quote :: body))) :
    (∃ k, k.isQuoted = true ∧ lex t = [⟨k, 0, t⟩] ∧ closesString? k t.toList = some true) ↔
      ∀ e ∈ all t.toList, sliceBytes? t.toList e.start e.stop ≠ some ['\x5c', '\n', '\r'] := by
  have hone : byteLength [quote] = 1 := by rcases hquote with rfl | rfl <;> rfl
  have hall : all t.toList = allFrom 1 0 (body ++ [quote]) := by
    rw [ht]
    rcases hquote with rfl | rfl <;> rfl
  have hlaid : Laid 1 (body ++ [quote]) (all t.toList) := hall ▸ laid_allFrom (body ++ [quote]) 1 0
  have hcons (x : List Char) : byteLength (quote :: x) = 1 + byteLength x := by
    rw [← List.singleton_append, byteLength_append, hone]
  have hclosed : Enclosed quote 1 body (all t.toList) :=
    ⟨fun x c y hsplit hc => hcons x ▸ hcovered x c y hsplit hc, hcons body ▸ hlast⟩
  -- the slices of the text are those behind its first quote
  have hslice : ∀ e ∈ all t.toList, sliceBytes? t.toList e.start e.stop =
      sliceBytes? (body ++ [quote]) (e.start - 1) (e.stop - 1) := by
    intro e he
    obtain ⟨hstart, hlt, -⟩ := hlaid.bounds e he
    rw [ht, ← List.singleton_append, sliceBytes?_append _ (by omega) (by omega), hone]
  rw [lex_quoted_iff hquote ht hlast, hlaid.quotedLength_iff hquote body rfl hclosed]
  exact forall₂_congr fun e he => by rw [hslice e he]

/-- A line break of two characters and a quote are escaped. -/
theorem lex_of_escapes_of_quote :
    (∀ x c y, ['\x5c', '\r', '\n', '\x5c', '\x27'] = x ++ c :: y → c = '\x27' ∨ c = '\n' ∨ c = '\r' →
      Cover (all "\x27\x5c\r\n\x5c\x27\x27".toList) (byteLength ('\x27' :: x))) ∧
    ¬ Cover (all "\x27\x5c\r\n\x5c\x27\x27".toList) 6 ∧
    ∃ k, k.isQuoted = true ∧
      lex "\x27\x5c\r\n\x5c\x27\x27" = [⟨k, 0, "\x27\x5c\r\n\x5c\x27\x27"⟩] ∧
      closesString? k "\x27\x5c\r\n\x5c\x27\x27".toList = some true := by
  have hcovered : ∀ x c y, ['\x5c', '\r', '\n', '\x5c', '\x27'] = x ++ c :: y →
      c = '\x27' ∨ c = '\n' ∨ c = '\r' →
        Cover (all "\x27\x5c\r\n\x5c\x27\x27".toList) (byteLength ('\x27' :: x)) :=
    forall_of_get (by decide +kernel)
  have hlast : ¬ Cover (all "\x27\x5c\r\n\x5c\x27\x27".toList) 6 := by decide +kernel
  exact ⟨hcovered, hlast, (lex_of_escapes (.inl rfl) rfl hcovered hlast).2 (by decide +kernel)⟩

/-- **A line feed and a carriage return are escaped together, and still end the string.** -/
theorem escaped_line_break_splits :
    (∀ x c y, ['\x5c', '\n', '\r'] = x ++ c :: y → c = '\x22' ∨ c = '\n' ∨ c = '\r' →
      Cover (all "\x22\x5c\n\r\x22".toList) (byteLength ('\x22' :: x))) ∧
    ¬ Cover (all "\x22\x5c\n\r\x22".toList) 4 ∧
    lex "\x22\x5c\n\r\x22" =
      [⟨.doubleQuotedString, 0, "\x22\x5c\n"⟩, ⟨.newline, 3, "\r"⟩, ⟨.doubleQuotedString, 4, "\x22"⟩] := by
  refine ⟨forall_of_get ?_, ?_, ?_⟩ <;> decide +kernel

end LuaTree
