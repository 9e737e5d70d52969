import LuaTree.Proofs.LongestMatch
import LuaTree.Text.Escape

/-!
# Proofs/Literals — where strings and comments end

Three readers look at a quoted string.  The lexer goes forward to the quote that closes it, `Token.quoteCloses` counts
the backslashes in front of the last character, and `Escape.all` places the escapes.  They agree on every string that
the lexer has read, because such a string consists of pieces that all of them see alike (`Token.Body`).  Long strings
and block comments end behind the first closing bracket of their level, or with the source; `reach_of_lex` is about
all of them.
-/

namespace LuaTree

namespace Token

/-! ## The pieces of a quoted string -/

/-- What stands for itself in a quoted string. -/
structure Ordinary (quote c : Char) : Prop where
  backslash : c ≠ '\x5c'
  quote : c ≠ quote
  lf : c ≠ '\n'
  cr : c ≠ '\r'

/-- **What follows an opening quote**, in pieces, and whether it is closed. -/
inductive Body (quote : Char) : Bool → List Char → Prop
  | stops : Body quote false []
  /-- A backslash at the end of a source. -/
  | backslash : Body quote false ['\x5c']
  | closes : Body quote true [quote]
  | ordinary {closed : Bool} {c : Char} {cs : List Char} :
    Ordinary quote c → Body quote closed cs → Body quote closed (c :: cs)
  | escape {closed : Bool} {cs : List Char} (c : Char) : Body quote closed cs → Body quote closed ('\x5c' :: c :: cs)
  /-- A line break of two characters is escaped as one. -/
  | crlf {closed : Bool} {cs : List Char} : Body quote closed cs → Body quote closed ('\x5c' :: '\r' :: '\n' :: cs)

variable {quote : Char} {closed : Bool} {b u cs : List Char}

/-- What is longer than nothing begins like the text. -/
theorem exists_of_append_cons {c : Char} {n : Nat} (h : b ++ u = c :: cs) (hlength : n + 1 = b.length) :
    ∃ b', b = c :: b' ∧ b' ++ u = cs ∧ n = b'.length := by
  cases b with
  | nil => cases hlength
  | cons d b =>
    obtain ⟨rfl, hcs⟩ := List.cons.inj h
    exact ⟨b, rfl, hcs, Nat.succ.inj hlength⟩

/-- **The lexer reads a string piece by piece**, up to its end, a line break or the end of the source. -/
theorem body_of_quotedLength (h : quotedLength quote (b ++ u) = b.length) :
    ∃ closed, Body quote closed b ∧ (closed = false → u = [] ∨ ∃ c ∈ u.head?, c = '\n' ∨ c = '\r') := by
  generalize hcs : b ++ u = cs at h
  fun_induction quotedLength quote cs generalizing b with
  | case1 =>
    obtain ⟨rfl, rfl⟩ := List.append_eq_nil_iff.1 hcs
    exact ⟨false, .stops, fun _ => .inl rfl⟩
  | case2 =>
    obtain ⟨b, rfl, hcs, -⟩ := exists_of_append_cons hcs h
    obtain ⟨rfl, rfl⟩ := List.append_eq_nil_iff.1 hcs
    exact ⟨false, .backslash, fun _ => .inl rfl⟩
  | case3 cs ih =>
    obtain ⟨b, rfl, hcs, h⟩ := exists_of_append_cons hcs h
    obtain ⟨b, rfl, hcs, h⟩ := exists_of_append_cons hcs h
    obtain ⟨b, rfl, hcs, h⟩ := exists_of_append_cons hcs h
    obtain ⟨closed, hbody, hstop⟩ := ih hcs h
    exact ⟨closed, .crlf hbody, hstop⟩
  | case4 c cs hcrlf ih =>
    obtain ⟨b, rfl, hcs, h⟩ := exists_of_append_cons hcs h
    obtain ⟨b, rfl, hcs, h⟩ := exists_of_append_cons hcs h
    obtain ⟨closed, hbody, hstop⟩ := ih hcs h
    exact ⟨closed, .escape c hbody, hstop⟩
  | case5 c cs hlast hcrlf hescape hbreak =>
    obtain rfl := List.length_eq_zero_iff.1 h.symm
    rw [List.nil_append] at hcs
    exact ⟨false, .stops, fun _ => .inr ⟨c, by rw [hcs]; rfl, hbreak⟩⟩
  | case6 cs hlast hcrlf hescape hbreak =>
    obtain ⟨b, rfl, -, hlength⟩ := exists_of_append_cons hcs h
    obtain rfl := List.length_eq_zero_iff.1 hlength.symm
    exact ⟨true, .closes, fun hopen => absurd hopen (by decide)⟩
  | case7 c cs hlast hcrlf hescape hbreak hquote ih =>
    obtain ⟨b, rfl, hcs, h⟩ := exists_of_append_cons hcs h
    obtain ⟨closed, hbody, hstop⟩ := ih hcs h
    refine ⟨closed, .ordinary ⟨?_, hquote, fun hlf => hbreak (.inl hlf), fun hcr => hbreak (.inr hcr)⟩ hbody, hstop⟩
    rintro rfl
    cases cs with
    | nil => exact hlast rfl rfl
    | cons d cs => exact hescape d cs rfl rfl

/-- A quoted string goes on in the same line. -/
theorem Body.head? (h : Body quote closed cs) (hquote : quote = '\x27' ∨ quote = '\x22') :
    ∀ c ∈ cs.head?, c ≠ '\n' ∧ c ≠ '\r' := by
  cases h with
  | stops => nofun
  | backslash | escape | crlf => simp
  | closes =>
    rintro _ ⟨⟩
    rcases hquote with rfl | rfl <;> decide
  | ordinary hc =>
    rintro _ ⟨⟩
    exact ⟨hc.lf, hc.cr⟩

/-! ## Backslashes in front of the last quote -/

/-- How many backslashes a text ends with. -/
def trailing (cs : List Char) : Nat := (cs.reverse.takeWhile (· == '\x5c')).length

theorem trailing_concat (cs : List Char) (c : Char) :
    trailing (cs ++ [c]) = if c = '\x5c' then trailing cs + 1 else 0 := by
  rw [trailing, List.reverse_append, List.reverse_singleton, List.singleton_append, List.takeWhile_cons]
  by_cases hc : c = '\x5c' <;> simp [hc, trailing]

theorem quoteCloses_concat (hquote : quote = '\x27' ∨ quote = '\x22') (cs : List Char) (c : Char) :
    quoteCloses quote (cs ++ [c]) = (c == quote && trailing cs % 2 == 0) := by
  have hsize : quote.utf8Size = 1 := by rcases hquote with rfl | rfl <;> rfl
  rw [quoteCloses, hsize, List.getLast?_concat, List.dropLast_concat]
  rfl

/-- **Whether the backslashes in front of the last quote come in pairs** tells whether a string is closed. -/
theorem Body.quoteCloses_append (h : Body quote closed cs) (hquote : quote = '\x27' ∨ quote = '\x22') :
    ∀ before : List Char, trailing before % 2 = 0 → quoteCloses quote before = false →
      quoteCloses quote (before ++ cs) = closed := by
  have hbackslash : '\x5c' ≠ quote := by rcases hquote with rfl | rfl <;> decide
  have hlf : '\n' ≠ quote := by rcases hquote with rfl | rfl <;> decide
  induction h with
  | stops =>
    intro before _ hopen
    rw [List.append_nil, hopen]
  | backslash =>
    intro before _ _
    simp [quoteCloses_concat hquote, hbackslash]
  | closes =>
    intro before heven _
    simp [quoteCloses_concat hquote, heven]
  | @ordinary closed c cs hc _ ih =>
    intro before _ _
    have hnext := ih (before ++ [c]) (by simp [trailing_concat, hc.backslash])
      (by simp [quoteCloses_concat hquote, hc.quote])
    simpa using hnext
  | @escape closed cs c _ ih =>
    intro before heven _
    -- one more backslash in front of `c`, so that the number is odd
    have hodd : (trailing before + 1) % 2 = 1 := by omega
    have hnext := ih (before ++ ['\x5c'] ++ [c])
      (by rw [trailing_concat, trailing_concat, if_pos rfl]; split <;> omega)
      (by rw [quoteCloses_concat hquote, trailing_concat, if_pos rfl, hodd]; simp)
    simpa using hnext
  | @crlf closed cs _ ih =>
    intro before _ _
    have hnext := ih (before ++ ['\x5c', '\r'] ++ ['\n']) (by rw [trailing_concat, if_neg (by decide)])
      (by rw [quoteCloses_concat hquote]; simp [hlf])
    simpa using hnext

theorem Body.quoteCloses_eq (h : Body quote closed cs) (hquote : quote = '\x27' ∨ quote = '\x22') :
    quoteCloses quote cs = closed :=
  h.quoteCloses_append hquote [] rfl (by simp [quoteCloses])

end Token

/-! ## Escapes -/

namespace Escape

open Token

variable {quote c : Char} {cs : List Char}

theorem ordinary_of_isHex (hquote : quote = '\x27' ∨ quote = '\x22') (h : isHex c = true) : Ordinary quote c := by
  refine ⟨?_, ?_, ?_, ?_⟩ <;> rintro rfl
  · exact absurd h (by decide)
  · rcases hquote with rfl | rfl <;> exact absurd h (by decide)
  · exact absurd h (by decide)
  · exact absurd h (by decide)

theorem ordinary_of_brace (hquote : quote = '\x27' ∨ quote = '\x22') (h : c = '\x7b' ∨ c = '\x7d') :
    Ordinary quote c := by
  rcases hquote with rfl | rfl <;> rcases h with rfl | rfl <;> exact ⟨by decide, by decide, by decide, by decide⟩

theorem isHex_of_isDecimal (h : isDecimal c = true) : isHex c = true := by simp [isHex, h]

/-- What is taken while it is of a class is of the class. -/
theorem forall_mem_take_takeWhile {p : Char → Bool} (h : ∀ d, p d = true → Ordinary quote d) {ds : List Char}
    (hds : ds <+: cs) : ∀ d ∈ cs.take (ds.takeWhile p).length, Ordinary quote d := by
  have htake : cs.take (ds.takeWhile p).length = ds.takeWhile p :=
    (List.prefix_iff_eq_take.1 ((List.takeWhile_prefix p).trans hds)).symm
  rw [htake]
  exact fun d hd => h d (List.all_eq_true.1 List.all_takeWhile d hd)

theorem ordinary_of_measureCode (hquote : quote = '\x27' ∨ quote = '\x22') :
    ∀ d ∈ cs.take (measureCode cs).1, Ordinary quote d := by
  have hhex : ∀ d ∈ cs.takeWhile isHex, Ordinary quote d := fun d hd =>
    ordinary_of_isHex hquote (List.all_eq_true.1 List.all_takeWhile d hd)
  have htake (n : Nat) : cs.take ((cs.takeWhile isHex).length + n) =
      cs.takeWhile isHex ++ (cs.dropWhile isHex).take n := by
    conv => lhs; arg 2; rw [← List.takeWhile_append_dropWhile (p := isHex) (l := cs)]
    exact List.take_length_add_append n
  unfold measureCode
  dsimp only
  split
  · rename_i ds hbrace
    rw [htake, hbrace]
    simpa [or_imp, forall_and, ordinary_of_brace hquote] using hhex
  · have hall := htake 0
    rw [Nat.add_zero, List.take_zero, List.append_nil] at hall
    rwa [hall]

/-- **An escape reaches over ordinary characters only**, behind its first one. -/
theorem measure_cons (hquote : quote = '\x27' ∨ quote = '\x22') (hlf : cs.head? ≠ some '\n')
    (hcr : cs.head? ≠ some '\r') : ∃ m, (measure (c :: cs)).1 = m + 1 ∧ ∀ d ∈ cs.take m, Ordinary quote d := by
  unfold measure
  split
  · contradiction
  · rename_i ds hcs
    obtain ⟨rfl, rfl⟩ := List.cons.inj hcs
    exact ⟨0, by rw [if_neg hcr], by simp⟩
  · rename_i ds hcs
    obtain ⟨rfl, rfl⟩ := List.cons.inj hcs
    exact ⟨0, by rw [if_neg hlf], by simp⟩
  · rename_i ds hcs
    obtain ⟨rfl, rfl⟩ := List.cons.inj hcs
    exact ⟨_, rfl, forall_mem_take_takeWhile (fun d => ordinary_of_isHex hquote) (List.take_prefix 2 cs)⟩
  · rename_i ds hcs
    obtain ⟨rfl, rfl⟩ := List.cons.inj hcs
    refine ⟨(measureCode ds).1 + 1, rfl, ?_⟩
    rw [List.take_succ_cons, List.forall_mem_cons]
    exact ⟨ordinary_of_brace hquote (.inl rfl), ordinary_of_measureCode hquote⟩
  · rename_i hcs
    obtain ⟨rfl, rfl⟩ := List.cons.inj hcs
    split
    · exact ⟨0, rfl, by simp⟩
    · split
      · rename_i hdecimal
        refine ⟨((cs.take 2).takeWhile isDecimal).length, ?_,
          forall_mem_take_takeWhile (fun d hd => ordinary_of_isHex hquote (isHex_of_isDecimal hd))
            (List.take_prefix 2 cs)⟩
        simp [List.take_succ_cons, List.takeWhile_cons_of_pos hdecimal]
      · exact ⟨0, rfl, by simp⟩

/-- Whether one of some escapes covers the byte at an offset. -/
def Cover (es : List Escape) (n : Nat) : Prop := ∃ e ∈ es, e.start ≤ n ∧ n < e.stop

/-- **What escapes cover of the rest of a quoted string**: each quote and line break in it but the quote that closes
it, and this one is behind all of them. -/
structure Placed (quote : Char) (closed : Bool) (b : List Char) (n : Nat) (es : List Escape) : Prop where
  covered : ∀ x c y, b = x ++ c :: y → c = quote ∨ c = '\n' ∨ c = '\r' → (y = [] → closed = false) →
    Cover es (n + byteLength x)
  last : closed = true → ∃ x, b = x ++ [quote] ∧ ∀ e ∈ es, e.stop ≤ n + byteLength x

theorem Cover.cons {e : Escape} {es : List Escape} {n : Nat} (h : Cover es n) : Cover (e :: es) n := by
  obtain ⟨e', he', hn⟩ := h
  exact ⟨e', List.mem_cons_of_mem _ he', hn⟩

theorem Placed.cons_ordinary {closed : Bool} {b : List Char} {n : Nat} {es : List Escape} (hc : Ordinary quote c)
    (h : Placed quote closed b (n + c.utf8Size) es) : Placed quote closed (c :: b) n es where
  covered x d y hsplit hd hy := by
    cases x with
    | nil =>
      obtain ⟨rfl, -⟩ := List.cons.inj hsplit
      exact (hd.elim hc.quote fun hd => hd.elim hc.lf hc.cr).elim
    | cons d x =>
      obtain ⟨rfl, rfl⟩ := List.cons.inj hsplit
      rw [byteLength_cons, ← Nat.add_assoc]
      exact h.covered x _ y rfl hd hy
  last hclosed := by
    obtain ⟨x, rfl, hstop⟩ := h.last hclosed
    exact ⟨c :: x, rfl, by simpa [Nat.add_assoc] using hstop⟩

theorem utf8Size_backslash : Char.utf8Size '\x5c' = 1 := rfl

/-- An escape, and the ordinary characters behind it that it takes. -/
theorem Placed.cons_escape {closed : Bool} {w b : List Char} {n m : Nat} {valid : Bool} {es : List Escape}
    (hquote : quote = '\x27' ∨ quote = '\x22') (hm : ∀ d ∈ b.take m, Ordinary quote d)
    (h : Placed quote closed b (n + 1 + byteLength w) es) :
    Placed quote closed ('\x5c' :: (w ++ b)) n (⟨n, n + 1 + byteLength w + byteLength (b.take m), valid⟩ :: es) where
  covered x d y hsplit hd hy := by
    cases x with
    | nil =>
      obtain ⟨rfl, -⟩ := List.cons.inj hsplit
      rcases hquote with rfl | rfl <;> exact absurd hd (by decide)
    | cons e x =>
      obtain ⟨rfl, htail⟩ := List.cons.inj hsplit
      rw [byteLength_cons, utf8Size_backslash, ← Nat.add_assoc]
      rcases List.append_eq_append_iff.1 htail with ⟨v, rfl, hb⟩ | ⟨v, rfl, hv⟩
      · rw [byteLength_append, ← Nat.add_assoc]
        exact (h.covered v d y hb hd hy).cons
      · cases v with
        | nil =>
          have hb : b = [] ++ d :: y := hv.symm
          simpa using (h.covered [] d y hb hd hy).cons
        | cons e v =>
          obtain ⟨rfl, -⟩ := List.cons.inj hv
          have hpos := d.utf8Size_pos
          refine ⟨_, List.mem_cons_self, ?_, ?_⟩ <;> simp only [byteLength_append, byteLength_cons] <;> omega
  last hclosed := by
    obtain ⟨x, rfl, hstop⟩ := h.last hclosed
    refine ⟨'\x5c' :: (w ++ x), by simp, ?_⟩
    rw [byteLength_cons, byteLength_append, utf8Size_backslash, List.forall_mem_cons]
    -- the quote is not ordinary
    have hle : m ≤ x.length := by
      by_contra hlt
      refine (hm quote ?_).quote rfl
      rw [List.take_of_length_le (by simp; omega)]
      simp
    have htake : byteLength (x.take m) ≤ byteLength x := by
      conv => rhs; rw [← List.take_append_drop m x]
      rw [byteLength_append]
      omega
    rw [List.take_append_of_le_length hle]
    refine ⟨by dsimp only; omega, fun e he => ?_⟩
    have := hstop e he
    omega

/-- **The escapes of a quoted string**, where the first `skip` characters are ordinary and belong to an escape. -/
theorem placed_of_body {closed : Bool} {b : List Char} (hquote : quote = '\x27' ∨ quote = '\x22')
    (h : Body quote closed b) : ∀ n skip : Nat, (∀ d ∈ b.take skip, Ordinary quote d) →
      Placed quote closed b n (allFrom n skip b) := by
  induction h with
  | stops => exact fun n skip _ => ⟨fun x c y h => by simp at h, nofun⟩
  | backslash =>
    refine fun n skip _ => ⟨fun x d y hsplit hd _ => ?_, nofun⟩
    obtain rfl : d = '\x5c' := List.mem_singleton.1 (hsplit ▸ by simp)
    rcases hquote with rfl | rfl <;> exact absurd hd (by decide)
  | closes =>
    have hnone (n skip : Nat) : allFrom n skip [quote] = [] := by
      cases skip with
      | zero => rcases hquote with rfl | rfl <;> rfl
      | succ skip => rfl
    refine fun n skip _ => ⟨fun x d y hsplit hd hy => ?_, fun _ => ⟨[], rfl, by simp [hnone]⟩⟩
    have hlength := congrArg List.length hsplit
    simp only [List.length_append, List.length_cons, List.length_nil] at hlength
    cases hy (List.length_eq_zero_iff.1 (by omega))
  | @ordinary closed c cs hc _ ih =>
    intro n skip hskip
    cases skip with
    | zero =>
      have hnext : allFrom n 0 (c :: cs) = allFrom (n + c.utf8Size) 0 cs := by simp [allFrom, hc.backslash]
      rw [hnext]
      exact (ih _ 0 (by simp)).cons_ordinary hc
    | succ skip => exact (ih (n + c.utf8Size) skip fun d hd => hskip d (List.mem_cons_of_mem c hd)).cons_ordinary hc
  | @escape closed cs c hcs ih =>
    intro n skip hskip
    have hline := hcs.head? hquote
    obtain ⟨m, hm, hordinary⟩ := measure_cons (c := c) hquote (fun hlf => (hline _ hlf).1 rfl)
      (fun hcr => (hline _ hcr).2 rfl)
    cases skip with
    | zero =>
      have hnext : allFrom n 0 ('\x5c' :: c :: cs) = ⟨n, n + 1 + byteLength [c] + byteLength (cs.take m),
          (measure (c :: cs)).2⟩ :: allFrom (n + 1 + byteLength [c]) m cs := by
        rw [allFrom, if_pos rfl, hm, List.take_succ_cons, byteLength_cons, utf8Size_backslash]
        simp [allFrom, Nat.add_assoc]
      rw [hnext]
      exact (ih (n + 1 + byteLength [c]) m hordinary).cons_escape hquote hordinary
    | succ skip => exact absurd rfl (hskip '\x5c' List.mem_cons_self).backslash
  | @crlf closed cs hcs ih =>
    intro n skip hskip
    cases skip with
    | zero =>
      have hnone : ∀ d ∈ cs.take 0, Ordinary quote d := fun _ hd => nomatch hd
      exact (ih (n + 1 + byteLength ['\r', '\n']) 0 hnone).cons_escape hquote hnone
    | succ skip => exact absurd rfl (hskip '\x5c' List.mem_cons_self).backslash

end Escape

/-! ## Closing brackets -/

namespace LongBracket

variable {mark cs body after : List Char} {level : Nat}

/-- **The first mark in a text** is found. -/
theorem lengthThrough_of_occurs (h : mark <:+: cs) : ∃ x, x ++ mark <+: cs ∧
    lengthThrough mark cs = (x ++ mark).length ∧ ∀ y, y ++ mark <+: cs → x.length ≤ y.length := by
  induction cs with
  | nil =>
    obtain rfl := List.infix_nil.1 h
    exact ⟨[], by simp, rfl, by simp⟩
  | cons c cs ih =>
    rw [lengthThrough]
    by_cases hbegins : mark <+: c :: cs
    · exact ⟨[], hbegins, by rw [if_pos (List.isPrefixOf_iff_prefix.2 hbegins)]; rfl, by simp⟩
    · obtain ⟨x, hx, hlength, hfirst⟩ := ih ((List.infix_cons_iff.1 h).resolve_left hbegins)
      refine ⟨c :: x, by simpa using hx, ?_, fun y hy => ?_⟩
      · rw [if_neg (mt List.isPrefixOf_iff_prefix.1 hbegins), hlength]
        rfl
      · cases y with
        | nil => exact absurd hy hbegins
        | cons d y => exact Nat.succ_le_succ (hfirst y (List.cons_prefix_cons.1 hy).2)

theorem lengthThrough_of_absent (h : ¬ mark <:+: cs) : lengthThrough mark cs = cs.length := by
  induction cs with
  | nil => rfl
  | cons c cs ih =>
    rw [List.infix_cons_iff, not_or] at h
    rw [lengthThrough, if_neg (mt List.isPrefixOf_iff_prefix.1 h.1), ih h.2, List.length_cons]

theorem not_mem_closer : '[' ∉ closer level := by
  simp [closer]

/-- An opening bracket and the closing one have no character in common, so the text ends with the closing one only
behind the opening one. -/
theorem isClosed_opener_append : isClosed (opener level ++ body) = true ↔ closer level <:+ body := by
  rw [isClosed, level?_opener_append]
  dsimp only
  rw [List.isSuffixOf_iff_suffix]
  refine ⟨fun h => ?_, fun h => h.trans (List.suffix_append _ _)⟩
  rcases List.suffix_or_suffix_of_suffix h (List.suffix_append (opener level) body) with h' | ⟨x, hx⟩
  · exact h'
  · obtain ⟨s, hs⟩ := h
    rw [← hx, ← List.append_assoc] at hs
    have hopener := List.append_cancel_right hs
    rcases List.eq_nil_or_concat x with rfl | ⟨x, c, rfl⟩
    · exact hx ▸ List.suffix_rfl
    · have hlast : c = '[' := by
        simpa [opener, List.getLast?_append, List.getLast?_cons] using congrArg List.getLast? hopener
      exact absurd (by simp [← hx, hlast]) (@not_mem_closer level)

/-- **How far a long string or a block comment reaches** behind its opening bracket, and whether it is closed. -/
structure Reach (closed : Option Bool) (level : Nat) (body after : List Char) : Prop where
  closed_iff : closed = some true ↔ closer level <:+: body ++ after
  first : closer level <:+: body ++ after → ∃ x, body = x ++ closer level ∧
    ∀ y, y ++ closer level <+: body ++ after → x.length ≤ y.length
  rest : ¬ closer level <:+: body ++ after → after = []

theorem reach_of_lengthThrough (h : lengthThrough (closer level) (body ++ after) = body.length) :
    Reach (some (isClosed (opener level ++ body))) level body after := by
  have hfirst (hoccurs : closer level <:+: body ++ after) : ∃ x, body = x ++ closer level ∧
      ∀ y, y ++ closer level <+: body ++ after → x.length ≤ y.length := by
    obtain ⟨x, hx, hlength, hfirst⟩ := lengthThrough_of_occurs hoccurs
    rw [h] at hlength
    have hbegins := List.prefix_of_prefix_length_le hx (List.prefix_append body after) (Nat.le_of_eq hlength.symm)
    exact ⟨x, (hbegins.eq_of_length hlength.symm).symm, hfirst⟩
  refine ⟨?_, hfirst, fun hnone => ?_⟩
  · rw [Option.some.injEq, isClosed_opener_append]
    refine ⟨fun hsuffix => hsuffix.isInfix.trans (List.prefix_append body after).isInfix, fun hoccurs => ?_⟩
    obtain ⟨x, hx, -⟩ := hfirst hoccurs
    exact ⟨x, hx.symm⟩
  · rw [lengthThrough_of_absent hnone, List.length_append] at h
    exact List.length_eq_zero_iff.1 (by omega)

end LongBracket

/-! ## How far a token reaches -/

namespace Token

open LongBracket

variable {t : Token} {after : List Char}

/-- **A quoted string**: its opening quote and what follows it. -/
structure QuotedReach (t : Token) (quote : Char) (body after : List Char) : Prop where
  text : t.text.toList = quote :: body
  /-- It is closed if it ends with a second quote that no escape covers. -/
  closed_iff : closesString? t.kind t.text.toList = some true ↔ 2 ≤ t.text.utf8ByteSize ∧
    t.text.toList.getLast? = some quote ∧ ¬ Escape.Cover (Escape.all t.text.toList) (t.text.utf8ByteSize - 1)
  /-- Escapes cover all other quotes and line breaks. -/
  covered : ∀ x c y, body = x ++ c :: y → c = quote ∨ c = '\n' ∨ c = '\r' →
    (y = [] → closesString? t.kind t.text.toList ≠ some true) →
    Escape.Cover (Escape.all t.text.toList) (byteLength (quote :: x))
  stops : closesString? t.kind t.text.toList ≠ some true → after = [] ∨ ∃ c ∈ after.head?, c = '\n' ∨ c = '\r'

/-- **How far a string or a comment reaches**, in front of a text. -/
structure Reaches (t : Token) (after : List Char) : Prop where
  quoted : t.kind.isQuoted = true → ∃ quote body, t.QuotedReach quote body after
  longString : t.kind = .longString → ∃ level body, t.text.toList = opener level ++ body ∧
    Reach (closesString? t.kind t.text.toList) level body after
  blockComment : t.kind = .blockComment → ∃ level body, t.text.toList = '-' :: '-' :: (opener level ++ body) ∧
    Reach (closesComment? t.kind t.text.toList) level body after
  /-- A comment is a block if an opening bracket follows its dashes. -/
  comment : t.kind ∈ KindSet.comments → ∃ rest, t.text.toList ++ after = '-' :: '-' :: rest ∧
    (t.kind = .blockComment ↔ ∃ level ds, rest = opener level ++ ds)
  lineComment : t.kind = .lineComment → (∀ c ∈ t.text.toList, c ≠ '\n' ∧ c ≠ '\r') ∧
    ∀ c ∈ after.head?, c = '\n' ∨ c = '\r'

theorem quotedReach_of_quotedLength {quote : Char} {body : List Char} (hkind : t.kind.isQuoted = true)
    (hquote : quote = '\x27' ∨ quote = '\x22') (htext : t.text.toList = quote :: body)
    (h : quotedLength quote (body ++ after) = body.length) : t.QuotedReach quote body after := by
  obtain ⟨closed, hbody, hstop⟩ := body_of_quotedLength h
  have hclosed : closesString? t.kind t.text.toList = some closed := by
    unfold closesString?
    rw [if_pos hkind, htext]
    dsimp only
    rw [hbody.quoteCloses_eq hquote]
  have hone : quote.utf8Size = 1 := by rcases hquote with rfl | rfl <;> rfl
  have hsize : t.text.utf8ByteSize = 1 + byteLength body := by
    rw [← String.ofList_toList (s := t.text), utf8ByteSize_ofList, htext, byteLength_cons, hone]
  have hall : Escape.all t.text.toList = Escape.allFrom 1 0 body := by
    rw [htext]
    rcases hquote with rfl | rfl <;> rfl
  have hplaced := Escape.placed_of_body hquote hbody 1 0 (by simp)
  rw [← hall] at hplaced
  refine ⟨htext, ?_, fun x c y hsplit hc hy => ?_, fun hopen => hstop ?_⟩
  · rw [hclosed, Option.some.injEq]
    constructor
    · rintro rfl
      obtain ⟨x, rfl, hlast⟩ := hplaced.last rfl
      rw [hsize, byteLength_append, byteLength_cons, hone]
      refine ⟨by omega, by rw [htext, ← List.cons_append, List.getLast?_concat], ?_⟩
      rintro ⟨e, he, hstart, hstop⟩
      have := hlast e he
      simp only [byteLength_nil] at hstop
      omega
    · rintro ⟨hle, hlast, hfree⟩
      rcases List.eq_nil_or_concat body with rfl | ⟨x, c, rfl⟩
      · simp [hsize] at hle
      rw [List.concat_eq_append] at *
      obtain rfl : c = quote := by simpa [htext, List.getLast?_cons] using hlast
      -- it would be covered if it were not the end
      by_contra hnot
      refine hfree ?_
      rw [hsize, byteLength_append, byteLength_cons, hone, byteLength_nil]
      exact hplaced.covered x c [] rfl (.inl rfl) fun _ => Bool.eq_false_iff.2 hnot
  · rw [byteLength_cons, hone]
    exact hplaced.covered x c y hsplit hc fun hnil =>
      Bool.eq_false_iff.2 fun hclosed' => hy hnil (by rw [hclosed, hclosed'])
  · exact Bool.eq_false_iff.2 fun hclosed' => hopen (by rw [hclosed, hclosed'])

section Begins

variable {r : Rule} {m b : List Char}

theorem exists_quotedReach (h : Begins t.text.toList after t.kind r m b) (hquoted : t.kind.isQuoted = true) :
    ∃ quote body, t.QuotedReach quote body after := by
  obtain ⟨hsingle, hdouble, -, -⟩ := Rule.marks_of_kind h.mem h.matched
  have hrule : r.kind = .singleQuotedString ∨ r.kind = .doubleQuotedString := by
    unfold Kind.isQuoted at hquoted
    split at hquoted
    · exact .inl (h.kind_eq.trans (by rw [‹t.kind = _›]; rfl))
    · exact .inr (h.kind_eq.trans (by rw [‹t.kind = _›]; rfl))
    · cases hquoted
  have hmark : ∃ quote, m = [quote] ∧ (quote = '\x27' ∨ quote = '\x22') ∧
      complete r.kind 1 (b ++ after) = (r.kind, 1 + quotedLength quote (b ++ after)) := by
    rcases hrule with hrule | hrule
    · exact ⟨_, hsingle hrule, .inl rfl, by rw [hrule]; rfl⟩
    · exact ⟨_, hdouble hrule, .inr rfl, by rw [hrule]; rfl⟩
  obtain ⟨quote, rfl, hquote, hcomplete⟩ := hmark
  have hlength := Nat.add_left_cancel (congrArg Prod.snd (hcomplete.symm.trans h.goesOn))
  exact ⟨quote, b, quotedReach_of_quotedLength hquoted hquote h.text hlength⟩

theorem exists_reach_of_longString (h : Begins t.text.toList after t.kind r m b) (hkind : t.kind = .longString) :
    ∃ level body, t.text.toList = opener level ++ body ∧
      Reach (closesString? t.kind t.text.toList) level body after := by
  have hrule : r.kind = .longString := h.kind_eq.trans (by rw [hkind]; rfl)
  obtain ⟨level, rfl⟩ := (Rule.marks_of_kind h.mem h.matched).2.2.1 hrule
  have hgoesOn := h.goesOn
  rw [hrule] at hgoesOn
  have hlength : lengthThrough (closer ((opener level).length - 2)) (b ++ after) = b.length :=
    Nat.add_left_cancel (congrArg Prod.snd hgoesOn)
  rw [length_opener, Nat.add_sub_cancel] at hlength
  refine ⟨level, b, h.text, ?_⟩
  rw [h.text, hkind]
  exact reach_of_lengthThrough hlength

/-- Behind the dashes of a comment stands what decides its kind. -/
theorem comment_of_begins (h : Begins t.text.toList after t.kind r m b) (hk : t.kind ∈ KindSet.comments) :
    t.text.toList = '-' :: '-' :: b ∧ Token.comment (b ++ after) = (t.kind, b.length) := by
  have hkind : r.kind = .comment := by rw [h.kind_eq, ruleKind, if_pos hk]
  have hgoesOn := h.goesOn
  obtain rfl := (Rule.marks_of_kind h.mem h.matched).2.2.2 hkind
  rw [hkind, complete] at hgoesOn
  obtain ⟨hkind, hlength⟩ := Prod.mk.inj hgoesOn
  exact ⟨h.text, Prod.ext hkind (Nat.add_left_cancel hlength)⟩

theorem exists_reach_of_blockComment (h : Begins t.text.toList after t.kind r m b) (hkind : t.kind = .blockComment) :
    ∃ level body, t.text.toList = '-' :: '-' :: (opener level ++ body) ∧
      Reach (closesComment? t.kind t.text.toList) level body after := by
  obtain ⟨hdashes, hcomment⟩ := comment_of_begins h (by rw [hkind]; decide)
  rcases comment_cases hcomment with ⟨-, level, body, rfl, hlength⟩ | ⟨hline, -⟩
  · refine ⟨level, body, hdashes, ?_⟩
    have hclosed : closesComment? t.kind t.text.toList = some (isClosed (opener level ++ body)) := by
      rw [closesComment?, if_pos hkind, hdashes]
      exact congrArg (Option.map isClosed) (dropBytes?_append ['-', '-'] (opener level ++ body))
    rw [hclosed]
    exact reach_of_lengthThrough hlength
  · rw [hkind] at hline
    cases hline

theorem blockComment_iff_opener (h : Begins t.text.toList after t.kind r m b) (hkind : t.kind ∈ KindSet.comments) :
    ∃ rest, t.text.toList ++ after = '-' :: '-' :: rest ∧
      (t.kind = .blockComment ↔ ∃ level ds, rest = opener level ++ ds) := by
  obtain ⟨hdashes, hcomment⟩ := comment_of_begins h hkind
  refine ⟨b ++ after, by rw [hdashes]; rfl, ?_⟩
  rcases comment_cases hcomment with ⟨hblock, level, body, rfl, -⟩ | ⟨hline, hlevel, -⟩
  · exact iff_of_true hblock ⟨level, body ++ after, by rw [List.append_assoc]⟩
  · refine iff_of_false (by rw [hline]; decide) ?_
    rintro ⟨level, ds, hds⟩
    rw [hds, level?_opener_append] at hlevel
    cases hlevel

theorem lineComment_breaks (h : Begins t.text.toList after t.kind r m b) (hkind : t.kind = .lineComment) :
    (∀ c ∈ t.text.toList, c ≠ '\n' ∧ c ≠ '\r') ∧ ∀ c ∈ after.head?, c = '\n' ∨ c = '\r' := by
  obtain ⟨hdashes, hcomment⟩ := comment_of_begins h (by rw [hkind]; decide)
  rcases comment_cases hcomment with ⟨hblock, -⟩ | ⟨-, -, hlength⟩
  · rw [hkind] at hblock
    cases hblock
  · obtain ⟨hb, hbehind⟩ := of_length_takeWhile hlength
    rw [hdashes]
    refine ⟨?_, fun c hc => ?_⟩
    · simp only [List.forall_mem_cons]
      exact ⟨by decide, by decide, fun c hc => by simpa using hb c hc⟩
    · simpa [or_iff_not_imp_left] using hbehind c hc

end Begins

/-- **The head of a text reaches to its end.** -/
theorem reaches_of_head (hhead : head (t.text.toList ++ after) = (t.kind, t.text.toList.length)) : t.Reaches after := by
  by_cases hk : t.kind = .invalidChar
  · constructor <;> intro h <;> rw [hk] at h <;> exact absurd h (by decide)
  obtain ⟨r, m, b, h⟩ := exists_begins hhead hk
  exact ⟨exists_quotedReach h, exists_reach_of_longString h, exists_reach_of_blockComment h,
    blockComment_iff_opener h, lineComment_breaks h⟩

end Token

/-- **Where strings and comments end.**  A quoted string is closed if it ends with a second quote that no escape covers;
every other quote and line break in it is escaped, and without such a quote it ends in front of a line break or with
the source.  A long string or a block comment ends behind the first closing bracket of its level, or with the source
if there is none.  A comment is a block if an opening bracket follows its dashes, and goes on to the end of the line
else. -/
theorem reach_of_lex (source : String) : ∀ t ∈ lex source, ∃ before after,
    source.toList = before ++ (t.text.toList ++ after) ∧ byteLength before = t.start ∧ t.Reaches after := by
  intro t ht
  obtain ⟨before, after, hsource, hstart, hhead⟩ := Token.exists_place_of_mem _ ht
  rw [Nat.zero_add] at hstart
  exact ⟨before, after, hsource, hstart, Token.reaches_of_head hhead⟩

/-- A long string behind whose closing bracket one more sign and bracket stand. -/
theorem reach_of_lex_of_bracket : ⟨.longString, 0, "[=[]=]"⟩ ∈ lex "[=[]=]=]" ∧
    ∃ after, "[=[]=]=]".toList = "[=[]=]".toList ++ after ∧ (⟨.longString, 0, "[=[]=]"⟩ : Token).Reaches after := by
  have hmem : ⟨.longString, 0, "[=[]=]"⟩ ∈ lex "[=[]=]=]" := by decide +kernel
  obtain ⟨before, after, hsource, hstart, hreaches⟩ := reach_of_lex "[=[]=]=]" _ hmem
  have hlength : before.length ≤ 0 := Nat.le_trans (length_le_byteLength before) (Nat.le_of_eq hstart)
  have hbefore : before = [] := List.length_eq_zero_iff.1 (Nat.le_zero.1 hlength)
  rw [hbefore] at hsource
  exact ⟨hmem, after, hsource, hreaches⟩

end LuaTree
