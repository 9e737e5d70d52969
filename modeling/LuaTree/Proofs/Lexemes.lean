import LuaTree.Proofs.Munch

/-!
# Proofs/Lexemes — where the tokens of a text can be cut

The **lexemes** of a text are its tokens without their places.  A rule that matches a letter matches the
characters of numbers and names alone, and one that matches a semicolon matches nothing else; so behind a
semicolon the lexemes begin anew whatever follows (`lexemes_seam`), and a name can be replaced by another
one without a change to the lexemes around it, if something before it keeps it apart from what stands there
(`lexemes_rename`).
-/

namespace LuaTree

/-! ## Classes of characters -/

/-- The characters of numbers and names. -/
def isNumberPart (c : Char) : Bool := isNamePart c || ['.', '+', '-'].contains c

theorem isNumberPart_of_isNamePart {c : Char} (h : isNamePart c = true) : isNumberPart c = true := by
  simp [isNumberPart, h]

theorem isNamePart_of_isDecimal {c : Char} (h : isDecimal c = true) : isNamePart c = true := by
  simp [isNamePart, h]

theorem isDecimal_of_isOctal {c : Char} (h : isOctal c = true) : isDecimal c = true := by
  simp only [isOctal, isDecimal, Bool.and_eq_true, decide_eq_true_eq] at *
  exact ⟨h.1, Std.le_trans h.2 (by decide)⟩

theorem isNamePart_of_isHex {c : Char} (h : isHex c = true) : isNamePart c = true := by
  simp only [isHex, Bool.or_eq_true, Bool.and_eq_true, decide_eq_true_eq] at h
  rcases h with (h | h) | h
  · exact isNamePart_of_isDecimal h
  · have hle : c ≤ 'z' := Std.le_trans h.2 (by decide)
    simp [isNamePart, isNameStart, h.1, hle]
  · have hle : c ≤ 'Z' := Std.le_trans h.2 (by decide)
    simp [isNamePart, isNameStart, h.1, hle]

theorem isNameStart_of_isDecimal {c : Char} (h : isDecimal c = true) : isNameStart c = false := by
  simp only [isDecimal, Bool.and_eq_true, decide_eq_true_eq] at h
  have hlt {d : Char} (hd : '9' < d) : ¬ d ≤ c := fun hle =>
    absurd (Std.lt_of_lt_of_le hd (Std.le_trans hle h.2)) (by decide)
  have hne : c ≠ '_' := by
    rintro rfl
    exact absurd h.2 (by decide)
  simp [isNameStart, hlt (d := 'a') (by decide), hlt (d := 'A') (by decide), hne]

/-- Along a text a class of characters is computed. -/
theorem forall_mem_of_all {f : Char → Prop} [DecidablePred f] {cs : List Char} (h : cs.all (f ·) = true) :
    ∀ c ∈ cs, f c := by
  simpa using h

/-! ## The characters of the rules -/

namespace Rule

open Pattern

/-- Numbers and names have characters of their own. -/
theorem within_unspelled : ∀ r ∈ unspelled, r.pattern.Within (isNumberPart · = true) ∨
    r.pattern.Within fun c => isNameStart c = false ∧ c ≠ ';' := by
  have hliteral {f : Char → Prop} [DecidablePred f] {cs : List Char} (h : cs.all (f ·) = true) :
      (literal cs).Within f := within_literal.2 (forall_mem_of_all h)
  have hdecimal : decimal.Within (isNumberPart · = true) := fun c hc =>
    isNumberPart_of_isNamePart (isNamePart_of_isDecimal hc)
  have hhex : hex.Within (isNumberPart · = true) := fun c hc =>
    isNumberPart_of_isNamePart (isNamePart_of_isHex hc)
  have hoctal : (char isOctal).Within (isNumberPart · = true) := fun c hc =>
    isNumberPart_of_isNamePart (isNamePart_of_isDecimal (isDecimal_of_isOctal hc))
  have hstart : (char isNameStart).Within (isNumberPart · = true) := fun c hc =>
    isNumberPart_of_isNamePart (by simp [isNamePart, hc])
  have hpart : (char isNamePart).Within (isNumberPart · = true) := fun c hc =>
    isNumberPart_of_isNamePart hc
  have hmark : hexMark.Within (isNumberPart · = true) :=
    ⟨hliteral (by decide), within_oneOf.2 (forall_mem_of_all (by decide))⟩
  have hexponent (letters : List Char) (h : ∀ c ∈ letters, isNumberPart c = true) :
      (exponent letters).Within (isNumberPart · = true) :=
    within_seqs.2 (by simpa [within_optional, within_many, within_oneOf, hdecimal] using ⟨h, by decide⟩)
  have hreal : real.Within (isNumberPart · = true) := by
    have hpoint : (literal ['.']).Within (isNumberPart · = true) := hliteral (by decide)
    have hdecimals : (star decimal).Within (isNumberPart · = true) := hdecimal
    have hhexs : (star hex).Within (isNumberPart · = true) := hhex
    have he := hexponent ['e', 'E'] (forall_mem_of_all (by decide))
    have hp := hexponent ['p', 'P'] (forall_mem_of_all (by decide))
    simp [real, within_anyOf, within_seqs, within_many, within_optional, hdecimal, hhex, hpoint, hdecimals,
      hhexs, he, hp, hmark]
  simp only [unspelled, List.forall_mem_cons, List.not_mem_nil, false_imp_iff, implies_true, and_true]
  refine ⟨.inl ⟨hliteral (by decide), within_many.2 hoctal⟩, .inl (within_many.2 hdecimal),
    .inl ⟨hmark, within_many.2 hhex⟩, .inl hreal, .inr (hliteral (by decide)),
    .inr (hliteral (by decide)), .inr (within_seqs.2 ?_), .inl ⟨hstart, hpart⟩,
    .inr (within_many.2 (within_oneOf.2 (forall_mem_of_all (by decide)))), .inr (within_anyOf.2 ?_),
    .inr (hliteral (by decide))⟩
  · simp [Within, within_literal]
    decide
  · simp [within_literal]
    decide

/-- Only names begin like names. -/
theorem begins_unspelled : ∀ r ∈ unspelled, (r.kind = .ident ∧ r.pattern.Within (isNamePart · = true)) ∨
    r.pattern.Begins (isNameStart · = false) := by
  have hdecimal : decimal.Begins (isNameStart · = false) := fun c hc => isNameStart_of_isDecimal hc
  have hletter : (char isNameStart).Within (isNamePart · = true) := fun c hc => by simp [isNamePart, hc]
  have hpart : (char isNamePart).Within (isNamePart · = true) := fun c hc => hc
  have hliteral {c : Char} {cs : List Char} (h : isNameStart c = false) :
      (literal (c :: cs)).Begins (isNameStart · = false) := by
    simp [literal, Begins, acceptsNil, h]
  have hmark : hexMark.Begins (isNameStart · = false) :=
    ⟨hliteral (by decide), fun h => absurd h (by decide)⟩
  have hreal : real.Begins (isNameStart · = false) := by
    simp only [real, anyOf, seqs, many, Begins, acceptsNil, literal, decimal, hexMark, Bool.false_and,
      Bool.false_eq_true, false_imp_iff, and_true, beq_iff_eq, forall_eq]
    exact ⟨hdecimal, by decide, hdecimal, by decide, by decide⟩
  simp only [unspelled, List.forall_mem_cons, List.not_mem_nil, false_imp_iff, implies_true, and_true]
  refine ⟨.inr ⟨hliteral (by decide), fun h => absurd h (by decide)⟩,
    .inr ⟨hdecimal, fun h => absurd h (by decide)⟩, .inr ⟨hmark, fun h => absurd h (by decide)⟩, .inr hreal,
    .inr (hliteral (by decide)), .inr (hliteral (by decide)),
    .inr ⟨hliteral (by decide), fun h => absurd h (by decide)⟩, .inl ⟨trivial, hletter, hpart⟩, .inr ?_, .inr ?_,
    .inr (hliteral (by decide))⟩
  · simp [many, oneOf, Begins, acceptsNil]
    decide
  · exact ⟨hliteral (by decide), hliteral (by decide), hliteral (by decide), trivial⟩

/-- The spelling of a keyword is a name; that of another mark has no letters, and a semicolon stands alone. -/
theorem spelling_cases : ∀ k ∈ Kind.spelled, (∀ c ∈ (k.spelling?.getD "").toList, isNamePart c = true) ∨
    ((∀ c ∈ (k.spelling?.getD "").toList, isNameStart c = false) ∧
      (';' ∈ (k.spelling?.getD "").toList → (k.spelling?.getD "").toList = [';'])) := by
  have hmarks : ∀ k ∈ Kind.spelled, (k.spelling?.getD "").toList.all isNamePart = true ∨
      ((k.spelling?.getD "").toList.all (isNameStart · = false) = true ∧
        (';' ∈ (k.spelling?.getD "").toList → (k.spelling?.getD "").toList = [';'])) := by
    decide +kernel
  exact fun k hk => (hmarks k hk).imp List.all_eq_true.1 fun h => ⟨forall_mem_of_all h.1, h.2⟩

variable {r : Rule} {s : List Char}

/-- A semicolon is matched alone. -/
theorem eq_semicolon (hr : r ∈ all) (h : r.pattern.Matches s) (hs : ';' ∈ s) : s = [';'] := by
  rcases List.mem_append.1 hr with hr | hr
  · obtain ⟨k, hk, rfl⟩ := List.mem_map.1 hr
    obtain rfl := Token.matches_literal_iff.1 h
    rcases spelling_cases k hk with hname | ⟨-, halone⟩
    · exact absurd (hname _ hs) (by decide)
    · exact halone hs
  · rcases within_unspelled r hr with hwithin | hwithin
    · exact absurd (h.within hwithin _ hs) (by decide)
    · exact absurd rfl (h.within hwithin _ hs).2

/-- With a letter only the characters of numbers and names are matched. -/
theorem isNumberPart_of_matches (hr : r ∈ all) (h : r.pattern.Matches s) {c : Char} (hc : c ∈ s)
    (hstart : isNameStart c = true) : ∀ d ∈ s, isNumberPart d = true := by
  rcases List.mem_append.1 hr with hr | hr
  · obtain ⟨k, hk, rfl⟩ := List.mem_map.1 hr
    obtain rfl := Token.matches_literal_iff.1 h
    rcases spelling_cases k hk with hname | ⟨hnone, -⟩
    · exact fun d hd => isNumberPart_of_isNamePart (hname d hd)
    · exact absurd (hnone c hc) (by simp [hstart])
  · rcases within_unspelled r hr with hwithin | hwithin
    · exact h.within hwithin
    · exact absurd (h.within hwithin c hc).1 (by simp [hstart])

/-- Behind a first letter only names go on. -/
theorem isNamePart_of_matches {c : Char} (hr : r ∈ all) (h : r.pattern.Matches (c :: s))
    (hstart : isNameStart c = true) : ∀ d ∈ c :: s, isNamePart d = true := by
  rcases List.mem_append.1 hr with hr | hr
  · obtain ⟨k, hk, rfl⟩ := List.mem_map.1 hr
    have hspelling := Token.matches_literal_iff.1 h
    rcases spelling_cases k hk with hname | ⟨hnone, -⟩
    · rwa [← hspelling] at hname
    · exact absurd (hnone c (hspelling ▸ List.mem_cons_self)) (by simp [hstart])
  · rcases begins_unspelled r hr with ⟨-, hwithin⟩ | hbegins
    · exact h.within hwithin
    · exact absurd (h.begins hbegins c rfl) (by simp [hstart])

end Rule

namespace Token

variable {w u v cs : List Char} {k : Kind} {l : Kind × String} {ls : List (Kind × String)}

/-! ## Tokens without their places -/

/-- The kinds and texts of the tokens of a text. -/
def lexemes (cs : List Char) : List (Kind × String) := (lexFrom 0 0 cs).map leaf

theorem map_leaf_lexFrom (cs : List Char) : ∀ offset offset' skip : Nat,
    (lexFrom offset skip cs).map leaf = (lexFrom offset' skip cs).map leaf := by
  induction cs with
  | nil => exact fun _ _ _ => rfl
  | cons c cs ih =>
    rintro offset offset' (_ | skip)
    · exact congrArg (_ :: ·) (ih _ _ _)
    · exact ih _ _ _

theorem lexFrom_skip (cs : List Char) : ∀ (w : List Char) (offset : Nat),
    lexFrom offset w.length (w ++ cs) = lexFrom (offset + byteLength w) 0 cs
  | [], _ => rfl
  | c :: w, offset => by
    rw [List.cons_append, List.length_cons, lexFrom, lexFrom_skip cs w, byteLength_cons, Nat.add_assoc]

/-- **Behind the head of a text stand the lexemes of the rest.** -/
theorem lexemes_append (hw : w ≠ []) (h : head (w ++ u) = (k, w.length)) :
    lexemes (w ++ u) = (k, String.ofList w) :: lexemes u := by
  obtain ⟨c, w, rfl⟩ := List.exists_cons_of_ne_nil hw
  have htake : (c :: (w ++ u)).take (c :: w).length = c :: w := List.take_left
  rw [lexemes, List.cons_append, lexFrom_cons, ← List.cons_append, h]
  dsimp only
  rw [List.cons_append, htake, List.length_cons, Nat.add_sub_cancel, lexFrom_skip, List.map_cons,
    map_leaf_lexFrom u _ 0]
  rfl

/-- The first lexeme of a text is its head. -/
theorem exists_of_lexemes_cons (h : lexemes cs = l :: ls) : ∃ u, cs = l.2.toList ++ u ∧ l.2.toList ≠ [] ∧
    head (l.2.toList ++ u) = (l.1, l.2.toList.length) ∧ lexemes u = ls := by
  cases cs with
  | nil => cases h
  | cons c cs =>
    obtain ⟨hpos, hle⟩ := head_bounds c cs
    generalize hhead : head (c :: cs) = m at hpos hle
    have hw : (c :: cs).take m.2 ≠ [] := by simpa using Nat.ne_of_gt hpos
    have hsplit : head ((c :: cs).take m.2 ++ (c :: cs).drop m.2) = (m.1, ((c :: cs).take m.2).length) := by
      rw [List.take_append_drop, List.length_take_of_le hle, hhead]
    have hlexemes := lexemes_append hw hsplit
    rw [List.take_append_drop, h] at hlexemes
    obtain ⟨rfl, rfl⟩ := List.cons.inj hlexemes
    dsimp only
    rw [String.toList_ofList]
    exact ⟨(c :: cs).drop m.2, (List.take_append_drop ..).symm, hw, hsplit, rfl⟩

theorem lexemes_eq_nil (h : lexemes cs = []) : cs = [] := by
  cases cs with
  | nil => rfl
  | cons c cs => simp [lexemes, lexFrom_cons] at h

/-- The lexemes of a text make up the text. -/
theorem textOfLeaves_lexemes (h : lexemes cs = ls) : (Tree.textOfLeaves ls).toList = cs := by
  induction ls generalizing cs with
  | nil => rw [lexemes_eq_nil h]; rfl
  | cons l ls ih =>
    obtain ⟨u, rfl, -, -, hu⟩ := exists_of_lexemes_cons h
    rw [Tree.textOfLeaves, String.toList_append, ih hu]

theorem mem_textOfLeaves {c : Char} (hl : l ∈ ls) (hc : c ∈ l.2.toList) :
    c ∈ (Tree.textOfLeaves ls).toList := by
  induction ls with
  | nil => cases hl
  | cons m ls ih =>
    rw [Tree.textOfLeaves, String.toList_append, List.mem_append]
    rcases List.mem_cons.1 hl with rfl | hl
    · exact .inl hc
    · exact .inr (ih hl)

/-! ## What the text of a token says -/

/-- Where nothing goes on from an opening mark, the text of a token is what a rule of its kind matches. -/
theorem exists_rule_of_head (h : head (w ++ u) = (k, w.length)) (hk : k ∉ [.invalidChar,
    .singleQuotedString, .doubleQuotedString, .longString, .lineComment, .blockComment]) :
    ∃ r ∈ Rule.all, r.kind = k ∧ r.pattern.Matches w := by
  simp only [List.mem_cons, List.not_mem_nil, or_false, not_or] at hk
  rcases head_cases (w ++ u) with hhead | ⟨r, hr, n, hn, hhead⟩
  · rw [h] at hhead
    exact absurd (Prod.mk.inj hhead).1 hk.1
  rw [h] at hhead
  have hkind := congrArg Prod.fst hhead
  rw [kind_complete] at hkind
  split at hkind
  · split at hkind
    · exact absurd hkind hk.2.2.2.2.2
    · exact absurd hkind hk.2.2.2.2.1
  subst hkind
  have hcomplete : complete r.kind n ((w ++ u).drop n) = (r.kind, n) := by
    unfold complete
    split <;> simp_all
  rw [hcomplete] at hhead
  obtain ⟨-, rfl⟩ := Prod.mk.inj hhead
  have hmatches := (Pattern.matches_of_longest? hn).2
  rw [List.take_left] at hmatches
  exact ⟨r, hr, rfl, hmatches⟩

/-- A keyword or mark is spelled in one way. -/
theorem eq_spelling_of_head (hk : k ∈ Kind.spelled) (h : head (w ++ u) = (k, w.length)) :
    w = (k.spelling?.getD "").toList := by
  have hspelled : ∀ k ∈ Kind.spelled, k ∉ [.invalidChar, .singleQuotedString, .doubleQuotedString,
      .longString, .lineComment, .blockComment] ∧ ∀ r ∈ Rule.unspelled, r.kind ≠ k := by
    decide +kernel
  obtain ⟨r, hr, rfl, hmatches⟩ := exists_rule_of_head h (hspelled k hk).1
  rcases List.mem_append.1 hr with hr | hr
  · obtain ⟨k, -, rfl⟩ := List.mem_map.1 hr
    exact matches_literal_iff.1 hmatches
  · exact absurd rfl ((hspelled _ hk).2 r hr)

/-! ## Behind a semicolon -/

theorem eq_semicolon_of_head (h : head (w ++ u) = (.semicolon, w.length)) : w = [';'] :=
  eq_spelling_of_head (Kind.mem_spelled.2 rfl) h

/-- **Behind a semicolon the lexemes begin anew**, whatever stood before it. -/
theorem lexemes_seam (hlast : (lexemes cs).getLast?.map Prod.fst = some .semicolon) (v : List Char) :
    ';' ∈ cs ∧ lexemes (cs ++ v) = lexemes cs ++ lexemes v := by
  generalize hls : lexemes cs = ls at hlast ⊢
  induction ls generalizing cs with
  | nil => cases hlast
  | cons l ls ih =>
    obtain ⟨u, rfl, hw, hhead, hu⟩ := exists_of_lexemes_cons hls
    cases ls with
    | nil =>
      obtain rfl := lexemes_eq_nil hu
      obtain ⟨k, text⟩ := l
      obtain rfl : k = .semicolon := by simpa using hlast
      have htext := eq_semicolon_of_head hhead
      dsimp only at htext hhead hw ⊢
      have hstops : Stops text.toList v := fun r hr y _ hmatches => by
        have hone := Rule.eq_semicolon hr hmatches (by simp [htext])
        rw [htext] at hone
        exact (List.cons.inj hone).2
      have hhead := head_append hhead hstops (.inr (.inr ⟨by decide, fun _ => by decide⟩))
      rw [List.append_nil, lexemes_append hw hhead, String.ofList_toList]
      exact ⟨by simp [htext], rfl⟩
    | cons m ms =>
      rw [List.getLast?_cons_cons] at hlast
      obtain ⟨hmem, hlexemes⟩ := ih hu hlast
      obtain ⟨c, u', rfl⟩ := List.exists_cons_of_ne_nil (List.ne_nil_of_mem hmem)
      have hstops : Stops l.2.toList (c :: u' ++ v) := fun r hr y hy hmatches => by
        rcases List.prefix_or_prefix_of_prefix hy (List.prefix_append (c :: u') v) with hy | ⟨z, rfl⟩
        · exact stops_of_head hhead r hr y hy hmatches
        -- a match that reaches over the semicolon would be the semicolon alone
        · have hmem' : ';' ∈ l.2.toList ++ (c :: u' ++ z) :=
            List.mem_append_right _ (List.mem_append_left _ hmem)
          have hone := congrArg List.length (Rule.eq_semicolon hr hmatches hmem')
          have hpos := List.length_pos_iff.2 hw
          simp only [List.length_append, List.length_cons, List.length_nil] at hone
          omega
      have hhead := head_append hhead hstops (.inr (.inl ⟨c, u', u' ++ v, rfl, rfl⟩))
      rw [List.append_assoc, lexemes_append hw hhead, hlexemes, String.ofList_toList]
      exact ⟨List.mem_append_right _ hmem, rfl⟩

/-! ## Another name -/

variable {name : List Char}

/-- **What can stand as a name**: the lexical rules make one name of it. -/
def IsName (name : List Char) : Prop := ∃ u, head (name ++ u) = (.ident, name.length)

theorem matches_name_iff : (Pattern.seq (.char isNameStart) (.star (.char isNamePart))).Matches w ↔
    ∃ c s, w = c :: s ∧ isNameStart c = true ∧ ∀ d ∈ s, isNamePart d = true := by
  simp only [Pattern.matches_seq_iff, Pattern.matches_star_char_iff]
  constructor
  · rintro ⟨t, s, rfl, ht, hs⟩
    cases ht with
    | char hc => exact ⟨_, s, rfl, hc, hs⟩
  · rintro ⟨c, s, rfl, hc, hs⟩
    exact ⟨[c], s, rfl, .char hc, hs⟩

theorem rule_of_ident : ∃ r ∈ Rule.all, r.pattern = .seq (.char isNameStart) (.star (.char isNamePart)) :=
  ⟨⟨.ident, _⟩, List.mem_append_right _ (by simp [Rule.unspelled]), rfl⟩

/-- A name is a letter and what goes on with it. -/
theorem IsName.chars (h : IsName name) :
    ∃ c s, name = c :: s ∧ isNameStart c = true ∧ ∀ d ∈ s, isNamePart d = true := by
  obtain ⟨u, hu⟩ := h
  obtain ⟨r, hr, hkind, hmatches⟩ := exists_rule_of_head hu (by decide)
  have hpattern : r.pattern = .seq (.char isNameStart) (.star (.char isNamePart)) := by
    rcases List.mem_append.1 hr with hr | hr
    · obtain ⟨k, hk, rfl⟩ := List.mem_map.1 hr
      exact absurd (Kind.mem_spelled.1 (hkind ▸ hk : Kind.ident ∈ Kind.spelled)) (by decide)
    · have hident : ∀ r ∈ Rule.unspelled, r.kind = .ident →
          r.pattern = .seq (.char isNameStart) (.star (.char isNamePart)) := by
        simp [Rule.unspelled]
      exact hident r hr hkind
  exact matches_name_iff.1 (hpattern ▸ hmatches)

/-- What is spelled like a name is matched as far as it goes. -/
theorem not_stops_of_name {c d : Char} {s y : List Char} (hc : isNameStart c = true)
    (hs : ∀ e ∈ s, isNamePart e = true) (hd : isNamePart d = true) : ¬ Stops (c :: s) (d :: y) := by
  intro hstops
  obtain ⟨r, hr, hpattern⟩ := rule_of_ident
  have hmatches : r.pattern.Matches (c :: s ++ [d]) := by
    rw [hpattern, matches_name_iff]
    exact ⟨c, s ++ [d], rfl, hc, by simpa [or_imp, forall_and] using ⟨hs, hd⟩⟩
  exact absurd (hstops r hr [d] ⟨y, rfl⟩ hmatches) (by simp)

/-- **Where one name ends, another one would end.** -/
theorem head_of_name {old : List Char} (hname : IsName name) (h : head (old ++ u) = (.ident, old.length)) :
    head (name ++ u) = (.ident, name.length) := by
  obtain ⟨v, hv⟩ := hname
  obtain ⟨c, s, rfl, hc, hs⟩ := IsName.chars ⟨v, hv⟩
  obtain ⟨c', s', rfl, hc', hs'⟩ := IsName.chars ⟨u, h⟩
  refine head_append hv (fun r hr y hy hmatches => ?_) (.inr (.inr ⟨by decide, fun _ => by decide⟩))
  cases y with
  | nil => rfl
  | cons d y =>
    obtain ⟨z, rfl⟩ := hy
    have hd := Rule.isNamePart_of_matches hr hmatches hc d (by simp)
    exact absurd (stops_of_head h) (not_stops_of_name hc' hs' hd)

/-- **What keeps a name apart from what stands before it.** -/
structure Apart (l : Kind × String) : Prop where
  mark : ∃ c ∈ l.2.toList, isNumberPart c = false
  kind : l.1 ∉ [.singleQuotedString, .doubleQuotedString, .lineComment]

/-- The kinds of tokens that a name is declared behind. -/
def beforeName : List Kind :=
  [.whitespace, .newline, .lineComment, .blockComment, .invalidChar, .comma, .parenOpen, .kwLocal, .kwFor,
    .kwFunction]

theorem isNumberPart_of_unknown {c : Char} (h : head (c :: u) = (.invalidChar, 1)) :
    isNumberPart c = false := by
  refine Bool.eq_false_iff.2 fun hc => ?_
  have hkind : (head (c :: u)).1 = .invalidChar := by rw [h]
  have hprefix : [c] <+: c :: u := ⟨u, rfl⟩
  have hrule {r : Rule} (hr : r ∈ Rule.unspelled) : ¬ r.pattern.Matches [c] :=
    not_matches_of_unknown hkind (List.mem_append_right _ hr) hprefix
  have hmark {k : Kind} (hk : k ∈ Kind.spelled) (hspelling : (k.spelling?.getD "").toList = [c]) : False :=
    not_matches_of_unknown hkind (List.mem_append_left _ (List.mem_map_of_mem hk)) hprefix
      (matches_literal_iff.2 hspelling.symm)
  simp only [isNumberPart, isNamePart, Bool.or_eq_true, List.contains_eq_mem, List.mem_cons, List.not_mem_nil,
    or_false, decide_eq_true_eq] at hc
  rcases hc with (hc | hc) | rfl | rfl | rfl
  · exact hrule (r := ⟨.ident, _⟩) (by simp [Rule.unspelled]) (matches_name_iff.2 ⟨c, [], rfl, hc, by simp⟩)
  · refine hrule (r := ⟨.decInt, .many Rule.decimal⟩) (by simp [Rule.unspelled]) ?_
    exact .seq (s := [c]) (.char hc) .starNil
  · exact hmark (k := .dot) (Kind.mem_spelled.2 rfl) rfl
  · exact hmark (k := .plus) (Kind.mem_spelled.2 rfl) rfl
  · exact hmark (k := .minus) (Kind.mem_spelled.2 rfl) rfl

/-- A line comment reaches to the end of its line. -/
theorem break_of_head {c : Char} (h : head (w ++ c :: u) = (.lineComment, w.length)) : c = '\n' ∨ c = '\r' := by
  rcases head_cases (w ++ c :: u) with hhead | ⟨r, hr, n, -, hhead⟩
  · simp [h] at hhead
  rw [h] at hhead
  have hkind := congrArg Prod.fst hhead
  rw [kind_complete] at hkind
  split at hkind
  case isFalse => exact absurd hkind.symm (isToken_of_mem_rules r hr).2.2.1
  rename_i hcomment
  have hn := (complete_bounds r.kind n ((w ++ c :: u).drop n)).1
  rw [← hhead] at hn
  rw [hcomment, complete, List.drop_append_of_le_length hn, comment] at hhead
  split at hhead
  · simp at hhead
  have hlength := (Prod.mk.inj hhead).2
  have hline : ((w.drop n ++ c :: u).takeWhile fun c => c != '\n' && c != '\r').length =
      (w.drop n).length := by
    rw [List.length_drop]
    exact Nat.eq_sub_of_add_eq' hlength.symm
  have hbehind := (of_length_takeWhile hline).2 c rfl
  exact (Bool.and_eq_false_iff.1 hbehind).imp (by simpa using ·) (by simpa using ·)

/-- What a name is declared behind keeps it apart from what stands before. -/
theorem apart_of_head {c : Char} {u : List Char} (hw : w ≠ []) (h : head (w ++ c :: u) = (k, w.length))
    (hk : k ∈ beforeName) (hc : isNameStart c = true) : Apart (k, String.ofList w) := by
  have hpart : isNamePart c = true := by simp [isNamePart, hc]
  have hblank (hk : k = .whitespace ∨ k = .newline) : ∀ d ∈ w, isNumberPart d = false := by
    obtain ⟨r, hr, rfl, hmatches⟩ := exists_rule_of_head h (by rcases hk with rfl | rfl <;> decide)
    rcases List.mem_append.1 hr with hr | hr
    · obtain ⟨k, hk', rfl⟩ := List.mem_map.1 hr
      rcases hk with rfl | rfl
      · exact absurd (Kind.mem_spelled.1 hk') (by decide)
      · exact absurd (Kind.mem_spelled.1 hk') (by decide)
    · have hwithin : ∀ r ∈ Rule.unspelled, r.kind = .whitespace ∨ r.kind = .newline →
          r.pattern.Within (isNumberPart · = false) := by
        simp [Rule.unspelled, Pattern.within_many, Pattern.within_oneOf, Pattern.within_anyOf,
          Pattern.within_literal]
        decide
      exact hmatches.within (hwithin r hr hk)
  -- a keyword would be a part of the name
  have hkeyword {d : Char} {s : List Char} (hk : k ∈ Kind.spelled)
      (hspelling : (k.spelling?.getD "").toList = d :: s) (hd : isNameStart d = true)
      (hs : ∀ e ∈ s, isNamePart e = true) : False := by
    obtain rfl := (eq_spelling_of_head hk h).trans hspelling
    exact not_stops_of_name hd hs hpart (stops_of_head h)
  have hfirst {d : Char} (hd : d ∈ w) (hmark : isNumberPart d = false)
      (hkind : k ∉ [.singleQuotedString, .doubleQuotedString, .lineComment]) : Apart (k, String.ofList w) :=
    ⟨⟨d, by rwa [String.toList_ofList], hmark⟩, hkind⟩
  have hmem : ∃ d, d ∈ w := List.exists_mem_of_ne_nil w hw
  simp only [beforeName, List.mem_cons, List.not_mem_nil, or_false] at hk
  rcases hk with rfl | rfl | rfl | rfl | rfl | rfl | rfl | rfl | rfl | rfl
  · obtain ⟨d, hd⟩ := hmem
    exact hfirst hd (hblank (.inl rfl) d hd) (by decide)
  · obtain ⟨d, hd⟩ := hmem
    exact hfirst hd (hblank (.inr rfl) d hd) (by decide)
  · rcases break_of_head h with rfl | rfl <;> exact absurd hc (by decide)
  · obtain ⟨ds, hds⟩ := bracket_of_head (congrArg Prod.fst h)
    rw [h, List.take_left] at hds
    exact hfirst (d := '[') (by simp [hds]) (by decide) (by decide)
  · have hone := congrArg Prod.snd (head_of_invalidChar (congrArg Prod.fst h))
    rw [h] at hone
    obtain ⟨d, rfl⟩ := List.length_eq_one_iff.1 hone
    exact hfirst (List.mem_singleton_self d) (isNumberPart_of_unknown h) (by decide)
  · have hspelling := eq_spelling_of_head (Kind.mem_spelled.2 rfl) h
    exact hfirst (d := ',') (by simp [hspelling, Kind.spelling?]) (by decide) (by decide)
  · have hspelling := eq_spelling_of_head (Kind.mem_spelled.2 rfl) h
    exact hfirst (d := '(') (by simp [hspelling, Kind.spelling?]) (by decide) (by decide)
  · exact (hkeyword (Kind.mem_spelled.2 rfl) rfl (by decide) (forall_mem_of_all (by decide))).elim
  · exact (hkeyword (Kind.mem_spelled.2 rfl) rfl (by decide) (forall_mem_of_all (by decide))).elim
  · exact (hkeyword (Kind.mem_spelled.2 rfl) rfl (by decide) (forall_mem_of_all (by decide))).elim

/-- What stands before a name of a source keeps it apart. -/
theorem apart_of_lexemes {text : String} {R : List (Kind × String)} : ∀ {L : List (Kind × String)}
    {cs : List Char}, lexemes cs = L ++ (.ident, text) :: R → (∀ l ∈ L.getLast?, l.1 ∈ beforeName) →
    ∀ l ∈ L.getLast?, Apart l
  | [], _, _, _, _, hl => nomatch hl
  | [l], cs, h, hlast, _, rfl => by
    obtain ⟨u, rfl, hw, hhead, hu⟩ := exists_of_lexemes_cons h
    obtain ⟨v, rfl, -, hhead', -⟩ := exists_of_lexemes_cons hu
    obtain ⟨c, s, hc, hstart, -⟩ := IsName.chars ⟨v, hhead'⟩
    dsimp only at hc hhead
    rw [hc] at hhead
    have happart := apart_of_head hw hhead (hlast l rfl) hstart
    rwa [String.ofList_toList] at happart
  | l :: m :: L, cs, h, hlast, k, hk => by
    obtain ⟨u, -, -, -, hu⟩ := exists_of_lexemes_cons h
    rw [List.getLast?_cons_cons] at hlast hk
    exact apart_of_lexemes hu hlast k hk

/-- No rule reaches into a name that something stands before which no letter matches together with. -/
theorem Stops.rename {new v v' : List Char} (h : Stops w (u ++ v)) (hnew : IsName new)
    (hmark : ∃ d ∈ w ++ u, isNumberPart d = false) : Stops w (u ++ (new ++ v')) := by
  obtain ⟨c, s, rfl, hstart, -⟩ := hnew.chars
  intro r hr y hy hmatches
  have hbefore (hy : y <+: u) : y = [] := h r hr y (hy.trans (List.prefix_append ..)) hmatches
  rcases List.prefix_or_prefix_of_prefix hy (List.prefix_append ..) with hy | ⟨z, rfl⟩
  · exact hbefore hy
  cases z with
  | nil => exact hbefore (by simp)
  | cons e z =>
    -- a match that goes on into the name has its first letter, so it has letters only
    rw [List.prefix_append_right_inj, List.cons_append] at hy
    obtain rfl : e = c := (List.cons_prefix_cons.1 hy).1
    obtain ⟨d, hd, hmark⟩ := hmark
    have hmem : d ∈ w ++ (u ++ e :: z) := by
      rw [← List.append_assoc]
      exact List.mem_append_left _ hd
    simp [Rule.isNumberPart_of_matches hr hmatches (by simp) hstart d hmem] at hmark

/-- A token resumes in front of a name as it did before the name was another one. -/
theorem resumes_rename {k : Kind} {old : String} {L R : List (Kind × String)} {cs : List Char}
    (new : String) (h : lexemes cs = L ++ (.ident, old) :: R)
    (hk : L = [] → k ∉ [.singleQuotedString, .doubleQuotedString, .lineComment]) :
    Resumes k (Tree.textOfLeaves (L ++ (.ident, old) :: R)).toList
      (Tree.textOfLeaves (L ++ (.ident, new) :: R)).toList := by
  cases L with
  | nil =>
    obtain ⟨_, -, hold, -⟩ := exists_of_lexemes_cons h
    refine .inr (.inr ⟨hk rfl, fun hnil => absurd hnil ?_⟩)
    simp [Tree.textOfLeaves, String.toList_append, hold]
  | cons m L =>
    obtain ⟨_, -, hm, -⟩ := exists_of_lexemes_cons h
    obtain ⟨d, ds, hd⟩ := List.exists_cons_of_ne_nil hm
    simp only [List.cons_append, Tree.textOfLeaves, String.toList_append, hd]
    exact .inr (.inl ⟨d, _, _, rfl, rfl⟩)

/-- **After a name has got another name the tokens are the same** but for that name, if it was kept apart from
what stands before it. -/
theorem lexemes_rename {old new : String} (hnew : IsName new.toList) {R : List (Kind × String)} :
    ∀ {L : List (Kind × String)} {cs : List Char}, lexemes cs = L ++ (.ident, old) :: R →
    (∀ l ∈ L.getLast?, Apart l) →
    lexemes (Tree.textOfLeaves (L ++ (.ident, new) :: R)).toList = L ++ (.ident, new) :: R
  | [], cs, h, _ => by
    obtain ⟨u, rfl, -, hhead, hu⟩ := exists_of_lexemes_cons h
    obtain ⟨c, s, hc, -⟩ := hnew.chars
    rw [List.nil_append, Tree.textOfLeaves, String.toList_append, textOfLeaves_lexemes hu,
      lexemes_append (by simp [hc]) (head_of_name hnew hhead), String.ofList_toList, hu]
  | l :: L, cs, h, hlast => by
    obtain ⟨u, rfl, hw, hhead, hu⟩ := exists_of_lexemes_cons h
    have ih := lexemes_rename hnew hu fun m hm => hlast m (by
      rw [List.getLast?_cons, Option.mem_def.1 hm]
      rfl)
    have htext (name : String) : (Tree.textOfLeaves (L ++ (.ident, name) :: R)).toList =
        (Tree.textOfLeaves L).toList ++ (name.toList ++ (Tree.textOfLeaves R).toList) := by
      rw [Tree.textOfLeaves_append, Tree.textOfLeaves, String.toList_append, String.toList_append]
    obtain rfl := textOfLeaves_lexemes hu
    have hmark : ∃ d ∈ l.2.toList ++ (Tree.textOfLeaves L).toList, isNumberPart d = false := by
      obtain ⟨k, hk⟩ : ∃ k, (l :: L).getLast? = some k := ⟨_, List.getLast?_cons⟩
      obtain ⟨d, hd, hmark⟩ := (hlast k hk).mark
      rw [← String.toList_append]
      exact ⟨d, mem_textOfLeaves (List.mem_of_getLast? hk) hd, hmark⟩
    have hstops : Stops l.2.toList (Tree.textOfLeaves (L ++ (.ident, new) :: R)).toList := by
      rw [htext]
      exact (htext old ▸ stops_of_head hhead).rename hnew hmark
    have hresumes := resumes_rename (k := l.1) new hu fun hL => (hlast l (by rw [hL]; rfl)).kind
    have hhead := head_append hhead hstops hresumes
    rw [List.cons_append, Tree.textOfLeaves, String.toList_append, lexemes_append hw hhead, ih,
      String.ofList_toList]

end Token

end LuaTree
