import LuaTree.Proofs.Lexing

/-!
# Proofs/Extent — how far a token reaches

A rule never matches the empty text, and what goes on from an opening mark — a string, a comment — counts
characters that are there.  So the head of a text is at least one character long and ends within the
text (`head_bounds`), and each token stands between two parts of its source as the head of what begins
with it (`exists_place_of_mem`).  All that the tokens of a source owe to their readers is in
`lex_partitions`.
-/

namespace LuaTree

namespace LongBracket

theorem lengthThrough_le (mark : List Char) (cs : List Char) : lengthThrough mark cs ≤ cs.length := by
  induction cs with
  | nil => exact Nat.le_refl 0
  | cons c cs ih =>
    rw [lengthThrough]
    split
    · rename_i h
      exact (List.isPrefixOf_iff_prefix.1 h).length_le
    · rw [List.length_cons]
      exact Nat.succ_le_succ ih

end LongBracket

namespace Token

/-! ## What follows an opening mark -/

theorem quotedLength_le (quote : Char) (cs : List Char) : quotedLength quote cs ≤ cs.length := by
  fun_induction quotedLength quote cs <;> simp only [List.length_cons, List.length_nil] <;> omega

theorem comment_le (cs : List Char) : (comment cs).2 ≤ cs.length := by
  unfold comment
  split
  · rename_i level h
    obtain ⟨ds, rfl⟩ := LongBracket.level?_eq_some_iff.1 h
    have hdrop : (LongBracket.opener level ++ ds).drop (level + 2) = ds :=
      List.drop_left' (LongBracket.length_opener level)
    have hle := LongBracket.lengthThrough_le (LongBracket.closer level) ds
    rw [hdrop, List.length_append, LongBracket.length_opener]
    omega
  · exact (List.takeWhile_prefix _).length_le

theorem complete_bounds (kind : Kind) (n : Nat) (rest : List Char) :
    n ≤ (complete kind n rest).2 ∧ (complete kind n rest).2 ≤ n + rest.length := by
  have hquoted (quote : Char) := quotedLength_le quote rest
  unfold complete
  split
  · exact ⟨Nat.le_add_right .., Nat.add_le_add_left (hquoted _) n⟩
  · exact ⟨Nat.le_add_right .., Nat.add_le_add_left (hquoted _) n⟩
  · exact ⟨Nat.le_add_right .., Nat.add_le_add_left (LongBracket.lengthThrough_le _ rest) n⟩
  · exact ⟨Nat.le_add_right .., Nat.add_le_add_left (comment_le rest) n⟩
  · exact ⟨Nat.le_refl n, Nat.le_add_right ..⟩

/-! ## The head of a text -/

/-- No rule matches the empty text. -/
theorem not_acceptsNil_of_mem_rules : ∀ r ∈ Rule.all, r.pattern.acceptsNil = false := by
  decide +kernel

theorem pos_of_mem_rules {r : Rule} (hr : r ∈ Rule.all) {cs : List Char} {n : Nat}
    (h : r.pattern.longest? cs = some n) : 0 < n := by
  refine Nat.pos_of_ne_zero ?_
  rintro rfl
  have hnil := Pattern.acceptsNil_iff.2 (Pattern.matches_of_longest? h).2
  rw [not_acceptsNil_of_mem_rules r hr] at hnil
  cases hnil

/-- **The head of a text has a character and ends within the text.** -/
theorem head_bounds (c : Char) (cs : List Char) :
    0 < (head (c :: cs)).2 ∧ (head (c :: cs)).2 ≤ (c :: cs).length := by
  rcases head_cases (c :: cs) with h | ⟨r, hr, n, hn, h⟩
  · rw [h, List.length_cons]
    exact ⟨Nat.one_pos, Nat.le_add_left ..⟩
  · rw [h]
    obtain ⟨hge, hle⟩ := complete_bounds r.kind n ((c :: cs).drop n)
    have hn' := (Pattern.matches_of_longest? hn).1
    rw [List.length_drop, Nat.add_sub_cancel' hn'] at hle
    exact ⟨Nat.lt_of_lt_of_le (pos_of_mem_rules hr hn) hge, hle⟩

/-- The kind of a comment is known when it is complete; all other kinds are those of the rules. -/
theorem kind_complete (kind : Kind) (n : Nat) (rest : List Char) : (complete kind n rest).1 =
    if kind = .comment then
      if (LongBracket.level? rest).isSome then .blockComment else .lineComment
    else kind := by
  have hcomment : (comment rest).1 =
      if (LongBracket.level? rest).isSome then .blockComment else .lineComment := by
    rw [comment]
    split <;> simp [*]
  unfold complete
  split
  · rfl
  · rfl
  · rfl
  · exact hcomment
  · rename_i h
    exact (if_neg h).symm

theorem complete_ne_comment (kind : Kind) (n : Nat) (rest : List Char) : (complete kind n rest).1 ≠ .comment := by
  rw [kind_complete]
  split
  · split <;> simp
  · assumption

/-- The head of a text is never the opener of a comment alone. -/
theorem head_ne_comment (cs : List Char) : (head cs).1 ≠ .comment := by
  rcases head_cases cs with h | ⟨r, -, n, -, h⟩
  · simp [h]
  · rw [h]
    exact complete_ne_comment _ _ _

/-- An unknown character stands alone. -/
theorem head_of_invalidChar {cs : List Char} (h : (head cs).1 = .invalidChar) : head cs = (.invalidChar, 1) := by
  rcases head_cases cs with hhead | ⟨r, hr, n, -, hhead⟩
  · exact hhead
  · rw [hhead, kind_complete] at h
    split at h
    · split at h <;> simp at h
    · exact absurd h (isToken_of_mem_rules r hr).2.2.2

/-- A comment begins with two dashes, and a bracket opens behind them if it is a block. -/
theorem bracket_of_head {cs : List Char} (h : (head cs).1 = .blockComment) :
    ∃ ds, cs.take (head cs).2 = '-' :: '-' :: '[' :: ds := by
  rcases head_cases cs with hhead | ⟨r, hr, n, hn, hhead⟩
  · simp [hhead] at h
  have hcomment : r.kind = .comment :=
    eq_comment_of_complete (isToken_of_mem_rules r hr).2.1 (hhead ▸ h)
  obtain ⟨hle, hmatches⟩ := Pattern.matches_of_longest? hn
  rw [eq_of_mem_rules hr hcomment, matches_literal_iff] at hmatches
  obtain rfl : n = 2 := by simpa [List.length_take_of_le hle] using congrArg List.length hmatches
  have hcs : cs = '-' :: '-' :: cs.drop 2 := by
    conv => lhs; rw [← List.take_append_drop 2 cs, hmatches]
    rfl
  cases hlevel : LongBracket.level? (cs.drop 2) with
  | none => simp [hhead, kind_complete, hcomment, hlevel] at h
  | some level =>
    obtain ⟨ds, hds⟩ := LongBracket.level?_eq_some_iff.1 hlevel
    obtain ⟨m, hm⟩ : ∃ m, (head cs).2 = m + 3 := by
      rw [hhead, hcomment, complete, comment, hlevel]
      exact ⟨level + 1 + LongBracket.lengthThrough (LongBracket.closer level)
        ((cs.drop 2).drop (level + 2)), by dsimp only; omega⟩
    rw [hm, hcs, hds]
    exact ⟨_, rfl⟩

/-! ## Where a token stands -/

/-- The first token of a text is its head. -/
theorem lexFrom_cons (offset : Nat) (c : Char) (cs : List Char) : lexFrom offset 0 (c :: cs) =
    ⟨(head (c :: cs)).1, offset, String.ofList ((c :: cs).take (head (c :: cs)).2)⟩ ::
      lexFrom (offset + c.utf8Size) ((head (c :: cs)).2 - 1) cs := by
  have htake : (c :: cs).take (head (c :: cs)).2 = c :: cs.take ((head (c :: cs)).2 - 1) := by
    rw [← List.take_succ_cons, Nat.sub_add_cancel (head_bounds c cs).1]
  rw [htake]
  rfl

/-- **A token stands between two parts of the text** as the head of what begins with it. -/
theorem exists_place_of_mem {t : Token} (cs : List Char) : ∀ {offset skip : Nat},
    t ∈ lexFrom offset skip cs → ∃ before after, cs = before ++ (t.text.toList ++ after) ∧
      offset + byteLength before = t.start ∧
      head (t.text.toList ++ after) = (t.kind, t.text.toList.length) := by
  induction cs with
  | nil => intro offset skip h; simp [lexFrom] at h
  | cons c cs ih =>
    have hlater {offset skip : Nat} (h : t ∈ lexFrom (offset + c.utf8Size) skip cs) :
        ∃ before after, c :: cs = before ++ (t.text.toList ++ after) ∧
          offset + byteLength before = t.start ∧
          head (t.text.toList ++ after) = (t.kind, t.text.toList.length) := by
      obtain ⟨before, after, hcs, hstart, hhead⟩ := ih h
      exact ⟨c :: before, after, by rw [hcs]; rfl, by rw [byteLength_cons, ← Nat.add_assoc, hstart], hhead⟩
    rintro offset (_ | skip) h
    · rw [lexFrom_cons] at h
      rcases List.mem_cons.1 h with rfl | h
      · refine ⟨[], (c :: cs).drop (head (c :: cs)).2, ?_, rfl, ?_⟩
        · rw [List.nil_append, String.toList_ofList, List.take_append_drop]
        · rw [String.toList_ofList, List.take_append_drop, List.length_take_of_le (head_bounds c cs).2]
      · exact hlater h
    · exact hlater h

end Token

variable {source : String} {t : Token}

theorem bracket_of_mem_lex (ht : t ∈ lex source) (h : t.kind = .blockComment) :
    ∃ ds, t.text.toList = '-' :: '-' :: '[' :: ds := by
  obtain ⟨before, after, -, -, hhead⟩ := Token.exists_place_of_mem _ ht
  have hkind : (Token.head (t.text.toList ++ after)).1 = .blockComment := by rw [hhead, h]
  simpa [hhead] using Token.bracket_of_head hkind

/-- A token of a source can be asked whether its literal is finished. -/
theorem readable_of_mem_lex (ht : t ∈ lex source) : (Token.closesString? t.kind t.text.toList).isSome ∧
    (Token.closesComment? t.kind t.text.toList).isSome := by
  constructor
  · unfold Token.closesString?
    split
    · split
      · rename_i hnil
        exact absurd (String.toList_eq_nil_iff.1 hnil) ((tiles_lex source).filled t ht)
      · rfl
    · split <;> rfl
  · unfold Token.closesComment?
    split
    · rename_i h
      obtain ⟨ds, hds⟩ := bracket_of_mem_lex ht h
      rw [hds, Option.isSome_map]
      exact Option.isSome_iff_exists.2 ⟨_, dropBytes?_append ['-', '-'] ('[' :: ds)⟩
    · rfl

/-- **The tokens of a source partition it**: none is empty, each starts where the one before it ends and
their texts, joined, are the source; each is the head of what begins with it, between two parts of the
source, so it starts and ends between characters and within the source.  None is the opener of a comment
alone, or of the kind of a node; an unknown character stands alone, and strings and block comments begin
with the marks that the search for their ends relies on. -/
theorem lex_partitions (source : String) : Token.Tiles (lex source) source ∧ ∀ t ∈ lex source,
    (∃ before after, source.toList = before ++ (t.text.toList ++ after) ∧ byteLength before = t.start ∧
      Token.head (t.text.toList ++ after) = (t.kind, t.text.toList.length)) ∧
    t.stop ≤ source.utf8ByteSize ∧ t.kind.isToken ∧ t.kind ≠ .comment ∧
    (t.kind = .invalidChar → ∃ c, t.text = String.singleton c) ∧
    (t.kind.isQuoted → t.text ≠ "") ∧
    (t.kind = .blockComment → ∃ ds, t.text.toList = '-' :: '-' :: '[' :: ds) ∧
    (Token.closesString? t.kind t.text.toList).isSome ∧
    (Token.closesComment? t.kind t.text.toList).isSome := by
  have htiles := tiles_lex source
  refine ⟨htiles, fun t ht => ?_⟩
  obtain ⟨before, after, hsource, hstart, hhead⟩ := Token.exists_place_of_mem _ ht
  have hstop : t.stop ≤ source.utf8ByteSize := by
    have hbounds := (htiles.adjacent.bounds ht).2
    rwa [Nat.zero_add, Token.sizeOfList, htiles.text] at hbounds
  have hkind : (Token.head (t.text.toList ++ after)).1 = t.kind := congrArg Prod.fst hhead
  refine ⟨⟨before, after, hsource, by rwa [Nat.zero_add] at hstart, hhead⟩, hstop, isToken_of_mem_lex ht,
    hkind ▸ Token.head_ne_comment _, fun h => ?_, fun _ => htiles.filled t ht, bracket_of_mem_lex ht,
    readable_of_mem_lex ht⟩
  have hone := Token.head_of_invalidChar (hkind.trans h)
  rw [hhead] at hone
  obtain ⟨c, hc⟩ := List.length_eq_one_iff.1 (congrArg Prod.snd hone)
  exact ⟨c, String.toList_inj.1 (by simp [hc])⟩

/-- A block comment that is not finished, behind a name. -/
theorem lex_partitions_of_comment : ⟨.blockComment, 1, "--[[?"⟩ ∈ lex "a--[[?" ∧
    ∃ ds, "--[[?".toList = '-' :: '-' :: '[' :: ds :=
  have hmem : ⟨.blockComment, 1, "--[[?"⟩ ∈ lex "a--[[?" := by decide +kernel
  ⟨hmem, ((lex_partitions "a--[[?").2 _ hmem).2.2.2.2.2.2.1 rfl⟩

end LuaTree
