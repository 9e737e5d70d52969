import LuaTree.Proofs.Tiling
import LuaTree.Token.Lex

/-!
# Proofs/Lexing — the tokens of a source tile it

Whatever the longest match is, a token takes the characters up to its end and the next one starts
there, so the tokens cover the source (`tiles_lex`).  Their kinds are those of the rules, and a block
comment begins with two dashes (`dashes_of_mem_lex`).
-/

namespace LuaTree

namespace Token

/-! ## Covering the source -/

theorem utf8ByteSize_ofList_cons (c : Char) (cs : List Char) :
    (String.ofList (c :: cs)).utf8ByteSize = c.utf8Size + (String.ofList cs).utf8ByteSize := by
  rw [← List.singleton_append, String.ofList_append, String.utf8ByteSize_append]
  simp

/-- A string has as many bytes as its characters. -/
theorem utf8ByteSize_ofList (cs : List Char) : (String.ofList cs).utf8ByteSize = byteLength cs := by
  induction cs with
  | nil => rfl
  | cons c cs ih => rw [utf8ByteSize_ofList_cons, byteLength_cons, ih]

/-- Behind the characters that are skipped, the tokens cover what is left. -/
theorem lexFrom_covers (cs : List Char) : ∀ offset skip : Nat,
    Adjacent (offset + (String.ofList (cs.take skip)).utf8ByteSize) (lexFrom offset skip cs) ∧
      textOfList (lexFrom offset skip cs) = String.ofList (cs.drop skip) := by
  induction cs with
  | nil => intro offset skip; exact ⟨trivial, by simp [lexFrom, textOfList]⟩
  | cons c cs ih =>
    rintro offset (_ | skip)
    · obtain ⟨h₁, h₂⟩ := ih (offset + c.utf8Size) ((head (c :: cs)).2 - 1)
      refine ⟨⟨by simp, ?_⟩, ?_⟩
      · rw [stop, utf8ByteSize_ofList_cons, ← Nat.add_assoc]
        exact h₁
      · rw [lexFrom, textOfList, h₂, ← String.ofList_append, List.cons_append, List.take_append_drop]
        rfl
    · obtain ⟨h₁, h₂⟩ := ih (offset + c.utf8Size) skip
      rw [lexFrom, List.take_succ_cons, List.drop_succ_cons, utf8ByteSize_ofList_cons, ← Nat.add_assoc]
      exact ⟨h₁, h₂⟩

/-- Every token has the kind and the text of what stands at its head. -/
theorem exists_head_of_mem {t : Token} (cs : List Char) : ∀ {offset skip : Nat},
    t ∈ lexFrom offset skip cs → ∃ c ds, t.kind = (head (c :: ds)).1 ∧
      t.text = String.ofList (c :: ds.take ((head (c :: ds)).2 - 1)) := by
  induction cs with
  | nil => intro offset skip h; simp [lexFrom] at h
  | cons c cs ih =>
    rintro offset (_ | skip) h
    · rcases List.mem_cons.1 h with rfl | h
      · exact ⟨c, cs, rfl, rfl⟩
      · exact ih h
    · exact ih h

/-! ## The kinds of tokens -/

theorem eq_or_eq_of_longer {a b : Option Rule.Match} {m : Rule.Match}
    (h : Rule.longer a b = some m) : a = some m ∨ b = some m := by
  unfold Rule.longer at h
  split at h
  · exact .inr h
  · exact .inl h
  · split at h
    · exact .inr h
    · exact .inl h

theorem exists_rule_of_munch {rules : List Rule} {cs : List Char} {m : Rule.Match}
    (h : Rule.munch rules cs = some m) : ∃ r ∈ rules, r.match? cs = some m := by
  have hfold : ∀ (rules : List Rule) (best : Option Rule.Match),
      rules.foldl (fun best r => Rule.longer best (r.match? cs)) best = some m →
        best = some m ∨ ∃ r ∈ rules, r.match? cs = some m := by
    intro rules
    induction rules with
    | nil => exact fun best h => .inl h
    | cons r rules ih =>
      intro best h
      rcases ih _ h with h | ⟨q, hq, h⟩
      · exact (eq_or_eq_of_longer h).imp_right fun h => ⟨r, List.mem_cons_self, h⟩
      · exact .inr ⟨q, List.mem_cons_of_mem _ hq, h⟩
  exact (hfold rules none h).resolve_left nofun

theorem isToken_of_mem_rules : ∀ r ∈ Rule.all, r.kind.isToken ∧
    r.kind ≠ .blockComment ∧ r.kind ≠ .lineComment ∧ r.kind ≠ .invalidChar := by
  decide +kernel

theorem isToken_complete {kind : Kind} (h : kind.isToken) (n : Nat) (rest : List Char) :
    (complete kind n rest).1.isToken := by
  unfold complete
  split
  · exact h
  · exact h
  · exact h
  · rw [comment]
    split <;> rfl
  · exact h

/-- At the head of a text stands an unknown character, or what one of the rules begins. -/
theorem head_cases (cs : List Char) : head cs = (.invalidChar, 1) ∨
    ∃ r ∈ Rule.all, ∃ n, r.pattern.longest? cs = some n ∧ head cs = complete r.kind n (cs.drop n) := by
  unfold head
  split
  · rename_i kind n h
    obtain ⟨r, hr, hm⟩ := exists_rule_of_munch h
    obtain ⟨k, hk, hrk⟩ := Option.map_eq_some_iff.1 hm
    obtain ⟨rfl, rfl⟩ := Prod.mk.inj hrk
    exact .inr ⟨r, hr, k, hk, rfl⟩
  · exact .inl rfl

theorem isToken_head (cs : List Char) : (head cs).1.isToken := by
  rcases head_cases cs with h | ⟨r, hr, n, -, h⟩
  · rw [h]
    decide
  · rw [h]
    exact isToken_complete (isToken_of_mem_rules r hr).1 _ _

theorem matches_literal_iff {cs s : List Char} : Pattern.Matches (.literal cs) s ↔ s = cs := by
  induction cs generalizing s with
  | nil => exact Pattern.matches_nil_iff
  | cons c cs ih =>
    rw [Pattern.literal, Pattern.matches_seq_iff]
    constructor
    · rintro ⟨t, u, rfl, ht, hu⟩
      obtain rfl := ih.1 hu
      cases ht with
      | char h => rw [beq_iff_eq.1 h]; rfl
    · rintro rfl
      exact ⟨[c], cs, rfl, .char (beq_self_eq_true c), ih.2 rfl⟩

theorem eq_of_mem_rules {r : Rule} (h : r ∈ Rule.all) (hr : r.kind = .comment) :
    r.pattern = .literal ['-', '-'] := by
  rcases List.mem_append.1 h with h | h
  · obtain ⟨k, hk, rfl⟩ := List.mem_map.1 h
    exact absurd (Kind.mem_spelled.1 (hr ▸ hk : Kind.comment ∈ Kind.spelled)) (by decide)
  · have hpattern : ∀ r ∈ Rule.unspelled, r.kind = .comment → r.pattern = .literal ['-', '-'] := by
      simp [Rule.unspelled]
    exact hpattern r h hr

theorem eq_comment_of_complete {kind : Kind} {n : Nat} {rest : List Char} (hkind : kind ≠ .blockComment)
    (h : (complete kind n rest).1 = .blockComment) : kind = .comment := by
  unfold complete at h
  split at h
  · simp at h
  · simp at h
  · simp at h
  · rfl
  · exact absurd h hkind

/-- **A block comment begins with two dashes.** -/
theorem dashes_of_head {c : Char} {cs : List Char} (h : (head (c :: cs)).1 = .blockComment) :
    ∃ ds, c :: cs.take ((head (c :: cs)).2 - 1) = '-' :: '-' :: ds := by
  rcases head_cases (c :: cs) with hhead | ⟨r, hr, n, hn, hhead⟩
  · rw [hhead] at h
    exact absurd h (by decide)
  rw [hhead] at h ⊢
  have hcomment := eq_comment_of_complete (isToken_of_mem_rules r hr).2.1 h
  obtain ⟨hle, hmatches⟩ := Pattern.matches_of_longest? hn
  rw [eq_of_mem_rules hr hcomment, matches_literal_iff] at hmatches
  obtain rfl : n = 2 := by
    have hlength := congrArg List.length hmatches
    rwa [List.length_take_of_le hle] at hlength
  obtain ⟨ds, hds⟩ : ∃ ds, c :: cs = '-' :: '-' :: ds :=
    ⟨(c :: cs).drop 2, by rw [← List.take_append_drop 2 (c :: cs), hmatches]; simp⟩
  obtain ⟨rfl, rfl⟩ := List.cons.inj hds
  refine ⟨ds.take (comment ds).2, ?_⟩
  rw [hcomment, complete, List.drop_succ_cons, List.drop_succ_cons, List.drop_zero, Nat.add_comm 2,
    Nat.add_sub_assoc (by decide), List.take_succ_cons]

end Token

variable {source : String}

theorem tiles_lex (source : String) : Token.Tiles (lex source) source := by
  obtain ⟨h₁, h₂⟩ := Token.lexFrom_covers source.toList 0 0
  refine ⟨fun t ht => ?_, by simpa [lex] using h₁, by simpa [lex] using h₂⟩
  obtain ⟨c, ds, -, htext⟩ := Token.exists_head_of_mem _ ht
  rw [htext]
  exact fun h => by simpa using congrArg String.toList h

theorem isToken_of_mem_lex {t : Token} (ht : t ∈ lex source) : t.kind.isToken := by
  obtain ⟨c, ds, hkind, -⟩ := Token.exists_head_of_mem _ ht
  rw [hkind]
  exact Token.isToken_head _

theorem dashes_of_mem_lex {t : Token} (ht : t ∈ lex source) (h : t.kind = .blockComment) :
    ∃ ds, t.text.toList = '-' :: '-' :: ds := by
  obtain ⟨c, ds, hkind, htext⟩ := Token.exists_head_of_mem _ ht
  rw [htext, String.toList_ofList]
  exact Token.dashes_of_head (hkind.symm.trans h)

end LuaTree
