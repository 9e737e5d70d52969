import LuaTree.KindSet
import LuaTree.Proofs.Munch
import Mathlib.Data.List.Induction

/-!
# Proofs/LongestMatch — a token begins with the longest match of the rules

Of all rules the first one with the longest match begins a token (`Token.Begins`).  What it matches is the **mark** of
the token: the opening mark of a string or a comment, and the whole text of any other token.  So a text that two
rules match belongs to the earlier one, and an unknown character stands where no rule matches anything
(`longest_match_of_lex`).
-/

namespace LuaTree

/-! ## The first rule with the longest match -/

namespace Rule

open Pattern

theorem longest?_eq_none_of_munch {rules : List Rule} {cs : List Char} (h : munch rules cs = none) {r : Rule}
    (hr : r ∈ rules) : r.pattern.longest? cs = none := by
  refine Option.eq_none_iff_forall_ne_some.2 fun n hn => ?_
  obtain ⟨m, hm, -⟩ := le_of_munch hr hn
  rw [h] at hm
  cases hm

/-- **The rules in front of the one that wins have shorter matches.** -/
theorem first_of_munch {rules : List Rule} {cs : List Char} {m : Match} (h : munch rules cs = some m) :
    ∃ before r behind, rules = before ++ r :: behind ∧ r.match? cs = some m ∧
      ∀ q ∈ before, ∀ n ∈ q.pattern.longest? cs, n < m.2 := by
  induction rules using List.reverseRecOn with
  | nil => cases h
  | append_singleton rules r ih =>
    have hlast : longer (munch rules cs) (r.match? cs) = some m := by
      rw [← h, munch, munch, List.foldl_append]
      rfl
    have hearlier (h : munch rules cs = some m) : ∃ before q behind, rules ++ [r] = before ++ q :: behind ∧
        q.match? cs = some m ∧ ∀ q ∈ before, ∀ n ∈ q.pattern.longest? cs, n < m.2 := by
      obtain ⟨before, q, behind, rfl, hq, hbefore⟩ := ih h
      exact ⟨before, q, behind ++ [r], by simp, hq, hbefore⟩
    cases hbest : munch rules cs with
    | none =>
      rw [hbest] at hlast
      refine ⟨rules, r, [], rfl, hlast, fun q hq n hn => ?_⟩
      rw [longest?_eq_none_of_munch hbest hq] at hn
      cases hn
    | some x =>
      rw [hbest] at hlast
      cases hr : r.match? cs with
      | none =>
        rw [hr] at hlast
        exact hearlier (hbest.trans hlast)
      | some y =>
        rw [hr, longer] at hlast
        split at hlast
        · rename_i hlt
          obtain rfl := Option.some.inj hlast
          refine ⟨rules, r, [], rfl, hr, fun q hq n hn => ?_⟩
          obtain ⟨x', hx', hle⟩ := le_of_munch hq hn
          rw [hbest] at hx'
          cases hx'
          omega
        · exact hearlier (hbest.trans hlast)

end Rule

namespace Token

variable {w u m b : List Char} {k : Kind} {r q : Rule}

/-- **How a token begins**: the first of the rules with the longest match has matched `m`. -/
structure Begins (w u : List Char) (k : Kind) (r : Rule) (m b : List Char) : Prop where
  text : w = m ++ b
  matched : r.pattern.Matches m
  first : ∃ before behind, Rule.all = before ++ r :: behind ∧ ∀ q ∈ before, ¬ q.pattern.Matches m
  longest : ∀ q ∈ Rule.all, ∀ s, s <+: w ++ u → q.pattern.Matches s → s.length ≤ m.length
  /-- Behind the match the token goes on as its kind does. -/
  goesOn : complete r.kind m.length (b ++ u) = (k, m.length + b.length)

/-- **Every token but an unknown character begins with the match of a rule.** -/
theorem exists_begins (h : head (w ++ u) = (k, w.length)) (hk : k ≠ .invalidChar) :
    ∃ r m b, Begins w u k r m b := by
  unfold head at h
  cases hmunch : Rule.munch Rule.all (w ++ u) with
  | none =>
    rw [hmunch] at h
    exact absurd (Prod.mk.inj h).1.symm hk
  | some x =>
    obtain ⟨kind, n⟩ := x
    rw [hmunch] at h
    dsimp only at h
    obtain ⟨before, r, behind, hall, hr, hbefore⟩ := Rule.first_of_munch hmunch
    obtain ⟨n', hn, hmatch⟩ := Option.map_eq_some_iff.1 hr
    obtain ⟨rfl, rfl⟩ := Prod.mk.inj hmatch
    have hle := (complete_bounds r.kind n' ((w ++ u).drop n')).1
    rw [h] at hle
    have hmatches := (Pattern.matches_of_longest? hn).2
    rw [List.take_append_of_le_length hle] at hmatches
    have hlength := List.length_take_of_le hle
    refine ⟨r, w.take n', w.drop n', (List.take_append_drop n' w).symm, hmatches, ⟨before, behind, hall, ?_⟩, ?_, ?_⟩
    · intro q hq hmatches
      obtain ⟨n, hn, hle⟩ := Pattern.le_longest? _ ((List.take_prefix n' w).trans (List.prefix_append w u)) hmatches
      have hlt := hbefore q hq n hn
      omega
    · intro q hq s hs hmatches
      obtain ⟨n, hn, hle⟩ := Pattern.le_longest? s hs hmatches
      obtain ⟨x, hx, hle'⟩ := Rule.le_of_munch hq hn
      rw [hmunch] at hx
      cases hx
      omega
    · rw [List.drop_append_of_le_length hle] at h
      rw [hlength, h, List.length_drop, Nat.add_sub_cancel' hle]

namespace Begins

theorem mem (h : Begins w u k r m b) : r ∈ Rule.all := by
  obtain ⟨before, behind, hall, -⟩ := h.first
  simp [hall]

/-- The whole text of a token is its mark, if a rule matches it. -/
theorem eq_nil_of_matches (h : Begins w u k r m b) (hq : q ∈ Rule.all) (hmatches : q.pattern.Matches w) : b = [] := by
  have hle := h.longest q hq w (List.prefix_append w u) hmatches
  rw [h.text, List.length_append] at hle
  exact List.length_eq_zero_iff.1 (by omega)

/-- The rule is not behind one that matches as much. -/
theorem mem_left (h : Begins w u k r m b) {rules rules' : List Rule} (hall : Rule.all = rules ++ rules')
    (hq : q ∈ rules) (hmatches : q.pattern.Matches m) : r ∈ rules := by
  obtain ⟨before, behind, hall', hnone⟩ := h.first
  rw [hall] at hall'
  rcases List.append_eq_append_iff.1 hall' with ⟨cs, rfl, -⟩ | ⟨cs, rfl, hcs⟩
  · exact absurd hmatches (hnone q (List.mem_append_left cs hq))
  · cases cs with
    | nil => exact absurd hmatches (hnone q (by simpa using hq))
    | cons c cs =>
      obtain ⟨rfl, -⟩ := List.cons.inj hcs
      simp

end Begins

/-! ## Marks -/

/-- The kind of the rule that a token of a kind is found by. -/
def ruleKind (k : Kind) : Kind := if k ∈ KindSet.comments then .comment else k

/-- **The opening mark** of a string or a comment; the whole text of every other token. -/
def mark (t : Token) : List Char :=
  match t.kind with
  | .singleQuotedString => ['\x27']
  | .doubleQuotedString => ['\x22']
  | .longString => LongBracket.opener ((LongBracket.level? t.text.toList).getD 0)
  | .lineComment | .blockComment => ['-', '-']
  | _ => t.text.toList

end Token

namespace Rule

open Pattern

variable {r : Rule} {m : List Char}

theorem mem_unspelled (hr : r ∈ all) (hkind : r.kind.spelling? = none) : r ∈ unspelled := by
  refine (List.mem_append.1 hr).resolve_left fun hr => ?_
  obtain ⟨k, hk, rfl⟩ := List.mem_map.1 hr
  rw [Kind.mem_spelled, show k.spelling? = none from hkind] at hk
  cases hk

theorem matches_star_literal_iff {c : Char} : (star (literal [c])).Matches m ↔ ∃ n, m = List.replicate n c := by
  constructor
  · intro h
    have hall : ∀ d ∈ m, d = c := h.within (within_literal.2 (by simp))
    exact ⟨m.length, List.eq_replicate_iff.2 ⟨rfl, hall⟩⟩
  · rintro ⟨n, rfl⟩
    induction n with
    | zero => exact .starNil
    | succ n ih => exact .starCons (Token.matches_literal_iff.2 rfl) ih

/-- The opening brackets of long strings are those of the levels. -/
theorem matches_opener_iff : (seqs [literal ['['], star (literal ['=']), literal ['[']]).Matches m ↔
    ∃ level, m = LongBracket.opener level := by
  simp only [seqs, matches_seq_iff, Token.matches_literal_iff, matches_star_literal_iff, matches_nil_iff]
  constructor
  · rintro ⟨_, _, rfl, rfl, _, _, rfl, ⟨level, rfl⟩, _, _, rfl, rfl, rfl⟩
    exact ⟨level, rfl⟩
  · rintro ⟨level, rfl⟩
    exact ⟨['['], _, rfl, rfl, _, ['['], rfl, ⟨level, rfl⟩, ['['], [], rfl, rfl, rfl⟩

/-- What the rules of strings and comments match. -/
theorem marks_of_kind (hr : r ∈ all) (h : r.pattern.Matches m) :
    (r.kind = .singleQuotedString → m = ['\x27']) ∧ (r.kind = .doubleQuotedString → m = ['\x22']) ∧
      (r.kind = .longString → ∃ level, m = LongBracket.opener level) ∧ (r.kind = .comment → m = ['-', '-']) := by
  have hpatterns : ∀ r ∈ unspelled, (r.kind = .singleQuotedString → r.pattern = literal ['\x27']) ∧
      (r.kind = .doubleQuotedString → r.pattern = literal ['\x22']) ∧
      (r.kind = .longString → r.pattern = seqs [literal ['['], star (literal ['=']), literal ['[']]) ∧
      (r.kind = .comment → r.pattern = literal ['-', '-']) := by
    simp [unspelled]
  have hmem {k : Kind} (hk : k.spelling? = none) (hkind : r.kind = k) : r ∈ unspelled :=
    mem_unspelled hr (by rw [hkind, hk])
  refine ⟨fun hkind => ?_, fun hkind => ?_, fun hkind => ?_, fun hkind => ?_⟩
  · rw [(hpatterns r (hmem rfl hkind)).1 hkind] at h
    exact Token.matches_literal_iff.1 h
  · rw [(hpatterns r (hmem rfl hkind)).2.1 hkind] at h
    exact Token.matches_literal_iff.1 h
  · rw [(hpatterns r (hmem rfl hkind)).2.2.1 hkind] at h
    exact matches_opener_iff.1 h
  · rw [(hpatterns r (hmem rfl hkind)).2.2.2 hkind] at h
    exact Token.matches_literal_iff.1 h

theorem mem_spelled_of_spelling {k : Kind} {text : String} (hk : k.spelling? = some text) :
    ofSpelling k ∈ Kind.spelled.map ofSpelling :=
  List.mem_map_of_mem (by simp [Kind.mem_spelled, hk])

theorem matches_ofSpelling_iff {k : Kind} {text : String} (hk : k.spelling? = some text) :
    (ofSpelling k).pattern.Matches m ↔ m = text.toList := by
  simp [ofSpelling, hk, Token.matches_literal_iff]

/-- The rule for octal numbers. -/
def octal : Rule := ⟨.octInt, seq (literal ['0']) (many (char isOctal))⟩

/-- Octal numbers come in front of all other texts that are not spelled out. -/
theorem all_eq : all = (Kind.spelled.map ofSpelling ++ [octal]) ++ unspelled.tail := by
  rw [List.append_assoc]
  rfl

theorem matches_octal {ds : List Char} (hds : ds ≠ []) (h : ∀ d ∈ ds, isOctal d = true) :
    octal.pattern.Matches ('0' :: ds) := by
  obtain ⟨d, ds, rfl⟩ := List.exists_cons_of_ne_nil hds
  obtain ⟨hd, hds⟩ := List.forall_mem_cons.1 h
  exact .seq (s := ['0']) (Token.matches_literal_iff.2 rfl) (.seq (s := [d]) (.char hd) (matches_star_char_iff.2 hds))

/-- A kind has a spelling of its own. -/
theorem spelling_injective : ∀ k ∈ Kind.spelled, ∀ l ∈ Kind.spelled, k.spelling? = l.spelling? → k = l := by
  decide +kernel

end Rule

namespace Token

variable {t : Token} {u m b : List Char} {r : Rule}

theorem eq_of_ruleKind {k l : Kind} (hk : k ≠ .comment) (h : k = ruleKind l) : l = k := by
  rw [ruleKind] at h
  split at h
  · exact absurd h hk
  · exact h.symm

namespace Begins

theorem kind_eq (h : Begins t.text.toList u t.kind r m b) : r.kind = ruleKind t.kind := by
  have hkind : (complete r.kind m.length (b ++ u)).1 = t.kind := congrArg Prod.fst h.goesOn
  obtain ⟨-, hblock, hline, -⟩ := isToken_of_mem_rules r h.mem
  rw [kind_complete] at hkind
  split at hkind
  · rename_i hcomment
    split at hkind <;> (rw [← hkind, hcomment]; rfl)
  · have hnot : r.kind ∉ KindSet.comments := by simp [KindSet.mem_iff_contains, KindSet.comments, hblock, hline]
    rw [← hkind, ruleKind, if_neg hnot]

/-- **A token begins with its mark.** -/
theorem mark_eq (h : Begins t.text.toList u t.kind r m b) : t.mark = m := by
  obtain ⟨hsingle, hdouble, hlong, hcomment⟩ := Rule.marks_of_kind h.mem h.matched
  have hkind := h.kind_eq
  unfold mark
  split
  · rename_i hk
    exact (hsingle (by rw [hkind, hk]; rfl)).symm
  · rename_i hk
    exact (hdouble (by rw [hkind, hk]; rfl)).symm
  · rename_i hk
    obtain ⟨level, rfl⟩ := hlong (by rw [hkind, hk]; rfl)
    rw [h.text, LongBracket.level?_opener_append, Option.getD_some]
  · rename_i hk
    exact (hcomment (by rw [hkind, hk]; rfl)).symm
  · rename_i hk
    exact (hcomment (by rw [hkind, hk]; rfl)).symm
  · rename_i hsingle hdouble hlong hline hblock
    have hrule : r.kind = t.kind := by
      rw [hkind, ruleKind, if_neg]
      simpa [KindSet.mem_iff_contains, KindSet.comments] using ⟨hline, hblock⟩
    have hcomment : t.kind ≠ .comment := by
      rw [← show (complete r.kind m.length (b ++ u)).1 = t.kind from congrArg Prod.fst h.goesOn]
      exact complete_ne_comment _ _ _
    -- nothing goes on behind the match
    have hcomplete : complete r.kind m.length (b ++ u) = (r.kind, m.length) := by
      rw [hrule]
      unfold complete
      split
      · exact (hsingle ‹_›).elim
      · exact (hdouble ‹_›).elim
      · exact (hlong ‹_›).elim
      · exact (hcomment ‹_›).elim
      · rfl
    have hlength := congrArg Prod.snd (hcomplete.symm.trans h.goesOn)
    dsimp only at hlength
    have hnil : b = [] := List.length_eq_zero_iff.1 (by omega)
    rw [h.text, hnil, List.append_nil]

/-- A text with a spelling of its own belongs to no other rule. -/
theorem kind_of_spelling (h : Begins t.text.toList u t.kind r m b) {k : Kind} (hk : k.spelling? = some t.text) :
    t.kind = k := by
  have hmem := Rule.mem_spelled_of_spelling hk
  have hmatches := (Rule.matches_ofSpelling_iff hk).2 rfl
  have hm : m = t.text.toList := by
    rw [h.text, h.eq_nil_of_matches (List.mem_append_left _ hmem) hmatches, List.append_nil]
  obtain ⟨l, hl, rfl⟩ := List.mem_map.1 (h.mem_left rfl hmem (hm ▸ hmatches))
  obtain ⟨text, htext⟩ := Option.isSome_iff_exists.1 (Kind.mem_spelled.1 hl)
  have hsame : t.text = text := String.toList_inj.1 (hm.symm.trans ((Rule.matches_ofSpelling_iff htext).1 h.matched))
  obtain rfl : l = k :=
    Rule.spelling_injective l hl k (by simp [Kind.mem_spelled, hk]) (by rw [htext, hk, hsame])
  exact eq_of_ruleKind (by rintro rfl; cases hk) h.kind_eq

/-- A number that is octal belongs to the rule for octal numbers. -/
theorem kind_of_octal (h : Begins t.text.toList u t.kind r m b) (hmatches : Rule.octal.pattern.Matches t.text.toList) :
    t.kind = .octInt := by
  have hmem : Rule.octal ∈ Kind.spelled.map Rule.ofSpelling ++ [Rule.octal] := by simp
  have hm : m = t.text.toList := by
    rw [h.text, h.eq_nil_of_matches (Rule.all_eq ▸ List.mem_append_left _ hmem) hmatches, List.append_nil]
  rcases List.mem_append.1 (h.mem_left Rule.all_eq hmem (hm ▸ hmatches)) with hr | hr
  · -- no keyword or mark begins with a digit
    have hdigit : ∀ k ∈ Kind.spelled, (k.spelling?.getD "").toList.head? ≠ some '0' := by decide +kernel
    obtain ⟨k, hk, rfl⟩ := List.mem_map.1 hr
    obtain ⟨zero, ds, hsplit, hzero, -⟩ := Pattern.matches_seq_iff.1 hmatches
    have hspelling := matches_literal_iff.1 h.matched
    rw [hm, hsplit, matches_literal_iff.1 hzero] at hspelling
    exact absurd (by rw [← hspelling]; rfl) (hdigit k hk)
  · obtain rfl := List.mem_singleton.1 hr
    exact eq_of_ruleKind (by decide) h.kind_eq

end Begins

/-- **What the rules have to do with a token** in front of a text. -/
structure Munched (t : Token) (after : List Char) : Prop where
  mark : t.mark <+: t.text.toList
  /-- The rule of its kind matches the mark, and no rule in front of that one does. -/
  rule : t.kind ≠ .invalidChar → ∃ before r behind, Rule.all = before ++ r :: behind ∧ r.kind = ruleKind t.kind ∧
    r.pattern.Matches t.mark ∧ ∀ q ∈ before, ¬ q.pattern.Matches t.mark
  longest : t.kind ≠ .invalidChar → ∀ q ∈ Rule.all, ∀ s, s <+: t.text.toList ++ after → q.pattern.Matches s →
    s.length ≤ t.mark.length
  unknown : t.kind = .invalidChar ↔ ∀ q ∈ Rule.all, ∀ s, s <+: t.text.toList ++ after → s ≠ [] →
    ¬ q.pattern.Matches s
  /-- A keyword is no name. -/
  spelled : ∀ k : Kind, k.spelling? = some t.text → t.kind = k
  /-- An octal number is not read as a decimal one. -/
  octal : ∀ ds, t.text.toList = '0' :: ds → ds ≠ [] → (∀ d ∈ ds, isOctal d = true) → t.kind = .octInt

/-- **The head of a text is the longest match**, or none of the rules matches anything. -/
theorem munched_of_head {after : List Char}
    (hhead : head (t.text.toList ++ after) = (t.kind, t.text.toList.length)) : t.Munched after := by
  have hprefix := List.prefix_append t.text.toList after
  by_cases hk : t.kind = .invalidChar
  · have hnone {q : Rule} (hq : q ∈ Rule.all) {s : List Char} (hs : s <+: t.text.toList ++ after) :
        ¬ q.pattern.Matches s :=
      not_matches_of_unknown (by rw [hhead, hk]) hq hs
    refine ⟨by simp [mark, hk], absurd hk, absurd hk, iff_of_true hk fun q hq s hs _ => hnone hq hs, fun k hk => ?_,
      fun ds htext hds hoctal => ?_⟩
    · exact absurd ((Rule.matches_ofSpelling_iff hk).2 rfl)
        (hnone (List.mem_append_left _ (Rule.mem_spelled_of_spelling hk)) hprefix)
    · exact absurd (htext ▸ Rule.matches_octal hds hoctal) (hnone (by rw [Rule.all_eq]; simp) hprefix)
  · obtain ⟨r, m, b, h⟩ := exists_begins hhead hk
    obtain ⟨before, behind, hall, hbefore⟩ := h.first
    have hmark := h.mark_eq
    have hm : m <+: t.text.toList := ⟨b, h.text.symm⟩
    refine ⟨hmark ▸ hm, fun _ => ⟨before, r, behind, hall, h.kind_eq, hmark ▸ h.matched, hmark ▸ hbefore⟩,
      fun _ => hmark ▸ h.longest, iff_of_false hk fun hnone => ?_, fun k => h.kind_of_spelling, ?_⟩
    · refine hnone r h.mem m (hm.trans hprefix) ?_ h.matched
      rintro rfl
      have hnil := Pattern.acceptsNil_iff.2 h.matched
      rw [not_acceptsNil_of_mem_rules r h.mem] at hnil
      cases hnil
    · exact fun ds htext hds hoctal => h.kind_of_octal (htext ▸ Rule.matches_octal hds hoctal)

end Token

/-- **Maximal munch.**  A token of a source begins with its mark: the opening mark of a string or a comment, and the
whole text of any other token.  The rule of its kind matches this mark, no rule matches more of the source from
there on, and of the rules that match as much it is the first, so a keyword is no name and an octal number no
decimal one.  An unknown character stands where no rule matches anything. -/
theorem longest_match_of_lex (source : String) : ∀ t ∈ lex source, ∃ before after,
    source.toList = before ++ (t.text.toList ++ after) ∧ byteLength before = t.start ∧ t.Munched after := by
  intro t ht
  obtain ⟨before, after, hsource, hstart, hhead⟩ := Token.exists_place_of_mem _ ht
  rw [Nat.zero_add] at hstart
  exact ⟨before, after, hsource, hstart, Token.munched_of_head hhead⟩

/-- A number in front of a letter and a sign that would need a digit behind them. -/
theorem longest_match_of_lex_of_exponent : ⟨.decInt, 0, "1"⟩ ∈ lex "1e+" ∧
    ∃ after, "1e+".toList = '1' :: after ∧ (⟨.decInt, 0, "1"⟩ : Token).Munched after := by
  have hmem : ⟨.decInt, 0, "1"⟩ ∈ lex "1e+" := by decide +kernel
  obtain ⟨before, after, hsource, hstart, hmunched⟩ := longest_match_of_lex "1e+" _ hmem
  have hlength : before.length ≤ 0 := Nat.le_trans (length_le_byteLength before) (Nat.le_of_eq hstart)
  have hbefore : before = [] := List.length_eq_zero_iff.1 (Nat.le_zero.1 hlength)
  rw [hbefore] at hsource
  exact ⟨hmem, after, hsource, hmunched⟩

end LuaTree
