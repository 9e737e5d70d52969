import LuaTree.Proofs.Extent

/-!
# Proofs/Munch — what the head of a text depends on

The head of a text is found by looking at what follows it: a longer match may be there, or the mark that a
string or a comment waits for.  So behind a head `w` another text may stand only if no rule reaches from
`w` into it (`Token.Stops`), and if what goes on from an opening mark ends there as well
(`Token.Resumes`).  Then the head stays the same (`Token.head_append`).
-/

namespace LuaTree

namespace Pattern

variable {p : Pattern} {w u : List Char}

/-- Behind the end of all its matches a pattern does not care for the text. -/
theorem longest?_append (h : ∀ y, y <+: u → p.Matches (w ++ y) → y = []) :
    p.longest? (w ++ u) = p.longest? w := by
  have hle {m : Nat} (hm : m ≤ (w ++ u).length) (hp : p.Matches ((w ++ u).take m)) : m ≤ w.length := by
    refine Nat.le_of_not_lt fun hlt => ?_
    rw [List.take_append, List.take_of_length_le (Nat.le_of_lt hlt)] at hp
    have hlength := congrArg List.length (h _ (List.take_prefix _ u) hp)
    rw [List.length_append] at hm
    rw [List.length_take, List.length_nil] at hlength
    omega
  have htake {m : Nat} (hm : m ≤ w.length) : (w ++ u).take m = w.take m := List.take_append_of_le_length hm
  refine Option.ext fun n => ?_
  rw [longest?_eq_some_iff, longest?_eq_some_iff]
  constructor
  · rintro ⟨hn, hp, hmax⟩
    have hn' := hle hn hp
    refine ⟨hn', htake hn' ▸ hp, fun m hm hp' => hmax m ?_ (htake hm ▸ hp')⟩
    rw [List.length_append]
    omega
  · rintro ⟨hn, hp, hmax⟩
    refine ⟨by rw [List.length_append]; omega, htake hn ▸ hp, fun m hm hp' => ?_⟩
    have hm' := hle hm hp'
    exact hmax m hm' (htake hm' ▸ hp')

/-- A match at the head of a text is as long as the longest one, at most. -/
theorem le_longest? {cs : List Char} (s : List Char) (hs : s <+: cs) (hp : p.Matches s) :
    ∃ n ∈ p.longest? cs, s.length ≤ n := by
  obtain ⟨t, rfl⟩ := hs
  have hlength : s.length ≤ (s ++ t).length := by simp
  have hmatches : p.Matches ((s ++ t).take s.length) := by rwa [List.take_left]
  cases hn : p.longest? (s ++ t) with
  | none => exact absurd hmatches (not_matches_of_longest?_eq_none hn hlength)
  | some n => exact ⟨n, rfl, le_of_longest? hn hlength hmatches⟩

end Pattern

namespace Rule

/-- Rules see a text only as far as their matches reach. -/
theorem munch_append {rules : List Rule} {w u : List Char}
    (h : ∀ r ∈ rules, ∀ y, y <+: u → r.pattern.Matches (w ++ y) → y = []) :
    munch rules (w ++ u) = munch rules w := by
  have hfold : ∀ (rules : List Rule) (best : Option Match),
      (∀ r ∈ rules, ∀ y, y <+: u → r.pattern.Matches (w ++ y) → y = []) →
        rules.foldl (fun best r => longer best (r.match? (w ++ u))) best =
          rules.foldl (fun best r => longer best (r.match? w)) best := by
    intro rules
    induction rules with
    | nil => exact fun _ _ => rfl
    | cons r rules ih =>
      intro best h
      obtain ⟨hr, h⟩ := List.forall_mem_cons.1 h
      rw [List.foldl_cons, List.foldl_cons, match?, match?, Pattern.longest?_append hr]
      exact ih _ h
  exact hfold rules none h

/-- A rule that matches is not longer than the longest match. -/
theorem le_of_munch {rules : List Rule} {cs : List Char} {r : Rule} (hr : r ∈ rules) {n : Nat}
    (hn : r.pattern.longest? cs = some n) : ∃ m ∈ munch rules cs, n ≤ m.2 := by
  have hgrows (best : Option Match) (r : Rule) :
      ∀ m ∈ best, ∃ m' ∈ longer best (r.match? cs), m.2 ≤ m'.2 := by
    rintro m rfl
    cases h : r.match? cs with
    | none => exact ⟨m, rfl, Nat.le_refl _⟩
    | some m' =>
      by_cases hlt : m.2 < m'.2
      · exact ⟨m', by simp [longer, hlt], Nat.le_of_lt hlt⟩
      · exact ⟨m, by simp [longer, hlt], Nat.le_refl _⟩
  have hkeeps : ∀ (rules : List Rule) (best : Option Match), ∀ m ∈ best,
      ∃ m' ∈ rules.foldl (fun best r => longer best (r.match? cs)) best, m.2 ≤ m'.2 := by
    intro rules
    induction rules with
    | nil => exact fun best m hm => ⟨m, hm, Nat.le_refl _⟩
    | cons r rules ih =>
      intro best m hm
      obtain ⟨m', hm', hle⟩ := hgrows best r m hm
      obtain ⟨m'', hm'', hle'⟩ := ih _ m' hm'
      exact ⟨m'', hm'', Nat.le_trans hle hle'⟩
  have hreaches (best : Option Match) : ∃ m ∈ longer best (r.match? cs), n ≤ m.2 := by
    rw [match?, hn]
    cases best with
    | none => exact ⟨_, rfl, Nat.le_refl _⟩
    | some b =>
      by_cases hlt : b.2 < n
      · exact ⟨(r.kind, n), by simp [longer, hlt], Nat.le_refl _⟩
      · exact ⟨b, by simp [longer, hlt], Nat.le_of_not_lt hlt⟩
  have hfold : ∀ (rules : List Rule) (best : Option Match), r ∈ rules →
      ∃ m ∈ rules.foldl (fun best r => longer best (r.match? cs)) best, n ≤ m.2 := by
    intro rules
    induction rules with
    | nil => exact fun _ h => absurd h (by simp)
    | cons q rules ih =>
      intro best hmem
      rcases List.mem_cons.1 hmem with rfl | hmem
      · obtain ⟨m, hm, hle⟩ := hreaches best
        obtain ⟨m', hm', hle'⟩ := hkeeps rules _ m hm
        exact ⟨m', hm', Nat.le_trans hle hle'⟩
      · exact ih _ hmem
  exact hfold rules none hr

/-- Where the longest match ends, every match has ended. -/
theorem eq_nil_of_munch {rules : List Rule} {w u : List Char}
    (h : ∀ m ∈ munch rules (w ++ u), m.2 ≤ w.length) {r : Rule} (hr : r ∈ rules) {y : List Char}
    (hy : y <+: u) (hmatches : r.pattern.Matches (w ++ y)) : y = [] := by
  obtain ⟨z, rfl⟩ := hy
  obtain ⟨n, hlongest, hle⟩ := Pattern.le_longest? (w ++ y) ⟨z, List.append_assoc ..⟩ hmatches
  obtain ⟨m, hm, hnm⟩ := le_of_munch hr hlongest
  have hbound := h m hm
  rw [List.length_append] at hle
  exact List.length_eq_zero_iff.1 (by omega)

end Rule

namespace Token

variable {w u v : List Char} {k : Kind}

/-- **No rule reaches from a text into the next one.** -/
def Stops (w v : List Char) : Prop := ∀ r ∈ Rule.all, ∀ y, y <+: v → r.pattern.Matches (w ++ y) → y = []

/-- No rule reaches beyond the head of a text. -/
theorem stops_of_head (h : head (w ++ u) = (k, w.length)) : Stops w u := by
  intro r hr y hy hmatches
  refine Rule.eq_nil_of_munch (u := u) ?_ hr hy hmatches
  rintro ⟨kind, n⟩ hm
  have hbound := (complete_bounds kind n ((w ++ u).drop n)).1
  unfold head at h
  rw [Option.mem_def.1 hm] at h
  dsimp only at h
  rwa [h] at hbound

/-- In front of an unknown character no rule matches anything. -/
theorem not_matches_of_unknown {cs s : List Char} (h : (head cs).1 = .invalidChar) {r : Rule} (hr : r ∈ Rule.all)
    (hs : s <+: cs) : ¬ r.pattern.Matches s := by
  intro hmatches
  obtain ⟨n, hn, -⟩ := Pattern.le_longest? s hs hmatches
  obtain ⟨⟨kind, m⟩, hm, -⟩ := Rule.le_of_munch hr hn
  obtain ⟨r', hr', hmatch⟩ := exists_rule_of_munch hm
  obtain ⟨_, -, hm'⟩ := Option.map_eq_some_iff.1 hmatch
  obtain ⟨rfl, rfl⟩ := Prod.mk.inj hm'
  unfold head at h
  rw [Option.mem_def.1 hm] at h
  dsimp only at h
  rw [kind_complete] at h
  split at h
  · split at h <;> simp at h
  · exact (isToken_of_mem_rules r' hr').2.2.2 h

/-! ## What follows an opening mark -/

theorem length_le_of_lengthThrough {mark : List Char} (hmark : mark ≠ []) (hu : u ≠ []) : ∀ {b : List Char},
    LongBracket.lengthThrough mark (b ++ u) = b.length → mark.length ≤ b.length
  | [], h => by
    obtain ⟨c, cs, rfl⟩ := List.exists_cons_of_ne_nil hu
    rw [List.nil_append, LongBracket.lengthThrough] at h
    split at h
    · exact absurd (List.length_eq_zero_iff.1 h) hmark
    · exact absurd h (Nat.succ_ne_zero _)
  | c :: b, h => by
    rw [List.cons_append, LongBracket.lengthThrough] at h
    split at h
    · exact Nat.le_of_eq h
    · exact Nat.le_succ_of_le (length_le_of_lengthThrough hmark hu (Nat.succ.inj h))

/-- A text that ends with its mark does not care for what follows, and one without a mark ends where all
ends. -/
theorem lengthThrough_append {mark : List Char} (hmark : mark ≠ []) (hv : u = [] → v = []) :
    ∀ {b : List Char}, LongBracket.lengthThrough mark (b ++ u) = b.length →
      LongBracket.lengthThrough mark (b ++ v) = b.length
  | [], h => by
    by_cases hu : u = []
    · rw [hv hu]
      rfl
    · exact absurd (List.length_eq_zero_iff.1 (Nat.le_zero.1 (length_le_of_lengthThrough hmark hu h))) hmark
  | c :: b, h => by
    by_cases hu : u = []
    · rw [hv hu]
      rwa [hu] at h
    rw [List.cons_append, LongBracket.lengthThrough] at h ⊢
    split at h
    · rename_i hprefix
      have hmark : mark <+: c :: b := List.prefix_of_prefix_length_le (List.isPrefixOf_iff_prefix.1 hprefix)
        (List.prefix_append (c :: b) u) (Nat.le_of_eq h)
      have hprefix' : mark.isPrefixOf (c :: (b ++ v)) = true :=
        List.isPrefixOf_iff_prefix.2 (hmark.trans (List.prefix_append (c :: b) v))
      rw [if_pos hprefix', h]
    · rename_i hprefix
      have hle := length_le_of_lengthThrough hmark hu (Nat.succ.inj h)
      have hnot : ¬ mark.isPrefixOf (c :: (b ++ v)) = true := fun hprefix' => hprefix <| by
        have hmark : mark <+: c :: b := List.prefix_of_prefix_length_le
          (List.isPrefixOf_iff_prefix.1 hprefix') (List.prefix_append (c :: b) v) (Nat.le_succ_of_le hle)
        exact List.isPrefixOf_iff_prefix.2 (hmark.trans (List.prefix_append (c :: b) u))
      rw [if_neg hnot, lengthThrough_append hmark hv (Nat.succ.inj h)]
      rfl

/-- **What goes on from an opening mark** and ends in front of `u` ends in front of `v`, too: at the end of
all, in front of the same character, or behind its closing mark. -/
def Resumes (k : Kind) (u v : List Char) : Prop :=
  v = [] ∨ (∃ c u' v', u = c :: u' ∧ v = c :: v') ∨
    (k ∉ [.singleQuotedString, .doubleQuotedString, .lineComment] ∧
      (u = [] → k ∉ [.longString, .blockComment]))

theorem Resumes.eq_nil (h : Resumes k u v) (hk : k ∈ [.longString, .blockComment]) (hu : u = []) :
    v = [] := by
  rcases h with rfl | ⟨c, u', v', rfl, -⟩ | ⟨-, h⟩
  · rfl
  · cases hu
  · exact absurd hk (h hu)

theorem Resumes.same (h : Resumes k u v)
    (hk : k ∈ [.singleQuotedString, .doubleQuotedString, .lineComment]) :
    v = [] ∨ ∃ c u' v', u = c :: u' ∧ v = c :: v' :=
  h.imp_right fun h => h.resolve_right fun h => h.1 hk

/-- What an escape consists of decides how a quoted string that begins with one goes on. -/
theorem escape_cases (cs : List Char) :
    cs = [] ∨ (∃ ds, cs = '\r' :: '\n' :: ds) ∨
      ∃ c ds, cs = c :: ds ∧ (c = '\r' → ds.head? ≠ some '\n') := by
  match cs with
  | [] => exact .inl rfl
  | c :: ds =>
    by_cases h : c = '\r' ∧ ds.head? = some '\n'
    · obtain ⟨rfl, h⟩ := h
      obtain ⟨es, rfl⟩ := List.head?_eq_some_iff.1 h
      exact .inr (.inl ⟨es, rfl⟩)
    · exact .inr (.inr ⟨c, ds, rfl, fun hc hd => h ⟨hc, hd⟩⟩)

/-- A quoted string that is empty so far ends in front of a line break. -/
theorem quotedLength_eq_zero {quote c : Char} {cs : List Char} (h : quotedLength quote (c :: cs) = 0) :
    c = '\n' ∨ c = '\r' := by
  by_cases hc : c = '\x5c'
  · subst hc
    rcases escape_cases cs with rfl | ⟨ds, rfl⟩ | ⟨d, ds, rfl, hd⟩
    · simp [quotedLength] at h
    · simp [quotedLength] at h
    · simp [quotedLength_escape hd] at h
  · rw [quotedLength_cons hc] at h
    split at h
    · assumption
    · split at h <;> simp at h

theorem quotedLength_of_break {quote c : Char} (h : c = '\n' ∨ c = '\r') (cs : List Char) :
    quotedLength quote (c :: cs) = 0 := by
  rw [quotedLength_cons (by rintro rfl; simp at h), if_pos h]

theorem quotedLength_append_cons {quote c : Char} {b : List Char} (hc : c ≠ '\x5c')
    (ih : quotedLength quote (b ++ u) = b.length → quotedLength quote (b ++ v) = b.length)
    (h : quotedLength quote (c :: b ++ u) = (c :: b).length) :
    quotedLength quote (c :: b ++ v) = (c :: b).length := by
  rw [List.cons_append, quotedLength_cons hc] at h ⊢
  split at h
  · cases h
  rename_i hbreak
  rw [if_neg hbreak]
  split at h
  · rename_i hquote
    rw [if_pos hquote, h]
  · rename_i hquote
    rw [if_neg hquote, ih (Nat.succ.inj h)]
    rfl

/-- In front of the same character a quoted string ends where it did. -/
theorem quotedLength_append {quote : Char} (hv : v = [] ∨ ∃ c u' v', u = c :: u' ∧ v = c :: v') :
    ∀ b : List Char, quotedLength quote (b ++ u) = b.length → quotedLength quote (b ++ v) = b.length
  | [], h => by
    rcases hv with rfl | ⟨c, u', v', rfl, rfl⟩
    · rfl
    · exact quotedLength_of_break (quotedLength_eq_zero h) v'
  | [c], h => by
    by_cases hc : c ≠ '\x5c'
    · exact quotedLength_append_cons hc (quotedLength_append hv []) h
    obtain rfl := Decidable.not_not.1 hc
    -- only at the end of all a backslash escapes nothing
    have hu : u = [] := by
      rcases escape_cases u with rfl | ⟨ds, rfl⟩ | ⟨d, ds, rfl, hd⟩
      · rfl
      · simp [quotedLength] at h
      · simp [quotedLength_escape hd] at h
    rcases hv with rfl | ⟨c, u', v', rfl, -⟩
    · rfl
    · cases hu
  | c :: d :: b, h => by
    by_cases hc : c ≠ '\x5c'
    · exact quotedLength_append_cons hc (quotedLength_append hv (d :: b)) h
    obtain rfl := Decidable.not_not.1 hc
    by_cases hbreak : d = '\r' ∧ b.head? = some '\n'
    · obtain ⟨rfl, hb⟩ := hbreak
      obtain ⟨b', rfl⟩ := List.head?_eq_some_iff.1 hb
      have ih := quotedLength_append hv b' (by simpa [quotedLength] using h)
      simpa [quotedLength] using ih
    -- a line break of two characters is not cut in two
    have hescape {w : List Char} (hw : d = '\r' → b = [] → w.head? ≠ some '\n') :
        quotedLength quote ('\x5c' :: d :: b ++ w) = quotedLength quote (b ++ w) + 2 := by
      refine quotedLength_escape fun hd hhead => ?_
      cases b with
      | nil => exact hw hd rfl hhead
      | cons e b => exact hbreak ⟨hd, hhead⟩
    have hu : d = '\r' → b = [] → u.head? ≠ some '\n' := by
      rintro rfl rfl hhead
      obtain ⟨ds, rfl⟩ := List.head?_eq_some_iff.1 hhead
      simp [quotedLength] at h
    rw [hescape hu] at h
    rw [hescape fun hd hb => ?_, quotedLength_append hv b (Nat.succ.inj (Nat.succ.inj h))]
    · rfl
    · rcases hv with rfl | ⟨e, u', v', rfl, rfl⟩
      · simp
      · exact hu hd hb

/-- What is taken reaches just to what is not. -/
theorem of_length_takeWhile {p : Char → Bool} {b : List Char}
    (h : ((b ++ u).takeWhile p).length = b.length) :
    (∀ c ∈ b, p c = true) ∧ ∀ c ∈ u.head?, p c = false := by
  have htake : (b ++ u).takeWhile p = b :=
    (List.prefix_of_prefix_length_le (List.takeWhile_prefix p) (List.prefix_append b u)
      (Nat.le_of_eq h)).eq_of_length h
  have hb : ∀ c ∈ b, p c = true := fun c hc => List.all_eq_true.1 List.all_takeWhile c (htake.symm ▸ hc)
  refine ⟨hb, fun c hc => Bool.eq_false_iff.2 fun hpc => ?_⟩
  obtain ⟨u, rfl⟩ := List.head?_eq_some_iff.1 hc
  rw [List.takeWhile_append_of_pos hb, List.takeWhile_cons_of_pos hpc] at htake
  simp at htake

/-- **A comment is a block if a bracket opens behind its dashes**, and a line else. -/
theorem comment_cases {b : List Char} (h : comment (b ++ u) = (k, b.length)) :
    (k = .blockComment ∧ ∃ level body, b = LongBracket.opener level ++ body ∧
      LongBracket.lengthThrough (LongBracket.closer level) (body ++ u) = body.length) ∨
    (k = .lineComment ∧ LongBracket.level? (b ++ u) = none ∧
      ((b ++ u).takeWhile fun c => c != '\n' && c != '\r').length = b.length) := by
  unfold comment at h
  split at h
  · rename_i level hlevel
    obtain ⟨rfl, hlength⟩ := Prod.mk.inj h
    obtain ⟨ds, hds⟩ := LongBracket.level?_eq_some_iff.1 hlevel
    -- the opening bracket is a part of the comment
    have hopener : LongBracket.opener level <+: b := by
      refine List.prefix_of_prefix_length_le ⟨ds, hds.symm⟩ (List.prefix_append b u) ?_
      rw [LongBracket.length_opener]
      omega
    obtain ⟨body, rfl⟩ := hopener
    have hdrop : (LongBracket.opener level ++ body ++ u).drop (level + 2) = body ++ u := by
      rw [List.append_assoc]
      exact List.drop_left' (LongBracket.length_opener level)
    rw [hdrop, List.length_append, LongBracket.length_opener] at hlength
    exact .inl ⟨rfl, level, body, rfl, Nat.add_left_cancel hlength⟩
  · rename_i hlevel
    obtain ⟨rfl, hlength⟩ := Prod.mk.inj h
    exact .inr ⟨rfl, hlevel, hlength⟩

theorem comment_opener_append (level : Nat) (body : List Char) :
    comment (LongBracket.opener level ++ body) =
      (.blockComment, level + 2 + LongBracket.lengthThrough (LongBracket.closer level) body) := by
  rw [comment, LongBracket.level?_opener_append]
  dsimp only
  rw [List.drop_left' (LongBracket.length_opener level)]

/-- A comment ends where it did. -/
theorem comment_append {b : List Char} (h : comment (b ++ u) = (k, b.length)) (hv : Resumes k u v) :
    comment (b ++ v) = (k, b.length) := by
  rcases comment_cases h with ⟨rfl, level, body, rfl, hlength⟩ | ⟨rfl, hlevel, hlength⟩
  · have hcloser : LongBracket.closer level ≠ [] := by simp [LongBracket.closer]
    have hthrough := lengthThrough_append hcloser (hv.eq_nil (by simp)) hlength
    rw [List.append_assoc, comment_opener_append, hthrough, List.length_append, LongBracket.length_opener]
  · have hsame := hv.same (by simp)
    generalize hp : (fun c : Char => c != '\n' && c != '\r') = p at hlength
    obtain ⟨hb, hbehind⟩ := of_length_takeWhile hlength
    have hbreak : v.takeWhile p = [] := by
      rcases hsame with rfl | ⟨c, u', v', rfl, rfl⟩
      · rfl
      · exact List.takeWhile_cons_of_neg (by simp [hbehind c rfl])
    have hlevel' : LongBracket.level? (b ++ v) = none := by
      refine Option.eq_none_iff_forall_ne_some.2 fun level h => ?_
      obtain ⟨ds, hds⟩ := LongBracket.level?_eq_some_iff.1 h
      -- no opening bracket reaches over the end of the line
      have hchars : ∀ c ∈ LongBracket.opener level, p c = true := by
        subst hp
        simp only [LongBracket.opener, List.mem_cons, List.mem_append, List.mem_replicate, List.not_mem_nil,
          or_false]
        rintro c (rfl | ⟨-, rfl⟩ | rfl) <;> rfl
      have hopener := congrArg (List.takeWhile p) hds
      rw [List.takeWhile_append_of_pos hb, hbreak, List.append_nil,
        List.takeWhile_append_of_pos hchars] at hopener
      subst hopener
      rw [List.append_assoc, LongBracket.level?_opener_append] at hlevel
      cases hlevel
    rw [comment, hlevel']
    dsimp only
    rw [hp, List.takeWhile_append_of_pos hb, hbreak, List.append_nil]

/-! ## The same head -/

/-- A token whose rule has matched ends where it did. -/
theorem complete_append {kind : Kind} {n : Nat} {b : List Char}
    (h : complete kind n (b ++ u) = (k, n + b.length)) (hv : Resumes k u v) :
    complete kind n (b ++ v) = (k, n + b.length) := by
  unfold complete at h ⊢
  split at h
  · obtain ⟨rfl, hlength⟩ := Prod.mk.inj h
    exact Prod.ext rfl (congrArg (n + ·) (quotedLength_append (hv.same (by simp)) b
      (Nat.add_left_cancel hlength)))
  · obtain ⟨rfl, hlength⟩ := Prod.mk.inj h
    exact Prod.ext rfl (congrArg (n + ·) (quotedLength_append (hv.same (by simp)) b
      (Nat.add_left_cancel hlength)))
  · obtain ⟨rfl, hlength⟩ := Prod.mk.inj h
    exact Prod.ext rfl (congrArg (n + ·) (lengthThrough_append (by simp [LongBracket.closer])
      (hv.eq_nil (by simp)) (Nat.add_left_cancel hlength)))
  · obtain ⟨hkind, hlength⟩ := Prod.mk.inj h
    rw [comment_append (Prod.ext hkind (Nat.add_left_cancel hlength)) hv]
  · exact h

/-- **The head of a text stays the same in front of another text**, if no rule reaches into it and what goes
on from an opening mark ends where it did. -/
theorem head_append (h : head (w ++ u) = (k, w.length)) (hstops : Stops w v) (hv : Resumes k u v) :
    head (w ++ v) = (k, w.length) := by
  have hu := Rule.munch_append (stops_of_head h)
  have hv' := Rule.munch_append hstops
  unfold head at h ⊢
  rw [hu] at h
  rw [hv']
  cases hmunch : Rule.munch Rule.all w with
  | none =>
    rw [hmunch] at h
    exact h
  | some m =>
    obtain ⟨kind, n⟩ := m
    rw [hmunch] at h
    dsimp only at h ⊢
    have hn := (complete_bounds kind n ((w ++ u).drop n)).1
    rw [h] at hn
    have hlength : n + (w.drop n).length = w.length := by
      rw [List.length_drop]
      exact Nat.add_sub_cancel' hn
    rw [List.drop_append_of_le_length hn, ← hlength] at h ⊢
    exact complete_append h hv

end Token

end LuaTree
