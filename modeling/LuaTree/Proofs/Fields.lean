import LuaTree.Proofs.Accessors

/-!
# Proofs/Fields — the key and the value of a table field

The expressions of `[key] = value` are told apart by counting: the first is the key, the second the
value.  By where they stand, the key is `bracketed` and the value is `assigned`.  Recovery may leave out
the key, the closing bracket, the sign and the value, each without the others.  As long as the key is
there, counting and standing agree; without it the value is counted first (`fields_of_parse`).
-/

namespace LuaTree

open LuaTree.Tree Computability

variable {gaps : Bool} {l : Located} {k : Kind}

/-! ## Expressions by where they stand -/

namespace Node

/-- The expressions between the bracket of a field and its sign. -/
def bracketed (n : Node .tableField) : List Expr :=
  ((n.parts.takeWhile (·.kind != .equals)).dropWhile (·.kind != .bracketOpen)).filterMap Expr.ofLocated?

/-- The expressions behind the sign of a field. -/
def assigned (n : Node .tableField) : List Expr :=
  (n.parts.dropWhile (·.kind != .equals)).filterMap Expr.ofLocated?

end Node

/-! ## What stands around the sign -/

namespace Grammar

/-- With a bracket and a sign a field is `'[' expression ']' '=' expression`, and the sign is there. -/
theorem bracketed_of_field {ts : List Tree} (h : ts ∈ field gaps) (hopen : ∃ s, leaf .bracketOpen s ∈ ts)
    (hsign : ∃ s, leaf .equals s ∈ ts) :
    ts ∈ token .bracketOpen * hole gaps (expression gaps) * hole gaps (token .bracketClose) *
      token .equals * hole gaps (expression gaps) := by
  obtain ⟨o, ho⟩ := hopen
  obtain ⟨s, hs⟩ := hsign
  rcases h with (h | h) | h
  · have hfree : token .ident * token .equals * hole gaps (expression gaps) ≤ free .bracketOpen :=
      mul_le_free (mul_le_free (token_le_free (by decide)) (token_le_free (by decide)))
        (hole_le_free (operand_le_free (by decide)))
    exact (hfree h _ ho rfl).elim
  · cases gaps with
    | false => exact h
    | true =>
      obtain ⟨_, ⟨front, hfront, sign, hsign, rfl⟩, value, hvalue, rfl⟩ := h
      rcases hsign with rfl | hsign
      · have hfree : token .bracketOpen * hole true (expression true) * hole true (token .bracketClose) *
            hole true (expression true) ≤ free .equals :=
          mul_le_free (mul_le_free (mul_le_free (token_le_free (by decide))
            (hole_le_free (operand_le_free (by decide)))) (hole_le_free (token_le_free (by decide))))
            (hole_le_free (operand_le_free (by decide)))
        exact (hfree ⟨front, hfront, value, hvalue, rfl⟩ _ (by simpa using hs) rfl).elim
      · exact ⟨_, ⟨front, hfront, sign, hsign, rfl⟩, value, hvalue, rfl⟩
  · exact ((operand_le_free (by decide) : expression gaps ≤ free .bracketOpen) h _ ho rfl).elim

/-- The rows of one piece at most, of one of some kinds. -/
def single (ks : List Kind) : Language Tree := {ts | ts.length ≤ 1 ∧ ∀ t ∈ ts, t.kind ∈ ks}

theorem hole_le_single {L : Language Tree} {ks : List Kind} (h : L ≤ single ks) : hole gaps L ≤ single ks := by
  cases gaps with
  | false => exact h
  | true =>
    rintro ts (rfl | hts)
    · exact ⟨Nat.zero_le 1, nofun⟩
    · exact h hts

theorem token_le_single : token k ≤ single [k] := by
  rintro _ ⟨s, rfl⟩
  exact ⟨le_rfl, by simp [Tree.kind]⟩

theorem expression_le_single : expression gaps ≤ single expressionKinds := by
  rintro _ ⟨k, hk, cs, rfl, -⟩
  exact ⟨le_rfl, by simpa [Tree.kind] using hk⟩

end Grammar

/-! ## Pieces of a field -/

namespace Located

/-- Neither trivia nor an Error node is what is looked for. -/
theorem isStray_or_kind_bne (htrivia : k.isTrivia = false) (hne : k ≠ .error) (l : Located) :
    (!!l.tree.isStray || l.kind != k) = (l.kind != k) := by
  cases hstray : l.tree.isStray with
  | false => rfl
  | true =>
    obtain ⟨start, tree⟩ := l
    refine (bne_iff_ne.2 ?_).symm
    rintro rfl
    cases tree with
    | leaf => exact Bool.false_ne_true (htrivia.symm.trans hstray)
    | node => exact hne (of_decide_eq_true hstray)

theorem takeWhile_pieces (htrivia : k.isTrivia = false) (hne : k ≠ .error) (ls : List Located) :
    (ls.filter (!·.tree.isStray)).takeWhile (·.kind != k) =
      (ls.takeWhile (·.kind != k)).filter (!·.tree.isStray) := by
  simp only [List.takeWhile_filter, isStray_or_kind_bne htrivia hne]

theorem dropWhile_pieces (htrivia : k.isTrivia = false) (hne : k ≠ .error) (ls : List Located) :
    (ls.filter (!·.tree.isStray)).dropWhile (·.kind != k) =
      (ls.dropWhile (·.kind != k)).filter (!·.tree.isStray) := by
  simp only [List.dropWhile_filter, isStray_or_kind_bne htrivia hne]

theorem single_of_map {ls : List Located} {ks : List Kind}
    (h : ls.map (·.tree.withoutTrivia) ∈ Grammar.single ks) : ls.length ≤ 1 ∧ ∀ l ∈ ls, l.kind ∈ ks := by
  refine ⟨by simpa using h.1, fun l hl => ?_⟩
  have := h.2 _ (List.mem_map_of_mem hl)
  rwa [kind_withoutTrivia] at this

end Located

namespace Node

variable {n : Node .tableField}

/-- The expressions between bracket and sign are found among the pieces. -/
theorem bracketed_eq (n : Node .tableField) : n.bracketed =
    ((n.pieces.takeWhile (·.kind != .equals)).dropWhile (·.kind != .bracketOpen)).filterMap
      Expr.ofLocated? := by
  rw [pieces, Located.takeWhile_pieces (k := .equals) rfl (by decide),
    Located.dropWhile_pieces (k := .bracketOpen) rfl (by decide),
    Located.filterMap_filter fun _ => Expr.ofLocated?_of_isStray]
  rfl

/-- The expressions behind the sign are found among the pieces. -/
theorem assigned_eq (n : Node .tableField) :
    n.assigned = (n.pieces.dropWhile (·.kind != .equals)).filterMap Expr.ofLocated? := by
  rw [pieces, Located.dropWhile_pieces (k := .equals) rfl (by decide),
    Located.filterMap_filter fun _ => Expr.ofLocated?_of_isStray]
  rfl

theorem exists_leaf_of_hasToken {k kind : Kind} {n : Node k} (h : n.hasToken kind)
    (htrivia : kind.isTrivia = false) : ∃ s, leaf kind s ∈ n.row := by
  obtain ⟨t, ht⟩ := Option.isSome_iff_exists.1 h
  obtain rfl : t.kind = kind := by simpa using List.find?_some ht
  exact ⟨t.text, (mem_row_of_mem_tokens (List.mem_of_find?_eq_some ht) htrivia).1⟩

/-- **The pieces of a field with a bracket and a sign**: on either side of the sign stands at most one expression. -/
structure Keyed (n : Node .tableField) where
  opening : Located
  key : List Located
  close : List Located
  sign : Located
  value : List Located
  pieces_eq : n.pieces = opening :: (key ++ close) ++ sign :: value
  kind_opening : opening.kind = .bracketOpen
  kind_sign : sign.kind = .equals
  kind_close : ∀ l ∈ close, l.kind = .bracketClose
  kind_key : ∀ l ∈ key, l.kind ∈ Grammar.expressionKinds
  key_le : key.length ≤ 1
  value_le : value.length ≤ 1

/-- Where a field has what the grammar asks for, its pieces are known from its bracket and its sign. -/
theorem Conforms.keyed (h : n.Conforms gaps) (hopen : n.hasToken .bracketOpen) (hsign : n.hasToken .equals) :
    Nonempty n.Keyed := by
  obtain ⟨_, ⟨_, ⟨_, ⟨_, ⟨o, rfl⟩, ks, hks, rfl⟩, cs, hcs, rfl⟩, _, ⟨s, rfl⟩, rfl⟩, vs, hvs, hrow⟩ :=
    Grammar.bracketed_of_field h.row_mem (exists_leaf_of_hasToken hopen rfl) (exists_leaf_of_hasToken hsign rfl)
  have hmap : n.pieces.map (·.tree.withoutTrivia) =
      leaf .bracketOpen o :: (ks ++ cs) ++ leaf .equals s :: vs := by
    rw [map_pieces, ← hrow]
    simp
  obtain ⟨front, back, hpieces, hfront, hback⟩ := List.map_eq_append_iff.1 hmap
  obtain ⟨opening, inner, rfl, hopening, hinner⟩ := List.map_eq_cons_iff.1 hfront
  obtain ⟨key, close, rfl, rfl, rfl⟩ := List.map_eq_append_iff.1 hinner
  obtain ⟨sign, value, rfl, hequals, rfl⟩ := List.map_eq_cons_iff.1 hback
  have hkey := Located.single_of_map (Grammar.hole_le_single Grammar.expression_le_single hks)
  have hclose := Located.single_of_map (Grammar.hole_le_single Grammar.token_le_single hcs)
  have hvalue := Located.single_of_map (Grammar.hole_le_single Grammar.expression_le_single hvs)
  have hkind {l : Located} {k : Kind} {s : String} (h : l.tree.withoutTrivia = leaf k s) : l.kind = k := by
    rw [Located.kind, ← kind_withoutTrivia, h]
    rfl
  exact ⟨{
    opening, key, close, sign, value
    pieces_eq := hpieces
    kind_opening := hkind hopening
    kind_sign := hkind hequals
    kind_close := fun l hl => List.mem_singleton.1 (hclose.2 l hl)
    kind_key := hkey.2
    key_le := hkey.1
    value_le := hvalue.1 }⟩

namespace Keyed

variable (f : n.Keyed)

/-- In front of the sign there is no other. -/
theorem kind_front : ∀ l ∈ f.opening :: (f.key ++ f.close), (l.kind != .equals) = true := by
  intro l hl
  rw [bne_iff_ne]
  rcases List.mem_cons.1 hl with rfl | hl
  · rw [f.kind_opening]
    decide
  rcases List.mem_append.1 hl with hl | hl
  · exact fun heq => absurd (heq ▸ f.kind_key l hl) (by decide)
  · rw [f.kind_close l hl]
    decide

theorem ofLocated?_opening : Expr.ofLocated? f.opening = none :=
  Expr.ofLocated?_eq_none (f.kind_opening ▸ by decide)

theorem ofLocated?_sign : Expr.ofLocated? f.sign = none :=
  Expr.ofLocated?_eq_none (f.kind_sign ▸ by decide)

theorem filterMap_close : f.close.filterMap Expr.ofLocated? = [] :=
  List.filterMap_eq_nil_iff.2 fun l hl => Expr.ofLocated?_eq_none (f.kind_close l hl ▸ by decide)

theorem filterMap_front :
    (f.opening :: (f.key ++ f.close)).filterMap Expr.ofLocated? = f.key.filterMap Expr.ofLocated? := by
  rw [List.filterMap_cons_none f.ofLocated?_opening, List.filterMap_append, f.filterMap_close, List.append_nil]

theorem bracketed_eq_key : n.bracketed = f.key.filterMap Expr.ofLocated? := by
  rw [bracketed_eq, f.pieces_eq, List.takeWhile_append_of_pos f.kind_front,
    List.takeWhile_cons_of_neg (by simp [f.kind_sign]), List.append_nil,
    List.dropWhile_cons_of_neg (by simp [f.kind_opening]), f.filterMap_front]

theorem assigned_eq_value : n.assigned = f.value.filterMap Expr.ofLocated? := by
  rw [assigned_eq, f.pieces_eq, List.dropWhile_append_of_pos f.kind_front,
    List.dropWhile_cons_of_neg (by simp [f.kind_sign]), List.filterMap_cons_none f.ofLocated?_sign]

include f in
/-- Each expression of the field stands on one side of the sign. -/
theorem exprs_eq_append : n.exprs = n.bracketed ++ n.assigned := by
  rw [exprs_eq, f.pieces_eq, List.filterMap_append, f.filterMap_front, List.filterMap_cons_none f.ofLocated?_sign,
    f.bracketed_eq_key, f.assigned_eq_value]

include f in
theorem length_bracketed : n.bracketed.length ≤ 1 := by
  rw [f.bracketed_eq_key]
  exact (List.length_filterMap_le ..).trans f.key_le

include f in
theorem length_assigned : n.assigned.length ≤ 1 := by
  rw [f.assigned_eq_value]
  exact (List.length_filterMap_le ..).trans f.value_le

end Keyed

end Node

/-! ## What the accessors answer -/

/-- Key and value are what stands at their places, and none where nothing stands there. -/
def Node.AnswersInPlace (n : Node .tableField) : Prop :=
  n.bracketKey? = n.bracketed.head? ∧ n.fieldValue? = n.assigned.head?

/-- The accessors take the expressions in turn. -/
theorem Node.answers_of_exprs {n : Node .tableField} (hopen : n.hasToken .bracketOpen)
    (hexprs : n.exprs = n.bracketed ++ n.assigned) (hkey : n.bracketed.length ≤ 1) :
    (n.AnswersInPlace ↔ n.bracketed ≠ [] ∨ n.assigned = []) ∧
      (n.bracketed = [] → n.bracketKey? = n.assigned.head? ∧ n.fieldValue? = n.assigned[1]?) := by
  have hfirst : n.bracketKey? = (n.bracketed ++ n.assigned).head? := by
    rw [bracketKey?, if_pos hopen, expr?, hexprs]
  have hsecond : n.fieldValue? = (n.bracketed ++ n.assigned)[1]? := by
    rw [fieldValue?, if_pos hopen, secondExpr?, hexprs]
  rw [AnswersInPlace, hfirst, hsecond]
  cases hbracketed : n.bracketed with
  | nil =>
    refine ⟨⟨fun h => .inr (List.head?_eq_none_iff.1 h.1), fun h => ?_⟩, fun _ => ⟨rfl, rfl⟩⟩
    rw [h.resolve_left (· rfl)]
    exact ⟨rfl, rfl⟩
  | cons key keys =>
    have hone : keys = [] := by simpa [hbracketed] using hkey
    subst hone
    exact ⟨⟨fun _ => .inl (List.cons_ne_nil key []), fun _ => ⟨rfl, List.head?_eq_getElem?.symm⟩⟩,
      fun hnil => absurd hnil (List.cons_ne_nil key [])⟩

open Node in
/-- **The key and the value of a field are found in their places, unless the key alone is missing**: then
the value is taken for the key, and no value is found. -/
theorem fields_of_parse (source : String) (settings : Settings) : ∃ p, parse source settings = .ok p ∧
    ∀ n : Node .tableField, n.located ∈ p.tree.nodes → n.hasToken .bracketOpen → n.hasToken .equals →
      n.exprs = n.bracketed ++ n.assigned ∧ n.bracketed.length ≤ 1 ∧ n.assigned.length ≤ 1 ∧
        (n.AnswersInPlace ↔ n.bracketed ≠ [] ∨ n.assigned = []) ∧
        (n.bracketed = [] → n.bracketKey? = n.assigned.head? ∧ n.fieldValue? = none) := by
  obtain ⟨p, hp, gaps, hconforms, -⟩ := parse_conforms source settings
  refine ⟨p, hp, fun n hn hopen hsign => ?_⟩
  have hn : n.Conforms gaps := everywhere_of_mem_nodesFrom ((everywhere_withoutTrivia p.tree).1 hconforms) hn
  obtain ⟨f⟩ := hn.keyed hopen hsign
  obtain ⟨hplaced, hkeyless⟩ := answers_of_exprs hopen f.exprs_eq_append f.length_bracketed
  have hnone : n.assigned[1]? = none := List.getElem?_eq_none f.length_assigned
  exact ⟨f.exprs_eq_append, f.length_bracketed, f.length_assigned, hplaced, fun hnil => hnone ▸ hkeyless hnil⟩

/-- **Without its key, a field has its value for a key.** -/
theorem keyless_field : ∃ p, parse "t = \x7b[] = 1\x7d" .standard = .ok p ∧ ∃ n : Node .tableField,
    n.located ∈ p.tree.nodes ∧ n.hasToken .bracketOpen ∧ n.hasToken .equals ∧ n.bracketed = [] ∧
      n.assigned.length = 1 ∧ n.bracketKey?.isSome ∧ n.fieldValue? = none ∧ ¬ n.AnswersInPlace := by
  have hrun : (parse "t = \x7b[] = 1\x7d" .standard).toOption.any (fun p => p.tree.nodes.any fun l =>
      (l.as? .tableField).any fun n => n.hasToken .bracketOpen && n.hasToken .equals && n.bracketed.isEmpty &&
        n.assigned.length == 1 && n.bracketKey?.isSome && n.fieldValue?.isNone) = true := by
    decide +kernel
  cases hp : parse "t = \x7b[] = 1\x7d" .standard with
  | error e =>
    rw [hp] at hrun
    cases hrun
  | ok p =>
    rw [hp] at hrun
    obtain ⟨l, hl, hfield⟩ := List.any_eq_true.1 hrun
    obtain ⟨n, hn, hfound⟩ := (Option.any_eq_true _ _).1 hfield
    obtain rfl := Located.located_of_as? hn
    simp only [Bool.and_eq_true, List.isEmpty_iff, beq_iff_eq, Option.isNone_iff_eq_none] at hfound
    obtain ⟨⟨⟨⟨⟨hopen, hsign⟩, hkey⟩, hvalue⟩, hanswer⟩, hnone⟩ := hfound
    refine ⟨p, rfl, n, hl, hopen, hsign, hkey, hvalue, hanswer, hnone, fun hplaced => ?_⟩
    rw [hplaced.1, hkey] at hanswer
    cases hanswer

end LuaTree
