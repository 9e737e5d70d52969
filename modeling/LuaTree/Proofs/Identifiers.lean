import LuaTree.Proofs.LongestMatch
import LuaTree.Proofs.Places
import LuaTree.Proofs.Renaming
import LuaTree.Proofs.Silence

/-!
# Proofs/Identifiers — the names that a declaration can be given

A new name is tried out as the target of an assignment of `nil`.  The tokens of an identifier in front of `= nil`
have the kinds of those of `x = nil` (`lexemes_of_identifier`), so the tree has its shape and nothing is reported
(`parse_of_identifier`).  Whatever else stands in front of the `=`, no name of the tree has all of its text.  So
declarations can be given identifiers and nothing else (`rename_takes_identifiers`).
-/

namespace LuaTree

open LuaTree.Tree Token

/-! ## Identifiers -/

/-- The words that the grammar keeps for itself. -/
def reservedWords : List String :=
  ["and", "break", "do", "else", "elseif", "end", "false", "for", "function", "goto", "if", "in", "local", "nil",
    "not", "or", "repeat", "return", "then", "true", "until", "while"]

/-- **What an identifier is**: a letter or an underscore, then letters, digits and underscores, and no reserved
word. -/
def IsIdentifier (name : String) : Prop :=
  (∃ c cs, name.toList = c :: cs ∧ (c.isAlpha ∨ c = '_') ∧ ∀ d ∈ cs, d.isAlphanum ∨ d = '_') ∧
    name ∉ reservedWords

theorem isNameStart_iff {c : Char} : isNameStart c = true ↔ c.isAlpha ∨ c = '_' := by
  have halpha : c.isAlpha =
      (decide (c.val ≥ 'A'.val ∧ c.val ≤ 'Z'.val) || (c.val ≥ 'a'.val && c.val ≤ 'z'.val)) := rfl
  simp only [isNameStart, halpha, Bool.or_eq_true, Bool.and_eq_true, decide_eq_true_eq, beq_iff_eq, Char.le_def]
  exact or_congr_left or_comm

theorem isNamePart_iff {c : Char} : isNamePart c = true ↔ c.isAlphanum ∨ c = '_' := by
  rw [isNamePart, Bool.or_eq_true, isNameStart_iff, Char.isAlphanum, Bool.or_eq_true, or_right_comm]
  simp only [isDecimal, Char.isDigit, Bool.and_eq_true, decide_eq_true_eq, Char.le_def, ge_iff_le]

theorem spelling_of_reserved : ∀ word ∈ reservedWords, ∃ k ∈ Kind.spelled, k.spelling? = some word := by
  decide +kernel

/-- The spellings that begin with a letter are the reserved words. -/
theorem reserved_of_spelling {k : Kind} (hk : k ∈ Kind.spelled) {text : String} (htext : k.spelling? = some text)
    {c : Char} {cs : List Char} (h : text.toList = c :: cs) (hc : isNameStart c = true) : text ∈ reservedWords := by
  have hall : ∀ k ∈ Kind.spelled, k.spelling?.all (fun text =>
      text ∈ reservedWords || text.toList.head?.all (isNameStart · = false)) = true := by
    decide +kernel
  have hone := hall k hk
  rw [htext, Option.all_some, h, List.head?_cons, Option.all_some, hc] at hone
  simpa using hone

/-- No rule but that of names matches an identifier. -/
theorem kind_of_identifier {name : String} (h : IsIdentifier name) {r : Rule} (hr : r ∈ Rule.all)
    (hmatches : r.pattern.Matches name.toList) : r.kind = .ident := by
  obtain ⟨⟨c, cs, hname, hc, -⟩, hfree⟩ := h
  have hc : isNameStart c = true := isNameStart_iff.2 hc
  rcases List.mem_append.1 hr with hr | hr
  · obtain ⟨l, hl, rfl⟩ := List.mem_map.1 hr
    obtain ⟨text, hspelling⟩ := Option.isSome_iff_exists.1 (Kind.mem_spelled.1 hl)
    have hword := (Rule.matches_ofSpelling_iff hspelling).1 hmatches
    obtain rfl : text = name := String.toList_inj.1 hword.symm
    exact absurd (reserved_of_spelling hl hspelling hname hc) hfree
  · rcases Rule.begins_unspelled r hr with ⟨hkind, -⟩ | hbegins
    · exact hkind
    · exact absurd ((hname ▸ hmatches).begins hbegins c rfl) (by simp [hc])

/-- What a rule matches as a whole begins with a match of all of it, maybe of another rule. -/
theorem head_of_matches {text : List Char} (hne : text ≠ []) {r : Rule} (hr : r ∈ Rule.all)
    (h : r.pattern.Matches text) :
    ∃ q ∈ Rule.all, q.pattern.Matches text ∧ head text = complete q.kind text.length [] := by
  obtain ⟨w, u, k, rfl, hhead⟩ : ∃ w u k, text = w ++ u ∧ head (w ++ u) = (k, w.length) := by
    obtain ⟨c, cs, rfl⟩ := List.exists_cons_of_ne_nil hne
    refine ⟨(c :: cs).take (head (c :: cs)).2, (c :: cs).drop (head (c :: cs)).2, (head (c :: cs)).1,
      (List.take_append_drop _ _).symm, ?_⟩
    rw [List.take_append_drop, List.length_take_of_le (head_bounds c cs).2]
  have hk : k ≠ .invalidChar := by
    rintro rfl
    exact not_matches_of_unknown (by rw [hhead]) hr List.prefix_rfl h
  obtain ⟨q, m, b, hbegins⟩ := exists_begins hhead hk
  obtain rfl := hbegins.text
  -- no other match is longer than that of the rule, which takes all
  have hle := hbegins.longest r hr _ List.prefix_rfl h
  simp only [List.length_append] at hle
  obtain rfl : b = [] := List.length_eq_zero_iff.1 (by omega)
  obtain rfl : u = [] := List.length_eq_zero_iff.1 (by omega)
  have hgoesOn := hbegins.goesOn
  rw [List.append_nil] at hgoesOn
  rw [List.append_nil, List.append_nil] at hhead ⊢
  exact ⟨q, hbegins.mem, hbegins.matched, hhead.trans hgoesOn.symm⟩

/-- An identifier is one token, and a name. -/
theorem head_of_identifier {name : String} (h : IsIdentifier name) :
    head name.toList = (.ident, name.toList.length) := by
  obtain ⟨c, cs, hname, hc, hcs⟩ := h.1
  obtain ⟨r, hr, hpattern⟩ := rule_of_ident
  have hmatches : r.pattern.Matches name.toList := by
    rw [hpattern, matches_name_iff]
    exact ⟨c, cs, hname, isNameStart_iff.2 hc, fun d hd => isNamePart_iff.2 (hcs d hd)⟩
  obtain ⟨q, hq, hmatched, hhead⟩ := head_of_matches (by simp [hname]) hr hmatches
  rw [hhead, kind_of_identifier h hq hmatched]
  rfl

/-- **The lexical rules make one name of an identifier, and of nothing else.** -/
theorem isName_iff {name : String} : IsName name.toList ↔ IsIdentifier name := by
  constructor
  · intro h
    obtain ⟨c, cs, hname, hc, hcs⟩ := h.chars
    refine ⟨⟨c, cs, hname, isNameStart_iff.1 hc, fun d hd => isNamePart_iff.1 (hcs d hd)⟩, fun hword => ?_⟩
    obtain ⟨k, -, hspelling⟩ := spelling_of_reserved name hword
    obtain ⟨u, hu⟩ := h
    have hident : .ident = k := (munched_of_head (t := ⟨.ident, 0, name⟩) hu).spelled k hspelling
    subst hident
    cases hspelling
  · intro h
    exact ⟨[], by rw [List.append_nil, head_of_identifier h]⟩

/-! ## Assignments of `nil` -/

mutual

/-- Whether two trees are equal. -/
def Tree.decEq : (t u : Tree) → Decidable (t = u)
  | leaf k s, leaf l r => decidable_of_iff (k = l ∧ s = r) (by simp)
  | leaf .., node .. | node .., leaf .. => isFalse nofun
  | node k cs, node l ds =>
    match decEqList cs ds with
    | isTrue h => decidable_of_iff (k = l) (by simp [h])
    | isFalse h => isFalse (by simp [h])

/-- Whether two rows of trees are equal. -/
def Tree.decEqList : (ts us : List Tree) → Decidable (ts = us)
  | [], [] => isTrue rfl
  | [], _ :: _ | _ :: _, [] => isFalse nofun
  | t :: ts, u :: us =>
    match t.decEq u, decEqList ts us with
    | isTrue h, isTrue h' => isTrue (by rw [h, h'])
    | isFalse h, _ => isFalse (by simp [h])
    | _, isFalse h => isFalse (by simp [h])

end

instance : DecidableEq Tree := Tree.decEq

/-- The tree of an assignment of `nil` to a name. -/
def nilAssignment (name : String) : Tree :=
  .node .chunk [.node .block [.node .statementList [.node .assignmentStatement [
    .node .variableList [.node .var [.node .nameRef [.leaf .ident name]]],
    .leaf .whitespace " ", .leaf .equals "=", .leaf .whitespace " ",
    .node .expressionList [.node .nilLiteral [.leaf .kwNil "nil"]]]]]]

/-- Any name is the only target of its assignment. -/
theorem onlyTarget?_nilAssignment (name : String) (ds : List Diagnostic) :
    onlyTarget? ⟨nilAssignment name, ds⟩ = some ⟨.ident, 0, name⟩ := rfl

/-- What one name shows of all. -/
theorem parse_nilAssignment : ∃ p, parse "x = nil" .standard = .ok p ∧ p.tree = nilAssignment "x" ∧
    p.diagnostics = [] := by
  have hrun : (parse "x = nil" .standard).toOption.map (fun p => (p.tree, p.diagnostics.length)) =
      some (nilAssignment "x", 0) := by
    decide +kernel
  cases hp : parse "x = nil" .standard with
  | error e =>
    rw [hp] at hrun
    cases hrun
  | ok p =>
    rw [hp] at hrun
    obtain ⟨htree, hnil⟩ := Prod.mk.inj (Option.some.inj hrun)
    exact ⟨p, rfl, htree, List.length_eq_zero_iff.1 hnil⟩

theorem lexemes_of_identifier {name : String} (h : IsIdentifier name) : lexemes (name ++ " = nil").toList =
    [(.ident, name), (.whitespace, " "), (.equals, "="), (.whitespace, " "), (.kwNil, "nil")] := by
  have hold : lexemes "x = nil".toList = [] ++ (.ident, "x") ::
      [(.whitespace, " "), (.equals, "="), (.whitespace, " "), (.kwNil, "nil")] := by
    decide +kernel
  have hnew := lexemes_rename (isName_iff.2 h) hold nofun
  rwa [List.nil_append, textOfLeaves] at hnew

/-- **An identifier can be assigned to.** -/
theorem parse_of_identifier {name : String} (h : IsIdentifier name) :
    parse (name ++ " = nil") .standard = .ok ⟨nilAssignment name, []⟩ := by
  obtain ⟨p, hp, htree, hnil⟩ := parse_nilAssignment
  obtain ⟨q, hq, -⟩ := parse_conforms (name ++ " = nil") .standard
  have hlexemes := lexemes_of_identifier h
  have hkinds : (lex "x = nil").map Token.kind = (lex (name ++ " = nil")).map Token.kind := by
    have hfst (source : String) : (lex source).map Token.kind = (lexemes source.toList).map Prod.fst := by
      rw [lexemes, List.map_map]
      rfl
    have hold : (lexemes "x = nil".toList).map Prod.fst = [.ident, .whitespace, .equals, .whitespace, .kwNil] := by
      decide +kernel
    rw [hfst, hfst, hlexemes, hold]
    rfl
  have htree' : q.tree = nilAssignment name := by
    refine eq_of_shape ?_ ?_
    · rw [← shape_of_kinds hkinds hp hq, htree]
      rfl
    · rw [leaves_of_parse hq, hlexemes]
      rfl
  have hplain {t : Token} (ht : t ∈ lex (name ++ " = nil")) : t.kind ∉ KindSet.strings ∧ t.kind ≠ .blockComment := by
    have hall : ∀ k ∈ (lex "x = nil").map Token.kind, k ∉ KindSet.strings ∧ k ≠ .blockComment := by
      decide +kernel
    exact hall _ (hkinds ▸ List.mem_map_of_mem ht)
  have hsilent : q.diagnostics = [] := by
    refine silent_of_kinds hkinds (fun t ht => ?_) (fun t ht => ?_) hp hq hnil
    · rw [Parser.closesString?_of_not_mem (hplain ht).1]
      simp
    · rw [closesComment?, if_neg (hplain ht).2]
      simp
  rw [hq, ← htree', ← hsilent]

/-- **A name is accepted if it is an identifier**, and nothing else is. -/
theorem isIdentifier_iff {name : String} : isIdentifier name = true ↔ IsIdentifier name := by
  refine ⟨fun h => isName_iff.1 (isName_of_isIdentifier h), fun h => ?_⟩
  rw [isIdentifier, parse_of_identifier h]
  simp [Parse.isValid, onlyTarget?_nilAssignment]

/-! ## Renaming -/

namespace Focus

variable {f : Focus} {name : String}

/-- Nothing but declarations can be renamed. -/
theorem rename_of_ne (h : f.kind ≠ .name) : f.rename name = .error .notADeclaration := by
  have hnone : f.located.as? .name = none := by
    obtain ⟨start, tree, above⟩ := f
    cases tree with
    | leaf => rfl
    | node k cs => exact if_neg h
  rw [rename, hnone]
  rfl

/-- A declaration takes identifiers. -/
theorem rename_of_declared {cs : List Tree} (h : f.tree = .node .name cs) {t : Token}
    (hdeclared : Node.declared? ⟨f.start, cs⟩ = some t) : f.rename name =
      if isIdentifier name then .ok (f.replace (.node .name (renameFirst name cs)))
      else .error (.invalidName name) := by
  have hlocated : f.located.as? .name = some ⟨f.start, cs⟩ := by
    rw [located, Located.as?, h]
    rfl
  rw [rename, hlocated]
  dsimp only
  rw [hdeclared]
  cases isIdentifier name <;> rfl

end Focus

/-- **Declarations can be given identifiers and nothing else**, wherever they stand; a node that declares nothing
cannot be given any name. -/
theorem rename_takes_identifiers (source : String) (settings : Settings) : ∃ p, parse source settings = .ok p ∧
    ∀ f ∈ p.tree.foci, ∀ name : String,
      (f.rename name = .error .notADeclaration ↔ f.kind ≠ .name) ∧
      (f.kind = .name → ((∃ t, f.rename name = .ok t) ↔ IsIdentifier name) ∧
        (f.rename name = .error (.invalidName name) ↔ ¬ IsIdentifier name)) := by
  obtain ⟨p, hp, gaps, hconforms, -⟩ := parse_conforms source settings
  refine ⟨p, hp, fun f hf name => ?_⟩
  by_cases hkind : f.kind = .name
  · obtain ⟨k, cs, hnode⟩ := Focus.exists_node_of_mem_foci hf
    obtain rfl : k = .name := by rwa [Focus.kind, hnode] at hkind
    obtain ⟨as, old, bs, rfl, hstrays⟩ := exists_ident_of_mem hconforms hf rfl hnode
    have hdeclared : Node.declared? ⟨f.start, as ++ leaf .ident old :: bs⟩ = _ :=
      declared?_strays (List.forall_mem_append.1 hstrays).1 f.start
    rw [Focus.rename_of_declared hnode hdeclared, ← isIdentifier_iff]
    cases isIdentifier name <;> simp [hkind]
  · simp [Focus.rename_of_ne hkind, hkind]

end LuaTree
