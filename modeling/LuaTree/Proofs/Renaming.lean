import LuaTree.Proofs.Extent
import LuaTree.Proofs.Focus
import LuaTree.Proofs.Herald
import LuaTree.Proofs.Lexemes
import LuaTree.Rename
import Mathlib.Logic.Relation

/-!
# Proofs/Renaming — a renamed tree is the parse of the renamed text

A name that may be given is one identifier (`isName_of_isIdentifier`).  The Name node of a tree holds one
identifier among strays, and what stands before it keeps it apart (`heralds_of_mem`), so the tokens of the
text after a renaming are the leaves of the renamed tree; as their kinds have not changed, neither has the
shape of the tree (`parse_of_rename`).  A tree that was renamed is a parse again, so this goes on for any
number of renamings (`renamed_is_parsed`).
-/

namespace LuaTree

open LuaTree.Tree Token

/-! ## What a node is made of -/

theorem leaves_of_mem_row {l : Located} {ts : List Tree} : ∀ {start : Nat}, l ∈ Located.row start ts →
    l.tree.leaves ⊆ leavesOfList ts := by
  induction ts with
  | nil => exact fun h => nomatch h
  | cons t ts ih =>
    intro start h
    rw [leavesOfList]
    rcases List.mem_cons.1 h with rfl | h
    · exact List.subset_append_left ..
    · exact List.subset_append_of_subset_right _ (ih h)

namespace Node

variable {k l : Kind} {n : Node k} {m : Node l}

/-- The leaves below a node. -/
def leaves (n : Node k) : List (Kind × String) := leavesOfList n.children

theorem leaves_of_as? {p : Located} (h : p.as? k = some n) : p.tree.leaves = n.leaves := by
  unfold Located.as? at h
  split at h
  · cases h
  · rename_i htree
    obtain ⟨-, hn⟩ := Option.ite_none_right_eq_some.1 h
    obtain rfl := Option.some.inj hn
    rw [htree]
    rfl

theorem leaves_of_childAs? (h : n.childAs? l = some m) : m.leaves ⊆ n.leaves := by
  obtain ⟨p, hp, hm⟩ := List.exists_of_findSome?_eq_some h
  exact leaves_of_as? hm ▸ leaves_of_mem_row hp

theorem leaves_of_mem_childrenAs (h : m ∈ n.childrenAs l) : m.leaves ⊆ n.leaves := by
  obtain ⟨p, hp, hm⟩ := List.mem_filterMap.1 h
  exact leaves_of_as? hm ▸ leaves_of_mem_row hp

theorem leaf_of_token? {token : Token} (h : n.token? l = some token) : token.leaf ∈ n.leaves := by
  obtain ⟨p, hp, htoken⟩ := List.mem_filterMap.1 (List.mem_of_find?_eq_some h)
  refine leaves_of_mem_row hp ?_
  unfold Located.token? at htoken
  split at htoken
  · rename_i htree
    cases htoken
    rw [htree]
    exact List.mem_singleton_self _
  · cases htoken

end Node

theorem as?_of_assignment {l : Located} {a : Node .assignmentStatement}
    (h : Stmt.ofLocated? l = some (.assignment a)) : l.as? .assignmentStatement = some a := by
  unfold Stmt.ofLocated? at h
  unfold Located.as?
  split at h
  · cases h
  · split at h <;> simp_all

theorem as?_of_nameRef {l : Located} {n : Node .nameRef} (h : Expr.ofLocated? l = some (.nameRef n)) :
    l.as? .nameRef = some n := by
  unfold Expr.ofLocated? at h
  unfold Located.as?
  split at h
  · cases h
  · split at h <;> simp_all

/-- The only target of a source is one of its names. -/
theorem leaf_of_onlyTarget? {p : Parse} {token : Token} (h : onlyTarget? p = some token) :
    token.leaf ∈ p.tree.leaves ∧ token.kind = .ident := by
  simp only [onlyTarget?, Option.bind_eq_bind, Option.bind_eq_some_iff] at h
  obtain ⟨chunk, hchunk, block, hblock, h⟩ := h
  split at h
  case h_2 => cases h
  rename_i a hstatements
  obtain ⟨targets, htargets, h⟩ := Option.bind_eq_some_iff.1 h
  split at h
  case h_2 => cases h
  rename_i v hvariables
  split at h
  case h_2 => cases h
  rename_i n htarget
  have hsubset : n.leaves ⊆ p.tree.leaves := calc
    n.leaves ⊆ v.leaves := by
      have hmem : .nameRef n ∈ v.exprs := List.mem_of_head? htarget
      obtain ⟨l, hl, hn⟩ := List.mem_filterMap.1 hmem
      exact Node.leaves_of_as? (as?_of_nameRef hn) ▸ leaves_of_mem_row hl
    _ ⊆ targets.leaves := by
      have hmem : v ∈ targets.variables := hvariables ▸ List.mem_singleton_self v
      exact Node.leaves_of_mem_childrenAs hmem
    _ ⊆ a.leaves := Node.leaves_of_childAs? htargets
    _ ⊆ block.leaves := by
      unfold Node.statements at hstatements
      split at hstatements
      · rename_i list hlist
        have hmem : .assignment a ∈ list.stmts := hstatements ▸ List.mem_singleton_self _
        obtain ⟨l, hl, ha⟩ := List.mem_filterMap.1 hmem
        rw [← Node.leaves_of_as? (as?_of_assignment ha)]
        exact List.Subset.trans (leaves_of_mem_row hl) (Node.leaves_of_childAs? hlist)
      · cases hstatements
    _ ⊆ chunk.leaves := Node.leaves_of_childAs? hblock
    _ = p.tree.leaves := (Node.leaves_of_as? hchunk).symm
  have hident : token.kind = .ident := by simpa using List.find?_some h
  exact ⟨hsubset (Node.leaf_of_token? h), hident⟩

/-! ## Names that may be given -/

section Parses

variable {source : String} {settings : Settings} {p : Parse}

/-- The leaves of a tree are the tokens of the source. -/
theorem leaves_of_parse (hp : parse source settings = .ok p) : p.tree.leaves = lexemes source.toList := by
  obtain ⟨q, hq, hleaves, -⟩ := parseTokens_spec (tiles_lex source) (fun _ => isToken_of_mem_lex)
    (fun _ => dashed_of_mem_lex) settings
  rw [parse, hq] at hp
  cases hp
  exact hleaves

theorem text_of_parse (hp : parse source settings = .ok p) : p.tree.text = source := by
  rw [← textOfLeaves_leaves, ← String.toList_inj, textOfLeaves_lexemes (leaves_of_parse hp).symm]

/-- **A name that may be given is one identifier.** -/
theorem isName_of_isIdentifier {name : String} (h : isIdentifier name = true) : IsName name.toList := by
  unfold isIdentifier at h
  split at h
  case h_2 => cases h
  rename_i p hp
  obtain ⟨token, htoken, htext⟩ := (Option.any_eq_true ..).1 (Bool.and_eq_true_iff.1 h).2
  obtain ⟨hmem, hkind⟩ := leaf_of_onlyTarget? htoken
  rw [leaves_of_parse hp] at hmem
  obtain ⟨t, ht, hleaf⟩ := List.mem_map.1 hmem
  obtain ⟨-, after, -, -, hhead⟩ := exists_place_of_mem _ ht
  obtain ⟨ht, hname⟩ := Prod.mk.inj hleaf
  rw [ht, hname, hkind, beq_iff_eq.1 htext] at hhead
  exact ⟨after, hhead⟩

end Parses

/-! ## The identifier of a Name node -/

theorem strays_of_nil : ∀ {ts : List Tree}, Grammar.clear (withoutTriviaInList ts) = [] →
    ∀ t ∈ ts, t.isStray = true
  | [], _ => fun _ ht => absurd ht List.not_mem_nil
  | t :: ts, h => by
    rw [clear_withoutTriviaInList] at h
    split at h
    · rename_i hstray
      exact List.forall_mem_cons.2 ⟨hstray, strays_of_nil h⟩
    · cases h

/-- Strays around one leaf. -/
theorem strays_of_clear {k : Kind} {s : String} : ∀ {cs : List Tree},
    Grammar.clear (withoutTriviaInList cs) = [leaf k s] →
    ∃ as bs, cs = as ++ leaf k s :: bs ∧ ∀ a ∈ as ++ bs, a.isStray = true
  | [], h => nomatch h
  | t :: ts, h => by
    rw [clear_withoutTriviaInList] at h
    cases hstray : t.isStray with
    | true =>
      rw [hstray, if_pos rfl] at h
      obtain ⟨as, bs, rfl, hall⟩ := strays_of_clear h
      exact ⟨t :: as, bs, rfl, List.forall_mem_cons.2 ⟨hstray, hall⟩⟩
    | false =>
      rw [hstray, if_neg Bool.false_ne_true] at h
      obtain ⟨ht, hts⟩ := List.cons.inj h
      obtain rfl : t = leaf k s := by
        cases t with
        | leaf => exact ht
        | node => cases ht
      exact ⟨[], ts, rfl, strays_of_nil hts⟩

variable {as bs : List Tree} {old : String}

/-- The first identifier is the one behind the strays. -/
theorem renameFirst_strays (name : String) (h : ∀ a ∈ as, a.isStray = true) :
    renameFirst name (as ++ leaf .ident old :: bs) = as ++ leaf .ident name :: bs := by
  induction as with
  | nil => rfl
  | cons a as ih =>
    obtain ⟨ha, has⟩ := List.forall_mem_cons.1 h
    rw [List.cons_append, renameFirst, ih has]
    · rfl
    · rintro _ rfl
      cases ha

theorem declared?_strays (h : ∀ a ∈ as, a.isStray = true) : ∀ n : Nat,
    Node.declared? ⟨n, as ++ leaf .ident old :: bs⟩ = some ⟨.ident, n + sizeOfList as, old⟩ := by
  simp only [Node.declared?, Node.token?, Node.tokens, Node.parts]
  induction as with
  | nil => exact fun n => rfl
  | cons a as ih =>
    intro n
    obtain ⟨ha, has⟩ := List.forall_mem_cons.1 h
    have hnone : ∀ t ∈ (Located.mk n a).token?, (t.kind == .ident) = false := by
      cases a with
      | leaf k s =>
        intro t ht
        obtain rfl := Option.some.inj ht
        refine beq_eq_false_iff_ne.2 ?_
        rintro rfl
        cases ha
      | node => exact fun _ ht => nomatch ht
    have hrest := ih has (n + a.size)
    rw [List.cons_append, Located.row, List.filterMap_cons, Tree.sizeOfList, ← Nat.add_assoc]
    split
    · exact hrest
    · rename_i t ht
      rw [List.find?_cons_of_neg (by simp [hnone t ht]), hrest]

theorem standingOfRow_strays (h : ∀ a ∈ as, a.isStray = true) (n : Nat) : standingOfRow n as = [] := by
  induction as generalizing n with
  | nil => rfl
  | cons a as ih =>
    obtain ⟨ha, has⟩ := List.forall_mem_cons.1 h
    rw [standingOfRow, if_pos ha, ih has]
    rfl

/-- What holds of every node of a tree holds of every node in focus. -/
theorem everywhere_of_fill {P : Kind → List Tree → Prop} {t : Tree} : ∀ {above : List Frame},
    (above.foldl (fun t frame => frame.fill t) t).Everywhere P → t.Everywhere P
  | [], h => h
  | f :: above, h => by
    have hfill : (f.fill t).Everywhere P := everywhere_of_fill h
    exact (everywhere_node.1 hfill).2 t (by simp)

/-- **A node in focus that is one identifier by its production holds one among strays.** -/
theorem exists_ident_of_mem {p : Parse} {gaps : Bool} (h : p.tree.withoutTrivia.Conforms gaps) {f : Focus}
    (hf : f ∈ p.tree.foci) {k : Kind} (hk : Grammar.production gaps k = Grammar.token .ident) {cs : List Tree}
    (hcs : f.tree = .node k cs) : ∃ as old bs,
      cs = as ++ leaf .ident old :: bs ∧ ∀ a ∈ as ++ bs, a.isStray = true := by
  have hall := (everywhere_withoutTrivia p.tree).1 h
  obtain ⟨-, hreplace⟩ := around_of_mem_foci hf
  rw [← hreplace] at hall
  have hnode := everywhere_of_fill hall
  rw [hcs] at hnode
  obtain ⟨old, hclear⟩ : Grammar.clear (withoutTriviaInList cs) ∈ Grammar.token .ident := hk ▸ hnode.1
  obtain ⟨as, bs, hcs, hstrays⟩ := strays_of_clear hclear
  exact ⟨as, old, bs, hcs, hstrays⟩

/-! ## What stands before a name -/

theorem notMem_of_tiles {tokens P Q : List Token} {source : String} {t : Token} (h : Tiles tokens source)
    (htokens : tokens = P ++ t :: Q) : t ∉ P ∧ t ∉ Q := by
  have hstop : t.start < t.stop := by
    have hfilled := h.filled t (by simp [htokens])
    have hpos : t.text.utf8ByteSize ≠ 0 := mt String.utf8ByteSize_eq_zero_iff.1 hfilled
    simp only [stop]
    omega
  have hpairwise := h.adjacent.pairwise
  rw [htokens, List.pairwise_append, List.pairwise_cons] at hpairwise
  refine ⟨fun ht => ?_, fun ht => ?_⟩
  · exact absurd (hpairwise.2.2 t ht t List.mem_cons_self) (Nat.not_le.2 hstop)
  · exact absurd (hpairwise.2.1.1 t ht) (Nat.not_le.2 hstop)

section Surroundings

variable {source : String} {settings : Settings} {p : Parse} {f : Focus} {as bs : List Tree} {old : String}
  {L R : List (Kind × String)}

/-- The herald of a name is the last significant token before it. -/
theorem heralds_of_mem (hp : parse source settings = .ok p) (hf : f ∈ p.tree.foci)
    (hname : f.tree = .node .name (as ++ leaf .ident old :: bs)) (hstrays : ∀ a ∈ as ++ bs, a.isStray = true)
    (hleaves : lexemes source.toList = L ++ (.ident, old) :: R)
    (hstart : f.start + Tree.sizeOfList as = (textOfLeaves L).utf8ByteSize) :
    Heralds ((placeFrom 0 L).filter isSignificant) := by
  obtain ⟨a₀, _, a, _, F, _, ha₀, -, h, hF, -⟩ := sameKinds_of_parses rfl hp hp
  obtain ⟨q, hq, gaps, hconforms, -⟩ := parse_conforms source settings
  obtain rfl : p = q := Except.ok.inj (hp.symm.trans hq)
  have hkind : p.tree.isStray = false ∧ p.tree.declares = false := by
    rw [hF.tree]
    exact ⟨rfl, rfl⟩
  obtain ⟨Y, Z, hstanding, hY⟩ := behind_of_mem (X := []) (announces_of_conforms hconforms) hkind.1
    (by simp [hkind.2]) hf (by rw [Focus.kind, hname]; rfl)
  obtain ⟨W, hW⟩ := hF.standing_prefix ha₀ h.left
  set t : Token := ⟨.ident, f.start + Tree.sizeOfList as, old⟩ with ht
  obtain ⟨has, hbs⟩ := List.forall_mem_append.1 hstrays
  have hone : f.tree.standingFrom f.start = [t] := by
    rw [hname, standingFrom, standingOfRow_append, standingOfRow_strays has, standingOfRow,
      standingOfRow_strays hbs]
    rfl
  have htokens : lex source = placeFrom 0 L ++ t :: placeFrom t.stop R := by
    rw [← (tiles_lex source).adjacent.placeFrom]
    change placeFrom 0 (lexemes source.toList) = _
    rw [hleaves, placeFrom_append, placeFrom, Nat.zero_add, ← hstart]
    rfl
  obtain ⟨hL, hR⟩ := notMem_of_tiles (tiles_lex source) htokens
  have hsignificant : (placeFrom 0 L).filter isSignificant ++ t :: (placeFrom t.stop R).filter isSignificant =
      Y ++ t :: (Z ++ W) := by
    have hfilter : (lex source).filter isSignificant = (placeFrom 0 L).filter isSignificant ++
        t :: (placeFrom t.stop R).filter isSignificant := by
      rw [htokens, List.filter_append, List.filter_cons_of_pos rfl]
    rw [← hfilter, ← hW, standing, ← List.nil_append (standingFrom 0 p.tree), hstanding, hone]
    simp only [List.append_assoc, List.cons_append, List.nil_append]
  have hnone {ts : List Token} (h : t ∉ ts) : t ∉ ts.filter isSignificant :=
    fun hmem => h (List.mem_of_mem_filter hmem)
  rwa [((List.append_cons_inj_of_notMem (hnone hL) (hnone hR)).1 hsignificant).1]

/-- What stands before a name is what names are declared behind. -/
theorem beforeName_of_heralds (h : Heralds ((placeFrom 0 L).filter isSignificant)) :
    ∀ l ∈ L.getLast?, l.1 ∈ beforeName := by
  intro l hl
  obtain ⟨L, rfl⟩ := List.getLast?_eq_some_iff.1 hl
  obtain ⟨t, ht, hherald⟩ := h
  have hall : ∀ k ∈ heraldKinds, k ∈ beforeName := by decide
  have hinsignificant {k : Kind} (hk : k.isSignificant = false) : k ∈ beforeName := by
    revert hk
    cases k <;> decide
  rw [placeFrom_append, List.filter_append] at ht
  by_cases hsignificant : l.1.isSignificant = true
  · have hlast : Token.isSignificant ⟨l.1, 0 + (textOfLeaves L).utf8ByteSize, l.2⟩ = true := hsignificant
    rw [placeFrom, List.filter_cons_of_pos hlast, placeFrom, List.filter_nil, List.getLast?_concat] at ht
    obtain rfl := Option.some.inj ht
    exact hall _ hherald
  · exact hinsignificant (Bool.eq_false_iff.2 hsignificant)

end Surroundings

/-! ## Renaming and parsing -/

/-- **One text is another one with a name in the place of a declared one**: every other byte is the same. -/
def Focus.Rewrites (f : Focus) (name text text' : String) : Prop :=
  ∃ declaration before old after, f.located.as? .name = some declaration ∧
    declaration.declared? = some ⟨.ident, before.utf8ByteSize, old⟩ ∧
    text = before ++ (old ++ after) ∧ text' = before ++ (name ++ after)

variable {source name : String} {settings : Settings} {p : Parse} {f : Focus} {t : Tree}

/-- A renaming succeeds at declarations only, and with identifiers only. -/
theorem node_of_rename (h : f.rename name = .ok t) : ∃ cs, f.tree = .node .name cs ∧
    f.located.as? .name = some ⟨f.start, cs⟩ ∧ isIdentifier name = true ∧
    t = f.replace (.node .name (renameFirst name cs)) := by
  obtain ⟨start, tree, above⟩ := f
  unfold Focus.rename at h
  split at h
  · cases h
  rename_i declaration hdeclaration
  split at h
  · cases h
  split at h
  · cases h
  rename_i hname
  have hlocated := hdeclaration
  unfold Located.as? Focus.located at hlocated
  cases tree with
  | leaf => cases hlocated
  | node k cs =>
    obtain ⟨rfl, hcs⟩ := Option.ite_none_right_eq_some.1 hlocated
    obtain rfl := Option.some.inj hcs
    exact ⟨cs, rfl, hdeclaration, by simpa using hname, (Except.ok.inj h).symm⟩

/-- **A tree that is renamed is the parse of the renamed text.** -/
theorem parse_of_rename (hp : parse source settings = .ok p) (hf : f ∈ p.tree.foci)
    (h : f.rename name = .ok t) :
    f.Rewrites name source t.text ∧ ∃ q, parse t.text settings = .ok q ∧ q.tree = t := by
  obtain ⟨cs, hnode, hlocated, hidentifier, rfl⟩ := node_of_rename h
  obtain ⟨q, hq, gaps, hconforms, -⟩ := parse_conforms source settings
  obtain rfl : p = q := Except.ok.inj (hp.symm.trans hq)
  obtain ⟨as, old, bs, rfl, hstrays⟩ := exists_ident_of_mem hconforms hf rfl hnode
  have hbefore : ∀ a ∈ as, a.isStray = true := (List.forall_mem_append.1 hstrays).1
  rw [renameFirst_strays name hbefore]
  obtain ⟨⟨ls, rs, haround⟩, hreplace⟩ := around_of_mem_foci hf
  set L := ls ++ leavesOfList as with hL
  set R := leavesOfList bs ++ rs with hR
  have hleaves (new : String) : (f.replace (.node .name (as ++ leaf .ident new :: bs))).leaves =
      L ++ (.ident, new) :: R := by
    rw [Focus.replace, haround.leaves, Tree.leaves, leavesOfList_append, leavesOfList, Tree.leaves]
    simp only [hL, hR, List.append_assoc, List.cons_append, List.nil_append]
  have hold : lexemes source.toList = L ++ (.ident, old) :: R := by
    rw [← leaves_of_parse hp, ← hreplace, hnode, hleaves]
  have hstart : f.start + Tree.sizeOfList as = (textOfLeaves L).utf8ByteSize := by
    rw [haround.start, hL, textOfLeaves_append, String.utf8ByteSize_append, Tree.sizeOfList_eq]
  set t := f.replace (.node .name (as ++ leaf .ident name :: bs)) with ht
  have htext : t.text = textOfLeaves (L ++ (.ident, name) :: R) := by
    rw [← textOfLeaves_leaves, hleaves]
  have hnew : lexemes t.text.toList = L ++ (.ident, name) :: R := by
    rw [htext]
    refine lexemes_rename (isName_of_isIdentifier hidentifier) hold (apart_of_lexemes hold ?_)
    exact beforeName_of_heralds (heralds_of_mem hp hf hnode hstrays hold hstart)
  refine ⟨⟨_, textOfLeaves L, old, textOfLeaves R, hlocated, ?_, ?_, ?_⟩, ?_⟩
  · rw [← hstart]
    exact declared?_strays hbefore f.start
  · have hsource := textOfLeaves_lexemes hold
    rw [String.toList_inj] at hsource
    rw [← hsource, textOfLeaves_append, textOfLeaves]
  · rw [htext, textOfLeaves_append, textOfLeaves]
  obtain ⟨q, hq, -⟩ := parse_conforms t.text settings
  refine ⟨q, hq, eq_of_shape ?_ ?_⟩
  · have hkinds : (lex t.text).map Token.kind = (lex source).map Token.kind := by
      have hfst (s : String) : (lex s).map Token.kind = (lexemes s.toList).map Prod.fst := by
        rw [lexemes, List.map_map]
        rfl
      simp only [hfst, hnew, hold, List.map_append, List.map_cons]
    rw [shape_of_kinds hkinds hq hp, ← hreplace, ht, hnode]
    refine shape_foldl_fill ?_ f.above
    simp only [shape, shapeOfList_append, shapeOfList]
  · rw [leaves_of_parse hq, hnew, hleaves]

/-- One tree is another one after a declaration has got another name. -/
def Tree.Renames (t t' : Tree) : Prop := ∃ f ∈ t.foci, ∃ name, f.rename name = .ok t'

/-- Renamed or not, a tree is the parse of its text. -/
theorem parse_of_renames {t' : Tree} (hp : parse source settings = .ok p)
    (h : Relation.ReflTransGen Renames p.tree t') : ∃ q, parse t'.text settings = .ok q ∧ q.tree = t' := by
  induction h with
  | refl => exact ⟨p, by rw [text_of_parse hp, hp], rfl⟩
  | tail _ hstep ih =>
    obtain ⟨q, hq, rfl⟩ := ih
    obtain ⟨f, hf, name, hrename⟩ := hstep
    exact (parse_of_rename hq hf hrename).2

/-- **However often declarations of a source have been renamed, the next renaming is a parse**: its tree is
the tree that the text before it, with the new name in the place of the old one, is parsed to under the same
settings. -/
theorem renamed_is_parsed (source : String) (settings : Settings) : ∃ p, parse source settings = .ok p ∧
    ∀ t, Relation.ReflTransGen Renames p.tree t → ∀ f ∈ t.foci, ∀ name t', f.rename name = .ok t' →
      f.Rewrites name t.text t'.text ∧ ∃ q, parse t'.text settings = .ok q ∧ q.tree = t' := by
  obtain ⟨p, hp, -⟩ := parse_conforms source settings
  refine ⟨p, hp, fun t ht f hf name t' hrename => ?_⟩
  obtain ⟨q, hq, rfl⟩ := parse_of_renames hp ht
  exact parse_of_rename hq hf hrename

end LuaTree
