import LuaTree.Proofs.Places
import LuaTree.Proofs.Renaming
import LuaTree.Scope

/-!
# Proofs/Resolution — which declaration is meant

Resolution looks at four things of a node: its path, its kind, that of the node around it, and its identifier.
They are its `Site`, and `Site.Meant` says of the sites of a tree alone which declaration a use means: one in the
innermost scope that is also around the use and, there, the first one.  `resolve?_eq_none_iff` and
`meant_of_resolve?` read `Focus.resolve?` that way, and `resolve_nearest` compares the declaration with all others
of its text by the scopes shared with the use.
-/

namespace LuaTree

open LuaTree.Tree

/-! ## Sites -/

/-- The text of the first identifier that is a leaf. -/
def Tree.ident? (ts : List Tree) : Option String :=
  ts.findSome? fun
    | .leaf .ident text => some text
    | _ => none

/-- The identifier of a node, if it has one. -/
def Tree.word : Tree → String
  | .leaf .. => ""
  | .node _ cs => (ident? cs).getD ""

/-- **What resolution sees of a node.** -/
structure Site where
  path : List Nat
  kind : Kind
  parent? : Option Kind
  word : String

def Focus.site (f : Focus) : Site := ⟨f.path, f.kind, f.parentKind?, f.tree.word⟩

/-- The sites of the nodes in preorder. -/
def Tree.sites (t : Tree) : List Site := t.foci.map Focus.site

theorem getElem?_sites {t : Tree} {i : Nat} {x : Site} :
    t.sites[i]? = some x ↔ ∃ f, t.foci[i]? = some f ∧ f.site = x := by
  rw [Tree.sites, List.getElem?_map, Option.map_eq_some_iff]

theorem Node.map_token?_ident {k : Kind} (n : Node k) : (n.token? .ident).map Token.text = ident? n.children := by
  obtain ⟨start, cs⟩ := n
  simp only [token?, tokens, parts]
  induction cs generalizing start with
  | nil => rfl
  | cons c cs ih =>
    have hrest := ih (start + c.size)
    rw [Located.row, List.filterMap_cons]
    cases c with
    | node l ds => exact hrest
    | leaf l s =>
      by_cases hl : l = .ident
      · subst hl
        rfl
      · have hbeq : (l == Kind.ident) = false := beq_false_of_ne hl
        have hnone : ident? (.leaf l s :: cs) = ident? cs := by
          unfold ident?
          rw [List.findSome?_cons]
          split
          · rename_i heq
            split at heq
            · rename_i h
              cases h
              exact absurd rfl hl
            · cases heq
          · rfl
        rw [hnone, ← hrest]
        simp only [Located.token?, List.find?_cons, hbeq]

namespace Site

/-- Whether the site is that of a declaration of a word. -/
def Declares (d : Site) (word : String) : Prop := d.kind = .name ∧ d.word = word

instance (d : Site) (word : String) : Decidable (d.Declares word) := inferInstanceAs (Decidable (_ ∧ _))

/-- **The declaration that is meant by a use**, `d`, as number `i` of the sites, is in the scope `s` around the use `r`:
no declaration of the word in this scope comes before it, and scopes around the use with a declaration of the word are
around `s`. -/
structure Meant (sites : List Site) (r : Site) (i : Nat) (s d : Site) : Prop where
  scope : s ∈ sites ∧ s.kind.isScope = true
  around : s.path <+: r.path
  declaration : sites[i]? = some d
  declares : d.Declares r.word
  inside : s.path <+: d.path
  first : ∀ j e, sites[j]? = some e → e.Declares r.word → s.path <+: e.path → i ≤ j
  innermost : ∀ s' ∈ sites, s'.kind.isScope = true → s'.path <+: r.path →
    ∀ e ∈ sites, e.Declares r.word → s'.path <+: e.path → s'.path <+: s.path

/-- No more than one declaration is meant. -/
theorem Meant.unique {sites : List Site} {r s s' d d' : Site} {i j : Nat} (h : Meant sites r i s d)
    (h' : Meant sites r j s' d') : i = j := by
  have hout := h.innermost s' h'.scope.1 h'.scope.2 h'.around d' (List.mem_of_getElem? h'.declaration) h'.declares
    h'.inside
  have hin := h'.innermost s h.scope.1 h.scope.2 h.around d (List.mem_of_getElem? h.declaration) h.declares h.inside
  have hij := h.first j d' h'.declaration h'.declares (hin.trans h'.inside)
  have hji := h'.first i d h.declaration h.declares (hout.trans h.inside)
  exact Nat.le_antisymm hij hji

end Site

namespace Focus

variable {d f g r s : Focus} {t : Tree} {text : String}

theorem as?_eq_some_iff {k : Kind} {n : Node k} : f.located.as? k = some n ↔ f.located = n.located := by
  obtain ⟨start, tree, above⟩ := f
  obtain ⟨start', cs⟩ := n
  cases tree with
  | leaf => simp [located, Node.located, Located.as?]
  | node l ds =>
    simp only [located, Node.located, Located.as?, Option.ite_none_right_eq_some, Option.some.injEq, Node.mk.injEq,
      Located.mk.injEq, Tree.node.injEq]
    exact and_left_comm

theorem tree_of_as? {k : Kind} {n : Node k} (h : f.located.as? k = some n) : f.tree = .node k n.children :=
  (Located.mk.inj (as?_eq_some_iff.1 h)).2

theorem kind_of_as? {k : Kind} {n : Node k} (h : f.located.as? k = some n) : f.kind = k := by
  rw [kind, tree_of_as? h]
  rfl

/-- The word of a name is its text, be it declared or used. -/
theorem word_of_as? {k : Kind} {n : Node k} (h : f.located.as? k = some n) :
    f.tree.word = (n.token? .ident).elim "" Token.text := by
  rw [tree_of_as? h, Tree.word, ← n.map_token?_ident]
  cases n.token? .ident <;> rfl

theorem word_of_name {n : Node .name} (h : f.located.as? .name = some n) : f.tree.word = n.declaredText :=
  word_of_as? h

theorem word_of_nameRef {u : Node .nameRef} (h : f.located.as? .nameRef = some u) : f.tree.word = u.usedText :=
  word_of_as? h

theorem exists_as? {k : Kind} (hf : f ∈ t.foci) (hk : f.kind = k) : ∃ n, f.located.as? k = some n := by
  obtain ⟨l, cs, hnode⟩ := exists_node_of_mem_foci hf
  obtain rfl : l = k := by rwa [kind, hnode] at hk
  exact ⟨⟨f.start, cs⟩, as?_eq_some_iff.2 (by rw [located, hnode]; rfl)⟩

theorem declares_iff (hd : d ∈ t.foci) :
    d.site.Declares text ↔ ∃ n, d.located.as? .name = some n ∧ n.declaredText = text := by
  constructor
  · rintro ⟨hkind, hword⟩
    obtain ⟨n, hn⟩ := exists_as? hd hkind
    exact ⟨n, hn, (word_of_name hn).symm.trans hword⟩
  · rintro ⟨n, hn, rfl⟩
    exact ⟨kind_of_as? hn, word_of_name hn⟩

/-- Whether a node inside a part declares a text. -/
def holds (s : Focus) (text : String) (d : Focus) : Bool :=
  s.path.isPrefixOf d.path && (d.located.as? .name).any (·.declaredText == text)

theorem holds_iff (hd : d ∈ t.foci) : s.holds text d = true ↔ s.path <+: d.path ∧ d.site.Declares text := by
  simp only [holds, Bool.and_eq_true, List.isPrefixOf_iff_prefix, Option.any_eq_true, beq_iff_eq, declares_iff hd]

/-- The declaration that is found in a part, among all nodes of the tree. -/
theorem declarationOf?_eq (hs : s ∈ t.foci) :
    s.located.declarationOf? text = (t.foci.find? (s.holds text)).bind (·.located.as? .name) := by
  rw [Located.declarationOf?, Located.declarations, Located.nodes, located, ← map_located_allFrom s.tree s.above,
    List.filterMap_map, List.find?_filterMap, allFrom_eq_filter hs, List.find?_filter]
  congr 2
  funext d
  rw [holds, Bool.decide_and, Bool.decide_eq_true, Bool.decide_eq_true]
  rfl

/-- A part without a declaration of the text. -/
theorem declarationOf?_eq_none_iff (hs : s ∈ t.foci) : s.located.declarationOf? text = none ↔
    ∀ d ∈ t.foci, s.path <+: d.path → ¬ d.site.Declares text := by
  have hnone : (t.foci.find? (s.holds text)).bind (·.located.as? .name) = none ↔
      t.foci.find? (s.holds text) = none := by
    refine ⟨fun h => ?_, fun h => by rw [h]; rfl⟩
    by_contra hne
    obtain ⟨d, hd⟩ := Option.ne_none_iff_exists'.1 hne
    have hholds : s.holds text d = true := List.find?_some hd
    obtain ⟨n, hn, -⟩ := (Option.any_eq_true ..).1 (Bool.and_eq_true_iff.1 hholds).2
    rw [hd, Option.bind_some, hn] at h
    cases h
  rw [declarationOf?_eq hs, hnone, List.find?_eq_none]
  exact forall₂_congr fun d hd => by rw [holds_iff hd, not_and]

/-- In a part with one, the first in preorder is found. -/
theorem first_of_declarationOf? (hs : s ∈ t.foci) {n : Node .name} (h : s.located.declarationOf? text = some n) :
    ∃ i d, t.foci[i]? = some d ∧ d.located.as? .name = some n ∧ d.site.Declares text ∧ s.path <+: d.path ∧
      ∀ (j : Nat) (e : Focus), t.foci[j]? = some e → e.site.Declares text → s.path <+: e.path → i ≤ j := by
  rw [declarationOf?_eq hs, Option.bind_eq_some_iff] at h
  obtain ⟨d, hfind, hn⟩ := h
  obtain ⟨hholds, i, hi, hd, hfirst⟩ := List.find?_eq_some_iff_getElem.1 hfind
  obtain ⟨hinside, hdeclares⟩ := (holds_iff (List.mem_of_find?_eq_some hfind)).1 hholds
  refine ⟨i, d, List.getElem?_eq_some_iff.2 ⟨hi, hd⟩, hn, hdeclares, hinside, fun j e he hdeclares hinside => ?_⟩
  obtain ⟨hj, rfl⟩ := List.getElem?_eq_some_iff.1 he
  refine Nat.le_of_not_lt fun hlt => ?_
  have hnot := hfirst j hlt
  rw [(holds_iff (List.getElem_mem hj)).2 ⟨hinside, hdeclares⟩] at hnot
  cases hnot

/-! ## The scopes around a use -/

/-- The scopes around a node, innermost first. -/
def scopes (f : Focus) : List Focus := f.ancestors.filter (·.kind.isScope)

theorem mem_scopes_iff (hr : r ∈ t.foci) : s ∈ r.scopes ↔ s ∈ t.foci ∧ s.kind.isScope = true ∧ s.path <+: r.path := by
  rw [scopes, List.mem_filter, mem_ancestors_iff hr]
  constructor
  · exact fun ⟨⟨hs, henclosed⟩, hscope⟩ => ⟨hs, hscope, henclosed.prefix_path⟩
  · exact fun ⟨hs, hscope, hpath⟩ => ⟨⟨hs, (encloses_iff_path hs hr).2 hpath⟩, hscope⟩

/-- Resolution of a name that no index is applied to. -/
theorem resolve?_eq {u : Node .nameRef} (hu : r.located.as? .nameRef = some u) (hused : u.used?.isSome)
    (hparent : r.parentKind? ≠ some .indexExpression) :
    r.resolve? = r.scopes.findSome? (·.located.declarationOf? u.usedText) := by
  obtain ⟨token, htoken⟩ := Option.isSome_iff_exists.1 hused
  have htext : u.usedText = token.text := by rw [Node.usedText, htoken]; rfl
  rw [resolve?, if_neg hparent, hu, htext, Option.bind_eq_bind, Option.bind_some, htoken]
  rfl

theorem resolve?_of_index (h : r.parentKind? = some .indexExpression) : r.resolve? = none := by
  simp [resolve?, h]

/-- **A use is not resolved if an index is applied to it or nothing declares its text.** -/
theorem resolve?_eq_none_iff (hr : r ∈ t.foci) (hroot : t.kind.isScope = true) {u : Node .nameRef}
    (hu : r.located.as? .nameRef = some u) (hused : u.used?.isSome) : r.resolve? = none ↔
      r.parentKind? = some .indexExpression ∨ ∀ d ∈ t.foci, ¬ d.site.Declares u.usedText := by
  by_cases hparent : r.parentKind? = some .indexExpression
  · simp [resolve?_of_index, hparent]
  rw [resolve?_eq hu hused hparent, List.findSome?_eq_none_iff, or_iff_right hparent]
  constructor
  · intro h d hd
    -- the root is a scope around everything
    have hencloses := encloses_of_mem_foci hr
    have hmem : ⟨0, t, []⟩ ∈ t.foci := ((mem_ancestors_iff hr).1 hencloses.mem_ancestors).1
    have hscope := (mem_scopes_iff hr).2 ⟨hmem, hroot, hencloses.prefix_path⟩
    exact (declarationOf?_eq_none_iff hmem).1 (h _ hscope) d hd (encloses_of_mem_foci hd).prefix_path
  · intro h s hs
    obtain ⟨hs, -⟩ := (mem_scopes_iff hr).1 hs
    exact (declarationOf?_eq_none_iff hs).2 fun d hd _ => h d hd

/-- **A use is resolved to the declaration that is meant.** -/
theorem meant_of_resolve? (hr : r ∈ t.foci) {u : Node .nameRef} (hu : r.located.as? .nameRef = some u)
    (hused : u.used?.isSome) {n : Node .name} (h : r.resolve? = some n) :
    ∃ i s d, t.foci[i]? = some d ∧ d.located.as? .name = some n ∧ s ∈ t.foci ∧
      Site.Meant t.sites r.site i s.site d.site := by
  have hparent : r.parentKind? ≠ some .indexExpression := fun hindex => by simp [resolve?_of_index hindex] at h
  rw [resolve?_eq hu hused hparent, List.findSome?_eq_some_iff] at h
  obtain ⟨inner, s, outer, hsplit, hfound, hnone⟩ := h
  have hword : r.site.word = u.usedText := word_of_nameRef hu
  have hmem : s ∈ r.scopes := by simp [hsplit]
  obtain ⟨hs, hscope, hpath⟩ := (mem_scopes_iff hr).1 hmem
  obtain ⟨i, d, hd, hn, hdeclares, hinside, hfirst⟩ := first_of_declarationOf? hs hfound
  have hpairwise : r.scopes.Pairwise fun b a => a.Encloses b :=
    (pairwise_ancestors (encloses_of_mem_foci hr)).filter _
  rw [hsplit, List.pairwise_append, List.pairwise_cons] at hpairwise
  refine ⟨i, s, d, hd, hn, hs, ?_⟩
  exact {
    scope := ⟨List.mem_map_of_mem hs, hscope⟩
    around := hpath
    declaration := getElem?_sites.2 ⟨d, hd, rfl⟩
    declares := hword ▸ hdeclares
    inside := hinside
    first := fun j e he hdeclared hin => by
      obtain ⟨e, hej, rfl⟩ := getElem?_sites.1 he
      exact hfirst j e hej (hword ▸ hdeclared) hin
    innermost := fun s' hs' hscope' haround e he hdeclared hin => by
      obtain ⟨a, ha, rfl⟩ := List.mem_map.1 hs'
      obtain ⟨b, hb, rfl⟩ := List.mem_map.1 he
      have hmem' := (mem_scopes_iff hr).2 ⟨ha, hscope', haround⟩
      rw [hsplit] at hmem'
      rcases List.mem_append.1 hmem' with hinner | houter
      · exact absurd (hword ▸ hdeclared) ((declarationOf?_eq_none_iff ha).1 (hnone a hinner) b hb hin)
      · rcases List.mem_cons.1 houter with rfl | houter
        · exact List.prefix_rfl
        · exact (hpairwise.2.1.1 a houter).prefix_path }

/-! ## Shared scopes -/

/-- **The innermost scope around two nodes.** -/
structure SharedScope (f g s : Focus) : Prop where
  isScope : s.kind.isScope = true
  left : s ∈ f.ancestors
  right : s ∈ g.ancestors
  innermost : ∀ a, a.kind.isScope = true → a ∈ f.ancestors → a ∈ g.ancestors → a ∈ s.ancestors

/-- Two nodes of a tree share a scope. -/
theorem exists_sharedScope (hroot : t.kind.isScope = true) (hf : f ∈ t.foci) (hg : g ∈ t.foci) :
    ∃ s, SharedScope f g s := by
  have hmem {a : Focus} : a ∈ f.scopes.filter (fun a => a.path.isPrefixOf g.path) ↔
      a.kind.isScope = true ∧ a ∈ f.ancestors ∧ a ∈ g.ancestors := by
    rw [List.mem_filter, scopes, List.mem_filter, mem_ancestors_iff hf, mem_ancestors_iff hg,
      List.isPrefixOf_iff_prefix]
    constructor
    · exact fun ⟨⟨h, hscope⟩, hpath⟩ => ⟨hscope, h, h.1, (encloses_iff_path h.1 hg).2 hpath⟩
    · exact fun ⟨hscope, h, _, henclosed⟩ => ⟨⟨h, hscope⟩, henclosed.prefix_path⟩
  have hpairwise : (f.scopes.filter fun a => a.path.isPrefixOf g.path).Pairwise fun b a => a.Encloses b :=
    ((pairwise_ancestors (encloses_of_mem_foci hf)).filter _).filter _
  cases hall : f.scopes.filter fun a => a.path.isPrefixOf g.path with
  | nil =>
    have hwhole : ⟨0, t, []⟩ ∈ f.scopes.filter fun a => a.path.isPrefixOf g.path :=
      hmem.2 ⟨hroot, (encloses_of_mem_foci hf).mem_ancestors, (encloses_of_mem_foci hg).mem_ancestors⟩
    rw [hall] at hwhole
    cases hwhole
  | cons s outer =>
    rw [hall] at hmem hpairwise
    obtain ⟨hscope, hleft, hright⟩ := hmem.1 List.mem_cons_self
    refine ⟨s, hscope, hleft, hright, fun a ha haf hag => ?_⟩
    rcases List.mem_cons.1 (hmem.2 ⟨ha, haf, hag⟩) with rfl | houter
    · exact a.mem_ancestors_self
    · exact ((List.pairwise_cons.1 hpairwise).1 a houter).mem_ancestors

/-- They share one only. -/
theorem SharedScope.unique {s' : Focus} (hf : f ∈ t.foci) (h : SharedScope f g s) (h' : SharedScope f g s') :
    s = s' := by
  obtain ⟨hs, -⟩ := (mem_ancestors_iff hf).1 h.left
  obtain ⟨hs', -⟩ := (mem_ancestors_iff hf).1 h'.left
  have hout := h.innermost s' h'.isScope h'.left h'.right
  have hin := h'.innermost s h.isScope h.left h.right
  exact ((mem_ancestors_iff hs').1 hin).2.antisymm ((mem_ancestors_iff hs).1 hout).2

section Meant

variable {i : Nat} (hr : r ∈ t.foci) (hs : s ∈ t.foci) (h : Site.Meant t.sites r.site i s.site d.site)
include hr hs h

/-- **A scope around the use with a declaration of its text is around the scope of the one that is meant.** -/
theorem outside_of_meant {a : Focus} (ha : a.kind.isScope = true) (har : a ∈ r.ancestors) {e : Focus}
    (he : e ∈ t.foci) (hdeclares : e.site.Declares r.site.word) (hae : a ∈ e.ancestors) : a ∈ s.ancestors := by
  obtain ⟨ha', har⟩ := (mem_ancestors_iff hr).1 har
  have hpath : a.path <+: s.path := h.innermost a.site (List.mem_map_of_mem ha') ha har.prefix_path e.site
    (List.mem_map_of_mem he) hdeclares ((mem_ancestors_iff he).1 hae).2.prefix_path
  exact ((encloses_iff_path ha' hs).2 hpath).mem_ancestors

/-- The use shares this scope with the declaration that is meant. -/
theorem sharedScope_of_meant (hd : d ∈ t.foci) : SharedScope r d s where
  isScope := h.scope.2
  left := ((encloses_iff_path hs hr).2 h.around).mem_ancestors
  right := ((encloses_iff_path hs hd).2 h.inside).mem_ancestors
  innermost := fun _ ha har had => outside_of_meant hr hs h ha har hd h.declares had

end Meant

end Focus

/-! ## Resolution in parses -/

section Parses

variable {source : String} {settings : Settings} {p : Parse} {f : Focus}

/-- The root of a parse is a scope. -/
theorem isScope_of_parse (hp : parse source settings = .ok p) : p.tree.kind.isScope = true := by
  obtain ⟨q, hq, -, hkind, -⟩ := parseTokens_conforms (tiles_lex source) (fun _ => isToken_of_mem_lex)
    (fun _ => dashed_of_mem_lex) settings
  rw [parse, hq] at hp
  cases hp
  rw [← kind_withoutTrivia, hkind]
  rfl

/-- Names, declared or used, have an identifier. -/
theorem exists_word (hp : parse source settings = .ok p) (hf : f ∈ p.tree.foci) {k : Kind} {cs : List Tree}
    (hnode : f.tree = .node k cs) (hk : k = .name ∨ k = .nameRef) :
    ∃ text, ident? cs = some text ∧ f.tree.size ≠ 0 := by
  obtain ⟨q, hq, gaps, hconforms, -⟩ := parse_conforms source settings
  obtain rfl : p = q := Except.ok.inj (hp.symm.trans hq)
  have hproduction : Grammar.production gaps k = Grammar.token .ident := by rcases hk with rfl | rfl <;> rfl
  obtain ⟨as, text, bs, rfl, -⟩ := exists_ident_of_mem hconforms hf hproduction hnode
  have hsome : (ident? (as ++ .leaf .ident text :: bs)).isSome := by
    rw [ident?, List.findSome?_isSome_iff]
    exact ⟨.leaf .ident text, by simp, rfl⟩
  obtain ⟨word, hword⟩ := Option.isSome_iff_exists.1 hsome
  refine ⟨word, hword, ?_⟩
  obtain ⟨⟨ls, rs, haround⟩, hreplace⟩ := around_of_mem_foci hf
  have hmem : (.ident, text) ∈ Token.lexemes source.toList := by
    rw [← leaves_of_parse hp, ← hreplace, Focus.replace, haround.leaves, hnode, Tree.leaves, leavesOfList_append,
      leavesOfList, Tree.leaves]
    simp
  obtain ⟨token, htoken, hleaf⟩ := List.mem_map.1 hmem
  have hfilled := (tiles_lex source).filled token htoken
  rw [(Prod.mk.inj hleaf).2, Ne, ← String.utf8ByteSize_eq_zero_iff] at hfilled
  rw [hnode, Tree.size, Tree.sizeOfList_append, sizeOfList, Tree.size]
  omega

/-- A use has its identifier. -/
theorem used?_isSome (hp : parse source settings = .ok p) (hf : f ∈ p.tree.foci) {u : Node .nameRef}
    (hu : f.located.as? .nameRef = some u) : u.used?.isSome := by
  obtain ⟨text, htext, -⟩ := exists_word hp hf (Focus.tree_of_as? hu) (.inr rfl)
  rw [← u.map_token?_ident] at htext
  obtain ⟨token, htoken, -⟩ := Option.map_eq_some_iff.1 htext
  exact Option.isSome_iff_exists.2 ⟨token, htoken⟩

/-- A declaration stands in one place. -/
theorem eq_of_name (hp : parse source settings = .ok p) {d e : Focus} (hd : d ∈ p.tree.foci) (he : e ∈ p.tree.foci)
    {n : Node .name} (hdn : d.located.as? .name = some n) (hen : e.located.as? .name = some n) : e = d := by
  obtain ⟨-, -, hsize⟩ := exists_word hp he (Focus.tree_of_as? hen) (.inl rfl)
  have hlocated : e.located = d.located := (Focus.as?_eq_some_iff.1 hen).trans (Focus.as?_eq_some_iff.1 hdn).symm
  exact Focus.eq_of_located he hd hlocated hsize

/-- **Resolution finds the nearest declaration**, and of several in the same scope the first. -/
theorem resolve_nearest (source : String) (settings : Settings) : ∃ p, parse source settings = .ok p ∧
    ∀ r ∈ p.tree.foci, ∀ u, r.located.as? .nameRef = some u →
      (r.resolve? = none ↔ r.parentKind? = some .indexExpression ∨
        ∀ d ∈ p.tree.foci, ∀ n, d.located.as? .name = some n → n.declaredText ≠ u.usedText) ∧
      ∀ n, r.resolve? = some n → n.declaredText = u.usedText ∧
        ∃ i d, p.tree.foci[i]? = some d ∧ d.located.as? .name = some n ∧
          (∀ e ∈ p.tree.foci, e.located.as? .name = some n → e = d) ∧
          ∀ (j : Nat) (d' : Focus) (n' : Node .name), p.tree.foci[j]? = some d' → d'.located.as? .name = some n' →
            n'.declaredText = u.usedText →
            ∃ s s', Focus.SharedScope r d s ∧ Focus.SharedScope r d' s' ∧ (s ∈ s'.ancestors → s' = s) ∧
              (s' = s → i ≤ j) := by
  obtain ⟨p, hp, -⟩ := parse_conforms source settings
  refine ⟨p, hp, fun r hr u hu => ⟨?_, fun n hn => ?_⟩⟩
  · rw [Focus.resolve?_eq_none_iff hr (isScope_of_parse hp) hu (used?_isSome hp hr hu)]
    refine or_congr_right (forall₂_congr fun d hd => ?_)
    rw [Focus.declares_iff hd, not_exists]
    exact forall_congr' fun n => not_and
  · obtain ⟨i, s, d, hd, hdn, hs, hmeant⟩ := Focus.meant_of_resolve? hr hu (used?_isSome hp hr hu) hn
    have hmem := List.mem_of_getElem? hd
    have hword : r.site.word = u.usedText := Focus.word_of_nameRef hu
    refine ⟨?_, i, d, hd, hdn, fun e he hen => eq_of_name hp hmem he hdn hen, fun j d' n' hd' hdn' htext => ?_⟩
    · rw [← Focus.word_of_name hdn, ← hword]
      exact hmeant.declares.2
    have hmem' := List.mem_of_getElem? hd'
    have hdeclares : d'.site.Declares r.site.word := hword ▸ (Focus.declares_iff hmem').2 ⟨n', hdn', htext⟩
    obtain ⟨s', hshared⟩ := Focus.exists_sharedScope (isScope_of_parse hp) hr hmem'
    have houtside : s' ∈ s.ancestors :=
      Focus.outside_of_meant hr hs hmeant hshared.isScope hshared.left hmem' hdeclares hshared.right
    obtain ⟨hs', hencloses⟩ := (Focus.mem_ancestors_iff hs).1 houtside
    refine ⟨s, s', Focus.sharedScope_of_meant hr hs hmeant hmem, hshared, fun hinside => ?_, ?_⟩
    · exact hencloses.antisymm ((Focus.mem_ancestors_iff hs').1 hinside).2
    · rintro rfl
      have hinside := ((Focus.mem_ancestors_iff hmem').1 hshared.right).2.prefix_path
      exact hmeant.first j d'.site (getElem?_sites.2 ⟨d', hd', rfl⟩) hdeclares hinside

end Parses

end LuaTree
