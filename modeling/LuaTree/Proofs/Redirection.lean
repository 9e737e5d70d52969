import LuaTree.Proofs.Identifiers
import LuaTree.Proofs.Resolution

/-!
# Proofs/Redirection — what a renaming does to the uses of other declarations

A renaming changes the word of one site (`sites_rename`).  If no use has the new name, one declaration less is in
question for the uses of the old name and none more for the others, so whatever else is meant stays so
(`Site.Meant.rename`).
-/

namespace LuaTree

open LuaTree.Tree

/-! ## The sites below a node -/

namespace Tree

mutual

/-- The sites of a part by its path and the kind of the node around it. -/
def sitesFrom (path : List Nat) (parent? : Option Kind) : Tree → List Site
  | leaf .. => []
  | node k cs => ⟨path, k, parent?, (ident? cs).getD ""⟩ :: sitesOfRow path k 0 cs

/-- The sites of the children from number `i` on. -/
def sitesOfRow (path : List Nat) (k : Kind) (i : Nat) : List Tree → List Site
  | [] => []
  | t :: ts => t.sitesFrom (path ++ [i]) (some k) ++ sitesOfRow path k (i + 1) ts

end

mutual

theorem map_site_allFrom : ∀ (t : Tree) (above : List Frame) (start : Nat),
    (Focus.allFrom above start t).map Focus.site = t.sitesFrom (Frame.path above) (above.head?.map Frame.kind)
  | leaf .., _, _ => rfl
  | node k cs, above, start => by
    rw [Focus.allFrom, List.map_cons, map_site_allOfRow, sitesFrom]
    rfl

theorem map_site_allOfRow : ∀ (ts : List Tree) (above : List Frame) (k : Kind) (start : Nat) (left : List Tree)
    (offset : Nat), (Focus.allOfRow above k start left offset ts).map Focus.site =
      sitesOfRow (Frame.path above) k left.length ts
  | [], _, _, _, _, _ => rfl
  | t :: ts, above, k, start, left, offset => by
    rw [Focus.allOfRow, List.map_append, map_site_allFrom, map_site_allOfRow, sitesOfRow]
    simp [Frame.path]

end

theorem sites_eq (t : Tree) : t.sites = t.sitesFrom [] none := map_site_allFrom t [] 0

theorem sitesOfRow_append {path : List Nat} {k : Kind} {ts us : List Tree} : ∀ {i : Nat},
    sitesOfRow path k i (ts ++ us) = sitesOfRow path k i ts ++ sitesOfRow path k (i + ts.length) us := by
  induction ts with
  | nil => exact rfl
  | cons t ts ih =>
    intro i
    rw [List.cons_append, sitesOfRow, ih, sitesOfRow, List.append_assoc, List.length_cons, Nat.add_assoc,
      Nat.add_comm 1]

mutual

theorem path_of_mem_sitesFrom : ∀ {t : Tree} {path : List Nat} {parent? : Option Kind} {x : Site},
    x ∈ t.sitesFrom path parent? → path <+: x.path
  | leaf .., _, _, _, hx => nomatch hx
  | node k cs, path, parent?, x, hx => by
    rcases List.mem_cons.1 hx with rfl | hx
    · exact List.prefix_rfl
    · obtain ⟨j, -, -, hj⟩ := path_of_mem_sitesOfRow hx
      exact (List.prefix_append ..).trans hj

theorem path_of_mem_sitesOfRow : ∀ {ts : List Tree} {path : List Nat} {k : Kind} {i : Nat} {x : Site},
    x ∈ sitesOfRow path k i ts → ∃ j, i ≤ j ∧ j < i + ts.length ∧ path ++ [j] <+: x.path
  | [], _, _, _, _, hx => nomatch hx
  | t :: ts, path, k, i, x, hx => by
    rw [List.length_cons]
    rcases List.mem_append.1 hx with hx | hx
    · exact ⟨i, Nat.le_refl i, by omega, path_of_mem_sitesFrom hx⟩
    · obtain ⟨j, hij, hj, hpath⟩ := path_of_mem_sitesOfRow hx
      exact ⟨j, by omega, by omega, hpath⟩

end

end Tree

/-! ## Another word for a site -/

namespace Site

variable {path : List Nat} {name word : String} {x : Site}

/-- The site with another word, if it is at a path. -/
def rename (path : List Nat) (name : String) (x : Site) : Site := if x.path = path then { x with word := name } else x

@[simp] theorem path_rename : (x.rename path name).path = x.path := by unfold rename; split <;> rfl

@[simp] theorem kind_rename : (x.rename path name).kind = x.kind := by unfold rename; split <;> rfl

theorem rename_of_ne (h : x.path ≠ path) : x.rename path name = x := if_neg h

theorem map_rename_of_ne {xs : List Site} (h : ∀ x ∈ xs, x.path ≠ path) : xs.map (rename path name) = xs :=
  (List.map_congr_left fun x hx => rename_of_ne (h x hx)).trans (List.map_id _)

/-- A word that is not the new one is declared by sites that declared it before. -/
theorem declares_of_rename (hword : word ≠ name) (h : (x.rename path name).Declares word) :
    x.Declares word ∧ x.path ≠ path := by
  unfold rename at h
  split at h
  · exact absurd h.2.symm hword
  · rename_i hne
    exact ⟨h, hne⟩

end Site

namespace Tree

variable {path : List Nat} {name : String}

/-- The sites of the children are at other paths than those of a sibling. -/
theorem path_ne_of_mem_sitesOfRow {k : Kind} {i n : Nat} {ts : List Tree} {x : Site} {target : List Nat}
    (htarget : path ++ [n] <+: target) (hn : n < i ∨ i + ts.length ≤ n) (hx : x ∈ sitesOfRow path k i ts) :
    x.path ≠ target := by
  rintro rfl
  obtain ⟨j, hij, hj, hpath⟩ := path_of_mem_sitesOfRow hx
  have heq := (List.prefix_of_prefix_length_le hpath htarget (by simp)).eq_of_length (by simp)
  obtain rfl : j = n := by simpa using heq
  omega

theorem path_ne_of_mem_children {k : Kind} {i : Nat} {ts : List Tree} {x : Site} (hx : x ∈ sitesOfRow path k i ts) :
    x.path ≠ path := by
  rintro rfl
  obtain ⟨j, -, -, hpath⟩ := path_of_mem_sitesOfRow hx
  have hlength := hpath.length_le
  rw [List.length_append, List.length_singleton] at hlength
  omega

/-- The first identifier among the children does not depend on a node. -/
theorem ident?_node {k l : Kind} {cs ds as bs : List Tree} :
    ident? (as ++ node k cs :: bs) = ident? (as ++ node l ds :: bs) := by
  simp only [ident?, List.findSome?_append, List.findSome?_cons]

/-- **A change of the sites of one node is the same change of the sites of the tree.** -/
theorem sites_foldl_fill {target : List Nat} : ∀ {above : List Frame} {t u : Tree},
    Frame.path above <+: target → (∃ k cs, t = node k cs) → (∃ k cs, u = node k cs) →
    u.sitesFrom (Frame.path above) (above.head?.map Frame.kind) =
      (t.sitesFrom (Frame.path above) (above.head?.map Frame.kind)).map (Site.rename target name) →
    (above.foldl (fun t frame => frame.fill t) u).sites =
      (above.foldl (fun t frame => frame.fill t) t).sites.map (Site.rename target name)
  | [], t, u, _, _, _, h => by
    rw [List.foldl_nil, List.foldl_nil, sites_eq, sites_eq]
    exact h
  | frame :: above, t, u, htarget, ht, hu, h => by
    have hpath : Frame.path (frame :: above) = Frame.path above ++ [frame.left.length] := by simp [Frame.path]
    rw [hpath] at htarget h
    have hfill (v : Tree) : ∃ k cs, frame.fill v = node k cs := ⟨_, _, rfl⟩
    rw [List.foldl_cons, List.foldl_cons]
    refine sites_foldl_fill ((List.prefix_append ..).trans htarget) (hfill t) (hfill u) ?_
    have hhead (k : Kind) (parent? : Option Kind) (word : String) :
        Site.rename target name ⟨Frame.path above, k, parent?, word⟩ = ⟨Frame.path above, k, parent?, word⟩ := by
      refine Site.rename_of_ne fun heq => ?_
      have hlength := htarget.length_le
      rw [← heq, List.length_append, List.length_singleton] at hlength
      exact absurd hlength (Nat.not_succ_le_self _)
    have hword : ident? (frame.left.reverse ++ u :: frame.right) = ident? (frame.left.reverse ++ t :: frame.right) := by
      obtain ⟨k, cs, rfl⟩ := ht
      obtain ⟨l, ds, rfl⟩ := hu
      exact ident?_node
    have hleft : (sitesOfRow (Frame.path above) frame.kind 0 frame.left.reverse).map (Site.rename target name) =
        sitesOfRow (Frame.path above) frame.kind 0 frame.left.reverse :=
      Site.map_rename_of_ne fun x hx => path_ne_of_mem_sitesOfRow htarget (.inr (by simp)) hx
    have hright : (sitesOfRow (Frame.path above) frame.kind (frame.left.length + 1) frame.right).map
        (Site.rename target name) = sitesOfRow (Frame.path above) frame.kind (frame.left.length + 1) frame.right :=
      Site.map_rename_of_ne fun x hx => path_ne_of_mem_sitesOfRow htarget (.inl (Nat.lt_succ_self _)) hx
    simp only [Frame.fill, sitesFrom, sitesOfRow_append, sitesOfRow, List.map_cons, List.map_append, Nat.zero_add,
      List.length_reverse, hword, hleft, hright, hhead]
    rw [show u.sitesFrom _ (some frame.kind) = _ from h]
    rfl

/-- Behind strays is the first identifier. -/
theorem ident?_strays {as bs : List Tree} {text : String} (h : ∀ a ∈ as, a.isStray = true) :
    ident? (as ++ leaf .ident text :: bs) = some text := by
  induction as with
  | nil => rfl
  | cons a as ih =>
    obtain ⟨ha, has⟩ := List.forall_mem_cons.1 h
    rw [← ih has, ident?, List.cons_append, List.findSome?_cons]
    split
    · rename_i heq
      split at heq
      · cases ha
      · cases heq
    · rfl

end Tree

/-! ## Renaming a declaration -/

section Parses

variable {source name : String} {settings : Settings} {p : Parse} {d : Focus} {t : Tree}

/-- **A renaming gives another word to the site of the declaration** and leaves all others as they are. -/
theorem sites_rename (hp : parse source settings = .ok p) (hd : d ∈ p.tree.foci) (h : d.rename name = .ok t) :
    t.sites = p.tree.sites.map (Site.rename d.path name) := by
  obtain ⟨cs, hnode, -, -, rfl⟩ := node_of_rename h
  obtain ⟨q, hq, gaps, hconforms, -⟩ := parse_conforms source settings
  obtain rfl : p = q := Except.ok.inj (hp.symm.trans hq)
  obtain ⟨as, old, bs, rfl, hstrays⟩ := exists_ident_of_mem hconforms hd rfl hnode
  have hbefore : ∀ a ∈ as, a.isStray = true := (List.forall_mem_append.1 hstrays).1
  rw [renameFirst_strays name hbefore]
  obtain ⟨-, hreplace⟩ := around_of_mem_foci hd
  conv_rhs => rw [← hreplace, hnode]
  refine sites_foldl_fill List.prefix_rfl ⟨_, _, rfl⟩ ⟨_, _, rfl⟩ ?_
  simp only [sitesFrom, ident?_strays hbefore, sitesOfRow_append, sitesOfRow, List.map_cons]
  have hchildren {i : Nat} {ts : List Tree} : (sitesOfRow (Frame.path d.above) .name i ts).map
      (Site.rename d.path name) = sitesOfRow (Frame.path d.above) .name i ts :=
    Site.map_rename_of_ne fun x hx => path_ne_of_mem_children hx
  rw [List.map_append, List.nil_append, hchildren, hchildren]
  exact congrArg (· :: _) (if_pos rfl).symm

/-- A declaration takes any identifier. -/
theorem exists_rename (hp : parse source settings = .ok p) (hd : d ∈ p.tree.foci) (hkind : d.kind = .name)
    (hname : IsIdentifier name) : ∃ t, d.rename name = .ok t := by
  obtain ⟨q, hq, gaps, hconforms, -⟩ := parse_conforms source settings
  obtain rfl : p = q := Except.ok.inj (hp.symm.trans hq)
  obtain ⟨n, hn⟩ := Focus.exists_as? hd hkind
  have hnode := Focus.tree_of_as? hn
  obtain ⟨as, old, bs, hcs, hstrays⟩ := exists_ident_of_mem hconforms hd rfl hnode
  rw [hcs] at hnode
  have hdeclared : Node.declared? ⟨d.start, as ++ leaf .ident old :: bs⟩ = _ :=
    declared?_strays (List.forall_mem_append.1 hstrays).1 d.start
  rw [Focus.rename_of_declared hnode hdeclared, if_pos (isIdentifier_iff.2 hname)]
  exact ⟨_, rfl⟩

/-! ## Uses and declarations -/

/-- **One node refers to another one**, both by their numbers in preorder: resolution finds it. -/
def Tree.RefersTo (t : Tree) (i j : Nat) : Prop :=
  ∃ r d n, t.foci[i]? = some r ∧ t.foci[j]? = some d ∧ r.resolve? = some n ∧ d.located.as? .name = some n

/-- A node has one number in preorder. -/
theorem Focus.index_unique {f : Focus} {i j : Nat} (hi : t.foci[i]? = some f) (hj : t.foci[j]? = some f) : i = j := by
  obtain ⟨hlt, -⟩ := List.getElem?_eq_some_iff.1 hi
  exact (List.getElem?_inj hlt (nodup_foci t)).1 (hi.trans hj.symm)

theorem Focus.nameRef_of_resolve? {r : Focus} {n : Node .name} (h : r.resolve? = some n) :
    r.parentKind? ≠ some .indexExpression ∧ ∃ u, r.located.as? .nameRef = some u := by
  have hparent : r.parentKind? ≠ some .indexExpression := fun hindex => by simp [resolve?_of_index hindex] at h
  rw [resolve?, if_neg hparent] at h
  obtain ⟨u, hu, -⟩ := Option.bind_eq_some_iff.1 h
  exact ⟨hparent, u, hu⟩

/-- **Whether a use is resolved can be told from the sites.** -/
theorem resolve?_eq_none_iff_sites (hp : parse source settings = .ok p) {r : Focus} (hr : r ∈ p.tree.foci)
    (hkind : r.kind = .nameRef) : r.resolve? = none ↔ r.parentKind? = some .indexExpression ∨
      ∀ d ∈ p.tree.sites, ¬ d.Declares r.site.word := by
  obtain ⟨u, hu⟩ := Focus.exists_as? hr hkind
  have hword : r.site.word = u.usedText := Focus.word_of_nameRef hu
  rw [Focus.resolve?_eq_none_iff hr (isScope_of_parse hp) hu (used?_isSome hp hr hu), hword, Tree.sites,
    List.forall_mem_map]

/-- **What a use refers to can be told from the sites.** -/
theorem refersTo_iff (hp : parse source settings = .ok p) {i j : Nat} : p.tree.RefersTo i j ↔
    ∃ r, p.tree.sites[i]? = some r ∧ r.kind = .nameRef ∧ r.parent? ≠ some .indexExpression ∧
      ∃ s d, Site.Meant p.tree.sites r j s d := by
  constructor
  · rintro ⟨r, d, n, hr, hd, hn, hdn⟩
    obtain ⟨hparent, u, hu⟩ := Focus.nameRef_of_resolve? hn
    have hmem := List.mem_of_getElem? hr
    obtain ⟨i', s, d', hd', hdn', -, hmeant⟩ := Focus.meant_of_resolve? hmem hu (used?_isSome hp hmem hu) hn
    obtain rfl : d = d' := eq_of_name hp (List.mem_of_getElem? hd') (List.mem_of_getElem? hd) hdn' hdn
    obtain rfl : j = i' := Focus.index_unique hd hd'
    exact ⟨r.site, getElem?_sites.2 ⟨r, hr, rfl⟩, Focus.kind_of_as? hu, hparent, s.site, d.site, hmeant⟩
  · rintro ⟨x, hx, hkind, hparent, s, d, hmeant⟩
    obtain ⟨r, hr, rfl⟩ := getElem?_sites.1 hx
    have hmem := List.mem_of_getElem? hr
    obtain ⟨u, hu⟩ := Focus.exists_as? hmem hkind
    have hresolved : r.resolve? ≠ none := by
      rw [Ne, resolve?_eq_none_iff_sites hp hmem hkind, not_or, not_forall₂]
      exact ⟨hparent, d, List.mem_of_getElem? hmeant.declaration, not_not.2 hmeant.declares⟩
    obtain ⟨n, hn⟩ := Option.ne_none_iff_exists'.1 hresolved
    obtain ⟨i', s', d', hd', hdn', -, hmeant'⟩ := Focus.meant_of_resolve? hmem hu (used?_isSome hp hmem hu) hn
    obtain rfl : j = i' := hmeant.unique hmeant'
    exact ⟨r, d', n, hr, hd', hn, hdn'⟩

end Parses

/-- **With a declaration less**, what else is meant stays so. -/
theorem Site.Meant.rename {sites : List Site} {path : List Nat} {name : String} {r s d : Site} {i : Nat}
    (h : Site.Meant sites r i s d) (hword : r.word ≠ name) (hd : d.path ≠ path) :
    Site.Meant (sites.map (Site.rename path name)) r i (s.rename path name) d := by
  exact {
    scope := ⟨List.mem_map_of_mem h.scope.1, by rw [kind_rename]; exact h.scope.2⟩
    around := by rw [path_rename]; exact h.around
    declaration := by rw [List.getElem?_map, h.declaration, Option.map_some, rename_of_ne hd]
    declares := h.declares
    inside := by rw [path_rename]; exact h.inside
    first := fun j e he hdeclares hinside => by
      rw [List.getElem?_map] at he
      obtain ⟨e', he', rfl⟩ := Option.map_eq_some_iff.1 he
      rw [path_rename, path_rename] at hinside
      exact h.first j e' he' (declares_of_rename hword hdeclares).1 hinside
    innermost := fun s' hs' hscope haround e he hdeclares hinside => by
      obtain ⟨a, ha, rfl⟩ := List.mem_map.1 hs'
      obtain ⟨e', he', rfl⟩ := List.mem_map.1 he
      rw [kind_rename] at hscope
      rw [path_rename] at haround
      rw [path_rename, path_rename] at hinside ⊢
      exact h.innermost a ha hscope haround e' he' (declares_of_rename hword hdeclares).1 hinside }

section Renamed

variable {source source' name : String} {settings settings' : Settings} {p q : Parse} {path : List Nat} {i j : Nat}
  {x y : Site}

theorem site_of_renamed (hsites : q.tree.sites = p.tree.sites.map (Site.rename path name))
    (hx : p.tree.sites[i]? = some x) : q.tree.sites[i]? = some (x.rename path name) := by
  rw [hsites, List.getElem?_map, hx, Option.map_some]

/-- **What refers to another declaration** keeps referring to it. -/
theorem refersTo_of_renamed (hp : parse source settings = .ok p) (hq : parse source' settings' = .ok q)
    (hsites : q.tree.sites = p.tree.sites.map (Site.rename path name)) (hx : p.tree.sites[i]? = some x)
    (hne : x.path ≠ path) (hword : x.word ≠ name) (hother : ∀ y, p.tree.sites[j]? = some y → y.path ≠ path)
    (h : p.tree.RefersTo i j) : q.tree.RefersTo i j := by
  obtain ⟨r, hr, hkind, hparent, s, d, hmeant⟩ := (refersTo_iff hp).1 h
  obtain rfl : r = x := Option.some.inj (hr.symm.trans hx)
  have hr' := site_of_renamed hsites hx
  rw [Site.rename_of_ne hne] at hr'
  refine (refersTo_iff hq).2 ⟨r, hr', hkind, hparent, s.rename path name, d, ?_⟩
  rw [hsites]
  exact hmeant.rename hword (hother d hmeant.declaration)

/-- **Nothing refers to the renamed declaration.** -/
theorem not_refersTo_renamed (hq : parse source settings = .ok q)
    (hsites : q.tree.sites = p.tree.sites.map (Site.rename path name)) (hx : p.tree.sites[i]? = some x)
    (hne : x.path ≠ path) (hword : x.word ≠ name) (hy : p.tree.sites[j]? = some y) (hat : y.path = path) :
    ¬ q.tree.RefersTo i j := by
  intro h
  obtain ⟨r, hr, -, -, s, d, hmeant⟩ := (refersTo_iff hq).1 h
  have hr' := site_of_renamed hsites hx
  rw [Site.rename_of_ne hne] at hr'
  obtain rfl : r = x := Option.some.inj (hr.symm.trans hr')
  have hd := hmeant.declaration.symm.trans (site_of_renamed hsites hy)
  have hdeclares := hmeant.declares
  rw [Option.some.inj hd] at hdeclares
  exact (Site.declares_of_rename hword hdeclares).2 hat

/-- **What is not resolved** stays so. -/
theorem unresolved_of_renamed (hp : parse source settings = .ok p) (hq : parse source' settings' = .ok q)
    (hsites : q.tree.sites = p.tree.sites.map (Site.rename path name)) {r r' : Focus} (hr : r ∈ p.tree.foci)
    (hr' : r' ∈ q.tree.foci) (hkind : r.kind = .nameRef) (hsite : r'.site = r.site) (hword : r.site.word ≠ name)
    (hnone : r.resolve? = none) : r'.resolve? = none := by
  have hkind' : r'.kind = .nameRef := (congrArg Site.kind hsite).trans hkind
  have hparent : r'.parentKind? = r.parentKind? := congrArg Site.parent? hsite
  rw [resolve?_eq_none_iff_sites hp hr hkind] at hnone
  rw [resolve?_eq_none_iff_sites hq hr' hkind', hparent, hsite, hsites, List.forall_mem_map]
  exact hnone.imp_right fun h d hd hdeclares => h d hd (Site.declares_of_rename hword hdeclares).1

end Renamed

/-- **Renaming a declaration redirects no other use**, if no use has the new name: uses of other declarations keep
referring to them, uses that are not resolved stay so, and no use refers to the renamed declaration any more. -/
theorem rename_redirects_nothing (source : String) (settings : Settings) : ∃ p, parse source settings = .ok p ∧
    ∀ (k : Nat) (d : Focus), p.tree.foci[k]? = some d → d.kind = .name → ∀ name, IsIdentifier name →
      (∀ r ∈ p.tree.foci, ∀ u, r.located.as? .nameRef = some u → u.usedText ≠ name) →
      ∃ t, d.rename name = .ok t ∧ t.foci.map Focus.kind = p.tree.foci.map Focus.kind ∧
        ∀ (i : Nat) (r r' : Focus), p.tree.foci[i]? = some r → t.foci[i]? = some r' → r.kind = .nameRef →
          (∀ j ≠ k, p.tree.RefersTo i j → t.RefersTo i j) ∧ (r.resolve? = none → r'.resolve? = none) ∧
            ¬ t.RefersTo i k := by
  obtain ⟨p, hp, -⟩ := parse_conforms source settings
  refine ⟨p, hp, fun k d hd hkind name hname hfree => ?_⟩
  have hmem := List.mem_of_getElem? hd
  obtain ⟨t, ht⟩ := exists_rename hp hmem hkind hname
  have hsites := sites_rename hp hmem ht
  obtain ⟨-, q, hq, rfl⟩ := parse_of_rename hp hmem ht
  refine ⟨q.tree, ht, ?_, fun i r r' hr hr' hrkind => ?_⟩
  · have hkinds (t : Tree) : t.foci.map Focus.kind = t.sites.map Site.kind := by
      rw [Tree.sites, List.map_map]
      rfl
    rw [hkinds, hkinds, hsites, List.map_map]
    exact List.map_congr_left fun x _ => Site.kind_rename
  have hrmem := List.mem_of_getElem? hr
  have hx : p.tree.sites[i]? = some r.site := getElem?_sites.2 ⟨r, hr, rfl⟩
  -- the use is another node than the declaration, and has another word than the new one
  have hne : r.site.path ≠ d.path := fun hpath => by
    obtain rfl := Focus.eq_of_path hrmem hmem hpath
    exact absurd (hkind.symm.trans hrkind) (by decide)
  have hword : r.site.word ≠ name := by
    obtain ⟨u, hu⟩ := Focus.exists_as? hrmem hrkind
    exact fun h => hfree r hrmem u hu ((Focus.word_of_nameRef hu).symm.trans h)
  have hy : p.tree.sites[k]? = some d.site := getElem?_sites.2 ⟨d, hd, rfl⟩
  refine ⟨fun j hj hrefers => ?_, ?_, not_refersTo_renamed hq hsites hx hne hword hy rfl⟩
  · refine refersTo_of_renamed hp hq hsites hx hne hword (fun y hy hpath => ?_) hrefers
    obtain ⟨e, he, rfl⟩ := getElem?_sites.1 hy
    obtain rfl := Focus.eq_of_path (List.mem_of_getElem? he) hmem hpath
    exact hj (Focus.index_unique he hd)
  · obtain ⟨f, hf, hsite⟩ := getElem?_sites.1 (site_of_renamed hsites hx)
    obtain rfl : f = r' := Option.some.inj (hf.symm.trans hr')
    rw [Site.rename_of_ne hne] at hsite
    exact unresolved_of_renamed hp hq hsites hrmem (List.mem_of_getElem? hr') hrkind hsite hword

end LuaTree
