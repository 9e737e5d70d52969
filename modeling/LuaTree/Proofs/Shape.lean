import LuaTree.Proofs.Abreast.Parse
import LuaTree.Proofs.Troubles

/-!
# Proofs/Shape — the shape of a tree depends on the kinds of all tokens

The **shape** of a tree is the tree without the texts of its leaves.  A tree is its shape and its leaves
(`Tree.eq_of_shape`).  Where trivia goes is told by the tree without trivia alone: `Tree.dress` puts it back,
in front of the node or token that follows it.  So two sources whose tokens, trivia and all, have the same
kinds have trees of one shape (`shape_of_kinds`).
-/

namespace LuaTree

open LuaTree.Parser

namespace Tree

/-! ## Shapes -/

mutual

/-- **The tree without texts.** -/
def shape : Tree → Tree
  | leaf k _ => leaf k ""
  | node k cs => node k (shapeOfList cs)

/-- The shapes of trees that stand one after the other. -/
def shapeOfList : List Tree → List Tree
  | [] => []
  | t :: ts => t.shape :: shapeOfList ts

end

@[simp] theorem shapeOfList_append (ts us : List Tree) :
    shapeOfList (ts ++ us) = shapeOfList ts ++ shapeOfList us := by
  induction ts with
  | nil => rfl
  | cons t ts ih => rw [List.cons_append, shapeOfList, shapeOfList, ih, List.cons_append]

theorem shapeOfList_map_tree (ts : List Token) :
    shapeOfList (ts.map Token.tree) = (ts.map Token.kind).map (leaf · "") := by
  induction ts with
  | nil => rfl
  | cons t ts ih => exact congrArg (leaf t.kind "" :: ·) ih

/-- Tokens of the same kinds have the same shapes. -/
theorem shape_of_tokens {ts us : List Token} (h : ts.map Token.kind = us.map Token.kind) :
    shapeOfList (ts.map Token.tree) = shapeOfList (us.map Token.tree) := by
  rw [shapeOfList_map_tree, shapeOfList_map_tree, h]

mutual

theorem leaves_shape : ∀ t : Tree, t.shape.leaves = t.leaves.map fun l => (l.1, "")
  | leaf .. => rfl
  | node _ cs => leaves_shapeOfList cs

theorem leaves_shapeOfList : ∀ ts : List Tree,
    leavesOfList (shapeOfList ts) = (leavesOfList ts).map fun l => (l.1, "")
  | [] => rfl
  | t :: ts => by
    rw [shapeOfList, leavesOfList, leavesOfList, List.map_append, leaves_shape t, leaves_shapeOfList ts]

end

mutual

theorem eq_of_shape_append : ∀ {t u : Tree} {as bs : List (Kind × String)}, t.shape = u.shape →
    t.leaves ++ as = u.leaves ++ bs → t = u ∧ as = bs
  | leaf k s, leaf l r, as, bs, _, hleaves => by
    obtain ⟨hl, has⟩ := List.cons.inj (show (k, s) :: as = (l, r) :: bs from hleaves)
    obtain ⟨rfl, rfl⟩ := Prod.mk.inj hl
    exact ⟨rfl, has⟩
  | leaf .., node .., _, _, hshape, _ | node .., leaf .., _, _, hshape, _ => nomatch hshape
  | node k cs, node l ds, as, bs, hshape, hleaves => by
    obtain ⟨hk, hshape⟩ := Tree.node.inj hshape
    obtain ⟨hcs, has⟩ := eq_of_shapeOfList_append hshape hleaves
    exact ⟨by rw [hk, hcs], has⟩

theorem eq_of_shapeOfList_append : ∀ {ts us : List Tree} {as bs : List (Kind × String)},
    shapeOfList ts = shapeOfList us → leavesOfList ts ++ as = leavesOfList us ++ bs → ts = us ∧ as = bs
  | [], [], _, _, _, hleaves => ⟨rfl, hleaves⟩
  | [], _ :: _, _, _, hshape, _ | _ :: _, [], _, _, hshape, _ => nomatch hshape
  | t :: ts, u :: us, as, bs, hshape, hleaves => by
    obtain ⟨ht, hts⟩ := List.cons.inj hshape
    rw [leavesOfList, leavesOfList, List.append_assoc, List.append_assoc] at hleaves
    obtain ⟨htu, hleaves⟩ := eq_of_shape_append ht hleaves
    obtain ⟨htus, has⟩ := eq_of_shapeOfList_append hts hleaves
    exact ⟨by rw [htu, htus], has⟩

end

/-- **A tree is its shape and its leaves.** -/
theorem eq_of_shape {t u : Tree} (hshape : t.shape = u.shape) (hleaves : t.leaves = u.leaves) : t = u := by
  have happend : t.leaves ++ [] = u.leaves ++ [] := by rw [hleaves]
  exact (eq_of_shape_append hshape happend).1

/-! ## Trivia put back -/

section Dress

variable (tokens : List Token)

mutual

/-- A tree without trivia with the trivia that stands in it and in front of it, from the token with number
`c` on, and the number of the next token. -/
def dress (c : Nat) : Tree → List Tree × Nat
  | leaf .. =>
    let n := (triviaFrom tokens c).length + 1
    (((tokens.drop c).take n).map Token.tree, c + n)
  | node k cs =>
    let trivia := triviaFrom tokens c
    let inside := dressList (c + trivia.length) cs
    (trivia.map Token.tree ++ [node k inside.1], inside.2)

/-- The same for trees that stand one after the other. -/
def dressList (c : Nat) : List Tree → List Tree × Nat
  | [] => ([], c)
  | t :: ts =>
    let first := t.dress c
    let rest := dressList first.2 ts
    (first.1 ++ rest.1, rest.2)

end

theorem dressList_append (c : Nat) (ts us : List Tree) : dressList tokens c (ts ++ us) =
    ((dressList tokens c ts).1 ++ (dressList tokens (dressList tokens c ts).2 us).1,
      (dressList tokens (dressList tokens c ts).2 us).2) := by
  induction ts generalizing c with
  | nil => rfl
  | cons t ts ih => simp only [List.cons_append, dressList, ih, List.append_assoc]

end Dress

variable {tokens tokens' : List Token}

mutual

/-- The texts of a tree do not matter to where trivia goes. -/
theorem dress_shape : ∀ (t : Tree) (c : Nat), t.shape.dress tokens c = t.dress tokens c
  | leaf .., _ => rfl
  | node k cs, c => by simp only [shape, dress, dressList_shape cs]

theorem dressList_shape : ∀ (ts : List Tree) (c : Nat),
    dressList tokens c (shapeOfList ts) = dressList tokens c ts
  | [], _ => rfl
  | t :: ts, c => by simp only [shapeOfList, dressList, dress_shape t, dressList_shape ts]

end

/-- A node takes along the trivia in front of it. -/
theorem dress_of_node {t : Tree} (ht : t.isLeaf = false) (c : Nat) :
    t.dress tokens c = ((triviaFrom tokens c).map Token.tree ++
      (t.dress tokens (c + (triviaFrom tokens c).length)).1,
      (t.dress tokens (c + (triviaFrom tokens c).length)).2) := by
  cases t with
  | leaf => cases ht
  | node k cs =>
    simp only [dress, triviaFrom_triviaFrom, List.map_nil, List.nil_append, List.length_nil, Nat.add_zero]

theorem kinds_triviaFrom (h : tokens.map Token.kind = tokens'.map Token.kind) (c : Nat) :
    (triviaFrom tokens c).map Token.kind = (triviaFrom tokens' c).map Token.kind := by
  have hkinds (tokens : List Token) : (triviaFrom tokens c).map Token.kind =
      ((tokens.map Token.kind).drop c).takeWhile Kind.isTrivia := by
    rw [triviaFrom, ← List.map_drop, List.takeWhile_map]
    rfl
  rw [hkinds, hkinds, h]

theorem length_triviaFrom (h : tokens.map Token.kind = tokens'.map Token.kind) (c : Nat) :
    (triviaFrom tokens c).length = (triviaFrom tokens' c).length := by
  simpa using congrArg List.length (kinds_triviaFrom h c)

mutual

theorem shape_dress (h : tokens.map Token.kind = tokens'.map Token.kind) : ∀ (t : Tree) (c : Nat),
    shapeOfList (t.dress tokens c).1 = shapeOfList (t.dress tokens' c).1 ∧
      (t.dress tokens c).2 = (t.dress tokens' c).2
  | leaf .., c => by
    rw [dress, dress, length_triviaFrom h c]
    exact ⟨shape_of_tokens (by rw [List.map_take, List.map_take, List.map_drop, List.map_drop, h]), rfl⟩
  | node k cs, c => by
    obtain ⟨hshape, hnext⟩ := shape_dressList h cs (c + (triviaFrom tokens' c).length)
    simp only [dress, shapeOfList_append, shapeOfList_map_tree, kinds_triviaFrom h c, length_triviaFrom h c,
      shapeOfList, shape, hshape, hnext, and_self]

/-- Where trivia goes depends on the kinds of the tokens only. -/
theorem shape_dressList (h : tokens.map Token.kind = tokens'.map Token.kind) : ∀ (ts : List Tree) (c : Nat),
    shapeOfList (dressList tokens c ts).1 = shapeOfList (dressList tokens' c ts).1 ∧
      (dressList tokens c ts).2 = (dressList tokens' c ts).2
  | [], _ => ⟨rfl, rfl⟩
  | t :: ts, c => by
    obtain ⟨hshape, hnext⟩ := shape_dress h t c
    obtain ⟨hshape', hnext'⟩ := shape_dressList h ts (t.dress tokens' c).2
    simp only [dressList, shapeOfList_append, hshape, hnext, hshape', hnext', and_self]

end

end Tree

section Growth

variable {tokens : List Token}

mutual

theorem Branch.dress_tree : ∀ (b : Branch) (c : Nat) {R : List (Token × Nat)},
    solidAfter tokens c = b.leaves ++ R → triviaFrom tokens c = [] →
    b.tree.dress tokens c = ([(b.grow tokens c).1], (b.grow tokens c).2)
  | .node k ds, c, R, h, htrivia => by
    simp only [Branch.tree, Tree.dress, htrivia, List.map_nil, List.nil_append, List.length_nil, Nat.add_zero,
      Draft.dress_treesOfList ds c h, Branch.grow]
  | .wrap b k ds, c, R, h, htrivia => by
    rw [Branch.leaves, List.append_assoc] at h
    simp only [Branch.tree, Tree.dress, htrivia, List.map_nil, List.nil_append, List.length_nil, Nat.add_zero,
      Tree.dressList, b.dress_tree c h htrivia, Draft.dress_treesOfList ds _ (b.withoutTrivia_grow c h).2,
      List.singleton_append, Branch.grow]

theorem Draft.dress_trees : ∀ (d : Draft) (c : Nat) {R : List (Token × Nat)},
    solidAfter tokens c = d.leaves ++ R → Tree.dressList tokens c d.trees = d.grow tokens c
  | .blank, _, _, _ => rfl
  | .leaf i t, c, R, h => by
    obtain ⟨rfl, -⟩ := take_of_solidAfter h
    have hn : c + (triviaFrom tokens c).length + 1 - c = (triviaFrom tokens c).length + 1 := by omega
    simp only [Draft.trees, Tree.dressList, Tree.dress, List.append_nil, Draft.grow, hn]
  | .grown b, c, R, h | .wrapping b, c, R, h => by
    rw [← solidAfter_triviaFrom] at h
    simp only [Draft.trees, Tree.dressList, List.append_nil, Tree.dress_of_node b.isLeaf_tree c,
      b.dress_tree _ h (triviaFrom_triviaFrom c), Draft.grow]

/-- **The tree of a record is the tree of its drafts with its trivia put back.** -/
theorem Draft.dress_treesOfList : ∀ (ds : List Draft) (c : Nat) {R : List (Token × Nat)},
    solidAfter tokens c = Draft.leavesOfList ds ++ R →
    Tree.dressList tokens c (Draft.treesOfList ds) = Draft.growList tokens c ds
  | [], _, _, _ => rfl
  | d :: ds, c, R, h => by
    rw [Draft.leavesOfList, List.append_assoc] at h
    rw [Draft.treesOfList, Tree.dressList_append, d.dress_trees c h,
      Draft.dress_treesOfList ds _ (d.withoutTrivia_grow c h).2, Draft.growList]

end

end Growth

/-! ## Two runs over tokens of the same kinds -/

/-- Two runs with tokens of the same kinds ahead, which have built trees of the same shapes. -/
structure Outlook.SameShape (a b : Outlook) (F G : List Draft) : Prop where
  kinds : a.ahead.map (·.1.kind) = b.ahead.map (·.1.kind)
  limitReached : a.limitReached = b.limitReached
  shape : Tree.shapeOfList (Draft.treesOfList F) = Tree.shapeOfList (Draft.treesOfList G)

theorem shape_unknownNodes : ∀ {ls ms : List (Token × Nat)}, ls.map (·.1.kind) = ms.map (·.1.kind) →
    Tree.shapeOfList (Draft.treesOfList (unknownNodes ls)) =
      Tree.shapeOfList (Draft.treesOfList (unknownNodes ms))
  | [], [], _ => rfl
  | [], _ :: _, h | _ :: _, [], h => nomatch h
  | l :: ls, m :: ms, h => by
    obtain ⟨hkind, h⟩ := List.cons.inj h
    dsimp only at hkind
    rw [unknownNodes, unknownNodes, hkind]
    split
    · simp only [Draft.treesOfList, Draft.trees, Branch.tree, Tree.shapeOfList_append, Tree.shapeOfList,
        Tree.shape, List.append_nil, hkind, shape_unknownNodes h]
    · rfl

theorem kinds_dropWhile {ls ms : List (Token × Nat)} (h : ls.map (·.1.kind) = ms.map (·.1.kind)) :
    (ls.dropWhile (·.1.kind = .invalidChar)).map (·.1.kind) =
      (ms.dropWhile (·.1.kind = .invalidChar)).map (·.1.kind) := by
  have hkinds (ls : List (Token × Nat)) : (ls.dropWhile (·.1.kind = .invalidChar)).map (·.1.kind) =
      (ls.map (·.1.kind)).dropWhile (· = .invalidChar) := by
    rw [List.dropWhile_map]
    rfl
  rw [hkinds, hkinds, h]

/-- **The kinds of the tokens are all that a run and its tree depend on.** -/
def Parser.Bond.sameShape {i j : Input} (settings : i.settings = j.settings) : Bond i j where
  Holds _ _ := Outlook.SameShape
  Spans _ _ := True
  settings := settings
  now h := ⟨h.kinds, h.limitReached, rfl⟩
  trans h h' := by
    refine ⟨h'.kinds, h'.limitReached, ?_⟩
    rw [Draft.treesOfList_append, Draft.treesOfList_append, Tree.shapeOfList_append, Tree.shapeOfList_append,
      h.shape, h'.shape]
  blank_left := ⟨fun h => ⟨h.kinds, h.limitReached, h.shape⟩, fun h => ⟨h.kinds, h.limitReached, h.shape⟩⟩
  blank_right := ⟨fun h => ⟨h.kinds, h.limitReached, h.shape⟩, fun h => ⟨h.kinds, h.limitReached, h.shape⟩⟩
  wrapping h := ⟨h.kinds, h.limitReached, h.shape⟩
  close h hd he _ _ := by
    refine ⟨h.kinds, h.limitReached, ?_⟩
    simp only [Draft.treesOfList, Draft.trees, Draft.tree_close hd, Draft.tree_close he]
    exact congrArg (fun ts => [Tree.node _ ts]) h.shape
  kinds h := by
    have hsignificant (a : Outlook) :
        a.significant.map Token.kind = (a.ahead.map (·.1.kind)).filter Kind.isSignificant := by
      rw [← Function.comp_def Token.kind, ← List.map_map, List.filter_map]
      rfl
    rw [hsignificant, hsignificant, h.kinds]
  span _ _ _ := trivial
  spanOf _ _ _ _ _ _ _ _ _ := trivial
  told h _ _ _ _ _ _ := by
    refine ⟨?_, ?_, h.shape⟩
    · simpa only [Outlook.ahead_told] using h.kinds
    · simpa only [Outlook.limitReached_told] using h.limitReached
  settle h _ _ := by
    refine ⟨?_, ?_, shape_unknownNodes h.kinds⟩
    · simpa only [Outlook.ahead_settle] using kinds_dropWhile h.kinds
    · simpa only [Outlook.limitReached_settle] using h.limitReached
  advance h _ _ hl hm := by
    have hkinds := h.kinds
    rw [hl, hm, List.map_cons, List.map_cons, List.cons.injEq] at hkinds
    refine ⟨?_, ?_, ?_⟩
    · rw [Outlook.ahead_advance hl, Outlook.ahead_advance hm, kinds_dropWhile hkinds.2]
    · simpa only [Outlook.limitReached_advance] using h.limitReached
    · simp only [Draft.treesOfList, Draft.trees, Tree.shapeOfList_append, Tree.shapeOfList, Tree.shape,
        hkinds.1, shape_unknownNodes hkinds.2]
  bail {a b} limit h _ _ := by
    have hlimit := h.limitReached
    rw [Outlook.bail, Outlook.bail, Outlook.aside, Outlook.aside, hlimit]
    split
    · exact h
    · refine ⟨rfl, rfl, ?_⟩
      have hrow (ls : List (Token × Nat)) : Tree.shapeOfList (Draft.treesOfList (Draft.row ls)) =
          (ls.map (·.1.kind)).map (Tree.leaf · "") := by
        have hmap := Tree.shapeOfList_map_tree (ls.map Prod.fst)
        simpa only [Draft.treesOfList_row, List.map_map, Function.comp_def] using hmap
      simp only [Draft.treesOfList, Draft.trees, Branch.tree, List.append_nil, Tree.shapeOfList, Tree.shape,
        hrow, h.kinds]

section Parses

variable {source source' : String} {settings : Settings} {p q : Parse}

/-- The tree of a parse is that of its drafts with its trivia put back. -/
theorem Parse.GrowsFrom.tree_eq {tokens : List Token} {a : Outlook} {F : List Draft}
    (hp : p.GrowsFrom tokens a F) : p.tree = .node .chunk
      ((Tree.dressList tokens 0 (Draft.treesOfList F)).1 ++
        (tokens.drop (Tree.dressList tokens 0 (Draft.treesOfList F)).2).map Token.tree) := by
  rw [Draft.dress_treesOfList F 0 hp.solidAfter_eq, hp.tree]

theorem kinds_solidFrom {ts us : List Token} (h : ts.map Token.kind = us.map Token.kind) :
    (solidFrom 0 ts).map (·.1.kind) = (solidFrom 0 us).map (·.1.kind) := by
  have hkinds (ts : List Token) :
      (solidFrom 0 ts).map (·.1.kind) = (ts.map Token.kind).filter (!·.isTrivia) := by
    rw [← Function.comp_def Token.kind, ← List.map_map, map_fst_solidFrom, List.filter_map]
    rfl
  rw [hkinds, hkinds, h]

/-- **Sources whose tokens have the same kinds have trees of one shape**, under the same settings. -/
theorem shape_of_kinds (h : (lex source).map Token.kind = (lex source').map Token.kind)
    (hp : parse source settings = .ok p) (hq : parse source' settings = .ok q) :
    p.tree.shape = q.tree.shape := by
  obtain ⟨a₀, b₀, a, b, F, G, -, -, hholds, hF, hG⟩ :=
    (Bond.sameShape (i := .ofSource source settings) (j := .ofSource source' settings) rfl).parses
      (fun a b ha hb => ⟨by rw [ha.ahead, hb.ahead]; exact kinds_solidFrom h,
        ha.limitReached.trans hb.limitReached.symm, rfl⟩) hp hq
  have hshape := hholds.shape
  simp only [Draft.treesOfList, Draft.trees, Branch.tree, List.append_nil, Tree.shapeOfList, Tree.shape,
    List.cons.injEq, Tree.node.injEq, true_and, and_true] at hshape
  have hsame : Tree.dressList (lex source) 0 (Draft.treesOfList F) =
      Tree.dressList (lex source) 0 (Draft.treesOfList G) := by
    rw [← Tree.dressList_shape, hshape, Tree.dressList_shape]
  obtain ⟨hdress, hnext⟩ := Tree.shape_dressList h (Draft.treesOfList G) 0
  have hrest (n : Nat) : ((lex source).drop n).map Token.kind = ((lex source').drop n).map Token.kind := by
    rw [List.map_drop, List.map_drop, h]
  rw [hF.tree_eq, hG.tree_eq, hsame, Tree.shape, Tree.shape, Tree.shapeOfList_append, Tree.shapeOfList_append,
    hdress, hnext, Tree.shape_of_tokens (hrest _)]

end Parses

end LuaTree
