import LuaTree.Proofs.Abreast.Parse
import LuaTree.Proofs.Placing

/-!
# Proofs/Skeleton — the structure of a tree depends on token kinds only

The **skeleton** of a tree is what stays when trivia, Error nodes and the texts of the leaves are left
out.  Two sources whose significant tokens have the same kinds have trees with one skeleton, and its
leaves are the significant tokens of each source, from the first one on (`skeleton_of_kinds`): comments,
line breaks, unknown characters, names and the values of literals do not matter to the parser.
-/

namespace LuaTree

open LuaTree.Parser

namespace Tree

/-- Whether a tree is trivia or an Error node. -/
def isStray : Tree → Bool
  | leaf k _ => k.isTrivia
  | node k _ => k = .error

mutual

/-- **The tree without trivia, Error nodes and texts.** -/
def skeleton : Tree → Tree
  | leaf k _ => leaf k ""
  | node k cs => node k (skeletonOfList cs)

/-- The skeletons of trees that stand one after the other. -/
def skeletonOfList : List Tree → List Tree
  | [] => []
  | t :: ts => if t.isStray then skeletonOfList ts else t.skeleton :: skeletonOfList ts

end

mutual

/-- The leaves that stay in the skeleton of a tree that starts at an offset, as tokens. -/
def standingFrom (start : Nat) : Tree → List Token
  | leaf k s => [⟨k, start, s⟩]
  | node _ cs => standingOfRow start cs

/-- The leaves that stay of trees that stand one after the other, the first at an offset. -/
def standingOfRow (start : Nat) : List Tree → List Token
  | [] => []
  | t :: ts => (if t.isStray then [] else t.standingFrom start) ++ standingOfRow (start + t.size) ts

end

/-- The leaves that stay in the skeleton, as tokens of the source. -/
def standing (t : Tree) : List Token := t.standingFrom 0

mutual

theorem leaves_skeletonFrom : ∀ (t : Tree) (n : Nat),
    t.skeleton.leaves = (t.standingFrom n).map fun u => (u.kind, "")
  | leaf .., _ => rfl
  | node _ cs, n => leaves_skeletonOfList cs n

theorem leaves_skeletonOfList : ∀ (ts : List Tree) (n : Nat),
    leavesOfList (skeletonOfList ts) = (standingOfRow n ts).map fun u => (u.kind, "")
  | [], _ => rfl
  | t :: ts, n => by
    rw [skeletonOfList, standingOfRow, List.map_append, ← leaves_skeletonOfList ts]
    split
    · rfl
    · rw [leavesOfList, leaves_skeletonFrom t n]

end

/-- The leaves of the skeleton are those that stay. -/
theorem leaves_skeleton (t : Tree) : t.skeleton.leaves = t.standing.map fun u => (u.kind, "") :=
  leaves_skeletonFrom t 0

@[simp] theorem skeletonOfList_append (ts us : List Tree) :
    skeletonOfList (ts ++ us) = skeletonOfList ts ++ skeletonOfList us := by
  induction ts with
  | nil => rfl
  | cons t ts ih =>
    rw [List.cons_append, skeletonOfList, skeletonOfList, ih]
    split <;> rfl

theorem standingOfRow_append (n : Nat) (ts us : List Tree) :
    standingOfRow n (ts ++ us) = standingOfRow n ts ++ standingOfRow (n + sizeOfList ts) us := by
  induction ts generalizing n with
  | nil => rfl
  | cons t ts ih =>
    rw [List.cons_append, standingOfRow, standingOfRow, ih, sizeOfList, List.append_assoc, Nat.add_assoc]

theorem standingOfRow_trivia {ts : List Token} (h : ∀ t ∈ ts, t.kind.isTrivia) (n : Nat) :
    standingOfRow n (ts.map Token.tree) = [] := by
  induction ts generalizing n with
  | nil => rfl
  | cons t ts ih =>
    have ht : t.tree.isStray = true := h t List.mem_cons_self
    rw [List.map_cons, standingOfRow, if_pos ht, ih fun u hu => h u (List.mem_cons_of_mem _ hu)]
    rfl

theorem isStray_withoutTrivia (t : Tree) : t.withoutTrivia.isStray = t.isStray := by
  cases t <;> rfl

theorem isStray_of_isTrivia : ∀ {t : Tree}, t.isTrivia = true → t.isStray = true
  | leaf .., h => h

mutual

/-- Trivia does not matter to the skeleton. -/
theorem skeleton_withoutTrivia : ∀ t : Tree, t.withoutTrivia.skeleton = t.skeleton
  | leaf .. => rfl
  | node k cs => congrArg (node k) (skeletonOfList_withoutTrivia cs)

theorem skeletonOfList_withoutTrivia : ∀ ts : List Tree,
    skeletonOfList (withoutTriviaInList ts) = skeletonOfList ts
  | [] => rfl
  | t :: ts => by
    rw [withoutTriviaInList, skeletonOfList]
    split
    · rename_i h
      rw [if_pos (isStray_of_isTrivia h), skeletonOfList_withoutTrivia ts]
    · rw [skeletonOfList, isStray_withoutTrivia, skeletonOfList_withoutTrivia ts, skeleton_withoutTrivia t]

end

end Tree

/-! ## The tokens that stay of drafts -/

mutual

/-- The tokens of a branch outside of Error nodes. -/
def Branch.standing : Branch → List Token
  | .node _ ds => Draft.standingOfList ds
  | .wrap b _ ds => (if b.kind = .error then [] else b.standing) ++ Draft.standingOfList ds

/-- The tokens of a draft outside of Error nodes. -/
def Draft.standing : Draft → List Token
  | .blank => []
  | .leaf _ t => [t]
  | .grown b | .wrapping b => if b.kind = .error then [] else b.standing

/-- The tokens of drafts that stand one after the other, outside of Error nodes. -/
def Draft.standingOfList : List Draft → List Token
  | [] => []
  | d :: ds => d.standing ++ Draft.standingOfList ds

end

theorem Draft.standingOfList_append (ds es : List Draft) :
    standingOfList (ds ++ es) = standingOfList ds ++ standingOfList es := by
  induction ds with
  | nil => rfl
  | cons d ds ih => rw [List.cons_append, standingOfList, standingOfList, ih, List.append_assoc]

theorem Draft.standing_close {d : Draft} {k : Kind} (hd : d.Waits) (hk : k ≠ .error) (ds : List Draft) :
    Draft.standing (.grown (d.close k ds)) = standingOfList (d :: ds) := by
  cases d with
  | blank | wrapping => simp [standing, standingOfList, close, Branch.standing, Branch.kind, hk]
  | leaf | grown => exact absurd hd id

section Growth

variable {tokens : List Token}

theorem isStray_grow (b : Branch) (c : Nat) : (b.grow tokens c).1.isStray = decide (b.kind = .error) := by
  cases b <;> rfl

mutual

theorem Branch.standing_grow (hadjacent : Token.Adjacent 0 tokens) : ∀ (b : Branch) (c : Nat) {R : List (Token × Nat)},
    solidAfter tokens c = b.leaves ++ R → (b.grow tokens c).1.standingFrom (offset tokens c) = b.standing
  | .node _ ds, c, R, h => Draft.standing_growList hadjacent ds c h
  | .wrap b k ds, c, R, h => by
    rw [Branch.leaves, List.append_assoc] at h
    rw [Branch.grow, Tree.standingFrom, Tree.standingOfRow, b.standing_grow hadjacent c h, b.offset_grow,
      Draft.standing_growList hadjacent ds _ (b.withoutTrivia_grow c h).2, isStray_grow, Branch.standing]
    simp only [decide_eq_true_eq]

theorem Draft.standing_grow (hadjacent : Token.Adjacent 0 tokens) : ∀ (d : Draft) (c : Nat) {R : List (Token × Nat)},
    solidAfter tokens c = d.leaves ++ R →
    Tree.standingOfRow (offset tokens c) (d.grow tokens c).1 = d.standing
  | .blank, _, _, _ => rfl
  | .leaf k t, c, R, h => by
    obtain ⟨hk, htake, ht, ⟨us, hus⟩, -⟩ := take_of_solidAfter h
    rw [Draft.grow, htake, List.map_append, Tree.standingOfRow_append,
      Tree.standingOfRow_trivia fun t ht => isTrivia_of_mem_triviaFrom ht, offset_add_sizeOfTrivia, ← hk,
      ← hadjacent.start_eq hus]
    simp [Tree.standingOfRow, Token.tree, Tree.isStray, ht, Tree.standingFrom, Draft.standing]
  | .grown b, c, R, h | .wrapping b, c, R, h => by
    rw [← solidAfter_triviaFrom] at h
    rw [Draft.grow, Tree.standingOfRow_append,
      Tree.standingOfRow_trivia fun t ht => isTrivia_of_mem_triviaFrom ht, offset_add_sizeOfTrivia,
      Tree.standingOfRow, b.standing_grow hadjacent _ h, isStray_grow, Draft.standing]
    simp [Tree.standingOfRow]

/-- **What stays of the tree of a record is what stays of its drafts.** -/
theorem Draft.standing_growList (hadjacent : Token.Adjacent 0 tokens) :
    ∀ (ds : List Draft) (c : Nat) {R : List (Token × Nat)},
    solidAfter tokens c = Draft.leavesOfList ds ++ R →
    Tree.standingOfRow (offset tokens c) (Draft.growList tokens c ds).1 = Draft.standingOfList ds
  | [], _, _, _ => rfl
  | d :: ds, c, R, h => by
    rw [Draft.leavesOfList, List.append_assoc] at h
    rw [Draft.growList, Tree.standingOfRow_append, d.standing_grow hadjacent c h, d.offset_grow,
      Draft.standing_growList hadjacent ds _ (d.withoutTrivia_grow c h).2, Draft.standingOfList]

end

end Growth

/-! ## What a run shows of its tokens -/

theorem standing_unknownNodes (ls : List (Token × Nat)) : Draft.standingOfList (unknownNodes ls) = [] := by
  induction ls with
  | nil => rfl
  | cons l ls ih =>
    rw [unknownNodes]
    split
    · rw [Draft.standingOfList, ih]
      rfl
    · rfl

theorem skeleton_unknownNodes (ls : List (Token × Nat)) :
    Tree.skeletonOfList (Draft.treesOfList (unknownNodes ls)) = [] := by
  induction ls with
  | nil => rfl
  | cons l ls ih =>
    rw [unknownNodes]
    split
    · rw [Draft.treesOfList, Tree.skeletonOfList_append, ih]
      rfl
    · rfl

/-- **The tokens that stay of the drafts are the next significant ones**; none of the others is behind,
unless the nesting limit has taken all that was left. -/
structure Outlook.Shows (a₀ a : Outlook) (F : List Draft) : Prop where
  reached : a₀.limitReached = true → a.limitReached = true
  ended : a.limitReached = true → a.ahead = []
  standing : Draft.standingOfList F <+: a₀.significant
  rest : a.limitReached = false → a₀.significant = Draft.standingOfList F ++ a.significant

namespace Outlook.Shows

variable {i : Input} {a₀ a a' : Outlook} {F F' : List Draft} {l : Token × Nat} {ls : List (Token × Nat)}

theorem now (h : a₀.Shows a F) : a.Shows a [] := ⟨id, h.ended, List.nil_prefix, fun _ => rfl⟩

theorem trans (h : a₀.Shows a F) (h' : a.Shows a' F') : a₀.Shows a' (F ++ F') := by
  refine ⟨fun h₀ => h'.reached (h.reached h₀), h'.ended, ?_, fun hlimit => ?_⟩
  · rw [Draft.standingOfList_append]
    cases hlimit : a.limitReached with
    | false =>
      rw [h.rest hlimit, List.prefix_append_right_inj]
      exact h'.standing
    | true =>
      -- nothing was left to be read
      have hnil : a.significant = [] := by simp [significant, h.ended hlimit]
      have hstanding : Draft.standingOfList F' = [] := List.prefix_nil.1 (hnil ▸ h'.standing)
      rw [hstanding, List.append_nil]
      exact h.standing
  · have hlimit₁ : a.limitReached = false := by
      by_contra hne
      exact absurd (h'.reached (by simpa using hne)) (by simp [hlimit])
    rw [h.rest hlimit₁, h'.rest hlimit, Draft.standingOfList_append, List.append_assoc]

/-- Of the drafts, only what stays of them matters. -/
theorem congr (h : a₀.Shows a F) (hF : Draft.standingOfList F' = Draft.standingOfList F) :
    a₀.Shows a F' :=
  ⟨h.reached, h.ended, hF ▸ h.standing, hF ▸ h.rest⟩

theorem told (h : a₀.Shows a F) (d : Diagnostic) : a₀.Shows (a.told d) F := by
  have hsignificant : (a.told d).significant = a.significant := by
    rw [significant, ahead_told, significant]
  refine ⟨?_, ?_, h.standing, ?_⟩
  · rw [limitReached_told]
    exact h.reached
  · rw [limitReached_told, ahead_told]
    exact h.ended
  · rw [limitReached_told, hsignificant]
    exact h.rest

theorem settle (h : a.Shows a []) : a.Shows a.settle (unknownNodes a.ahead) := by
  refine ⟨?_, fun hlimit => ?_, ?_, fun _ => ?_⟩
  · rw [limitReached_settle]
    exact id
  · rw [limitReached_settle] at hlimit
    rw [ahead_settle, h.ended hlimit]
    rfl
  · rw [standing_unknownNodes]
    exact List.nil_prefix
  · rw [standing_unknownNodes, significant_settle]
    rfl

theorem advance (h : a.Shows a []) (hready : a.Ready i) (hl : a.ahead = l :: ls) :
    a.Shows a.advance (.leaf l.2 l.1 :: unknownNodes ls) := by
  have hstanding : Draft.standingOfList (.leaf l.2 l.1 :: unknownNodes ls) = [l.1] := by
    rw [Draft.standingOfList, standing_unknownNodes]
    rfl
  refine ⟨by rw [limitReached_advance]; exact id, fun hlimit => ?_, ?_, fun _ => ?_⟩
  · rw [limitReached_advance] at hlimit
    rw [h.ended hlimit] at hl
    cases hl
  · rw [hstanding, hready.significant hl]
    exact List.prefix_append [l.1] _
  · rw [hstanding, hready.significant hl]
    rfl

theorem bail (h : a.Shows a []) (limit size : Nat) : a.Shows (a.bail limit size) a.aside := by
  refine ⟨fun _ => limitReached_bail .., fun _ => ?_, ?_, fun hlimit => ?_⟩
  · rw [Outlook.bail]
    split
    · rename_i hlimit
      exact h.ended hlimit
    · rfl
  · rw [aside]
    split <;> exact List.nil_prefix
  · rw [limitReached_bail] at hlimit
    cases hlimit

end Outlook.Shows

/-! ## Two runs over tokens of the same kinds -/

/-- Two runs with significant tokens of the same kinds ahead, which have built the same. -/
structure Outlook.SameKinds (a₀ b₀ a b : Outlook) (F G : List Draft) : Prop where
  kinds : a.significant.map Token.kind = b.significant.map Token.kind
  limitReached : a.limitReached = b.limitReached
  skeleton : Tree.skeletonOfList (Draft.treesOfList F) = Tree.skeletonOfList (Draft.treesOfList G)
  left : a₀.Shows a F
  right : b₀.Shows b G

/-- **The kinds of the significant tokens are all that a parser is told.** -/
def Parser.Bond.sameKinds {i j : Input} (settings : i.settings = j.settings) : Bond i j where
  Holds := Outlook.SameKinds
  Spans _ _ := True
  settings := settings
  now h := ⟨h.kinds, h.limitReached, rfl, h.left.now, h.right.now⟩
  trans h h' := by
    refine ⟨h'.kinds, h'.limitReached, ?_, h.left.trans h'.left, h.right.trans h'.right⟩
    rw [Draft.treesOfList_append, Draft.treesOfList_append, Tree.skeletonOfList_append,
      Tree.skeletonOfList_append, h.skeleton, h'.skeleton]
  blank_left := ⟨fun h => ⟨h.kinds, h.limitReached, h.skeleton, h.left.congr rfl, h.right⟩,
    fun h => ⟨h.kinds, h.limitReached, h.skeleton, h.left.congr rfl, h.right⟩⟩
  blank_right := ⟨fun h => ⟨h.kinds, h.limitReached, h.skeleton, h.left, h.right.congr rfl⟩,
    fun h => ⟨h.kinds, h.limitReached, h.skeleton, h.left, h.right.congr rfl⟩⟩
  wrapping h := ⟨h.kinds, h.limitReached, h.skeleton, h.left.congr rfl, h.right.congr rfl⟩
  close {a₀ b₀ a b d e F G k} h hd he hk _ := by
    have hskeleton {d : Draft} {F : List Draft} (hd : d.Waits) :
        Tree.skeletonOfList (Draft.treesOfList [.grown (d.close k F)]) =
          [.node k (Tree.skeletonOfList (Draft.treesOfList (d :: F)))] := by
      simp [Draft.treesOfList, Draft.trees, Draft.tree_close hd, Tree.skeletonOfList, Tree.isStray, hk,
        Tree.skeleton]
    have hstanding {d : Draft} {F : List Draft} (hd : d.Waits) :
        Draft.standingOfList [.grown (d.close k F)] = Draft.standingOfList (d :: F) := by
      rw [Draft.standingOfList, Draft.standing_close hd hk]
      exact List.append_nil _
    refine ⟨h.kinds, h.limitReached, ?_, h.left.congr (hstanding hd), h.right.congr (hstanding he)⟩
    rw [hskeleton hd, hskeleton he, h.skeleton]
  kinds h := h.kinds
  span _ _ _ := trivial
  spanOf _ _ _ _ _ _ _ _ _ := trivial
  told h _ _ _ _ _ _ := by
    refine ⟨?_, ?_, h.skeleton, h.left.told _, h.right.told _⟩
    · simpa only [Outlook.significant, Outlook.ahead_told] using h.kinds
    · rw [Outlook.limitReached_told, Outlook.limitReached_told, h.limitReached]
  settle h _ _ := by
    refine ⟨?_, ?_, ?_, h.left.settle, h.right.settle⟩
    · rw [Outlook.significant_settle, Outlook.significant_settle, h.kinds]
    · rw [Outlook.limitReached_settle, Outlook.limitReached_settle, h.limitReached]
    · rw [skeleton_unknownNodes, skeleton_unknownNodes]
  advance {a b l m ls ms} h ha hb hl hm := by
    have hkinds := h.kinds
    rw [ha.significant hl, hb.significant hm, List.map_cons, List.map_cons, List.cons.injEq] at hkinds
    have hskeleton {l : Token × Nat} {ls : List (Token × Nat)} (hl : l.1.isSignificant = true) :
        Tree.skeletonOfList (Draft.treesOfList (.leaf l.2 l.1 :: unknownNodes ls)) =
          [.leaf l.1.kind ""] := by
      have hsolid : l.1.kind.isTrivia = false := by
        simp only [Token.isSignificant, Kind.isSignificant, Bool.and_eq_true, Bool.not_eq_true'] at hl
        exact hl.1
      rw [Draft.treesOfList, Tree.skeletonOfList_append, skeleton_unknownNodes]
      simp [Draft.trees, Tree.skeletonOfList, Tree.isStray, hsolid, Tree.skeleton]
    refine ⟨hkinds.2, ?_, ?_, h.left.advance ha hl, h.right.advance hb hm⟩
    · rw [Outlook.limitReached_advance, Outlook.limitReached_advance, h.limitReached]
    · rw [hskeleton (ha.isSignificant hl), hskeleton (hb.isSignificant hm), hkinds.1]
  bail {a b} limit h _ _ := by
    have haside (a : Outlook) : Tree.skeletonOfList (Draft.treesOfList a.aside) = [] := by
      rw [Outlook.aside]
      split <;> rfl
    have hnone {a : Outlook} (ha : a.Shows a []) (size : Nat) : (a.bail limit size).significant = [] := by
      rw [Outlook.significant, (ha.bail limit size).ended (Outlook.limitReached_bail ..)]
      rfl
    refine ⟨?_, ?_, ?_, h.left.bail .., h.right.bail ..⟩
    · rw [hnone h.left, hnone h.right]
    · rw [Outlook.limitReached_bail, Outlook.limitReached_bail]
    · rw [haside, haside]

section Parses

variable {source source' : String} {settings : Settings}

theorem Outlook.Begins.significant {a : Outlook} (ha : a.Begins (.ofSource source settings)) :
    a.significant = (lex source).filter Token.isSignificant := by
  rw [Outlook.significant, ha.ahead, map_fst_solidFrom, List.filter_filter]
  refine List.filter_congr fun t _ => ?_
  rw [Token.isSignificant, Kind.isSignificant]
  cases t.kind.isTrivia <;> simp

theorem Outlook.Begins.shows {a : Outlook} (ha : a.Begins (.ofSource source settings)) : a.Shows a [] :=
  ⟨id, fun h => absurd h (by simp [ha.limitReached]), List.nil_prefix, fun _ => rfl⟩

/-- What stays of a tree is what stays of its drafts. -/
theorem Parse.GrowsFrom.standing {p : Parse} {a : Outlook} {F : List Draft}
    (hp : p.GrowsFrom (lex source) a F) : p.tree.standing = Draft.standingOfList F := by
  have hsolid : solidAfter (lex source) 0 = Draft.leavesOfList F ++ [] := by
    rw [solidAfter, List.drop_zero, hp.leaves, List.append_nil]
  have hgrown := Draft.standing_growList (tiles_lex source).adjacent F 0 hsolid
  have hstart : offset (lex source) 0 = 0 := rfl
  rw [hstart] at hgrown
  rw [hp.tree, Tree.standing, Tree.standingFrom, Tree.standingOfRow_append, hgrown,
    Tree.standingOfRow_trivia (isTrivia_of_mem_drop hp.leaves), List.append_nil]

theorem Parse.GrowsFrom.skeleton {p : Parse} {a : Outlook} {F : List Draft}
    (hp : p.GrowsFrom (lex source) a F) :
    p.tree.skeleton = .node .chunk (Tree.skeletonOfList (Draft.treesOfList F)) := by
  rw [← Tree.skeleton_withoutTrivia, hp.withoutTrivia]
  rfl

/-- One chunk is built, around the drafts. -/
theorem Draft.standing_chunk (F : List Draft) :
    standingOfList [.grown (.node .chunk F)] = standingOfList F := by
  simp [standingOfList, standing, Branch.kind, Branch.standing]

/-- Two parses of sources whose significant tokens have the same kinds. -/
theorem sameKinds_of_parses {p q : Parse} (h : ((lex source).filter Token.isSignificant).map Token.kind =
      ((lex source').filter Token.isSignificant).map Token.kind)
    (hp : parse source settings = .ok p) (hq : parse source' settings = .ok q) : ∃ a₀ b₀ a b F G,
      a₀.Begins (.ofSource source settings) ∧ b₀.Begins (.ofSource source' settings) ∧
      Outlook.SameKinds a₀ b₀ a b [.grown (.node .chunk F)] [.grown (.node .chunk G)] ∧
      p.GrowsFrom (lex source) a F ∧ q.GrowsFrom (lex source') b G :=
  (Bond.sameKinds (i := .ofSource source settings) (j := .ofSource source' settings) rfl).parses
    (fun a b ha hb => ⟨by rw [ha.significant, hb.significant, h],
      ha.limitReached.trans hb.limitReached.symm, rfl, ha.shows, hb.shows⟩) hp hq

/-- What stays of a tree are the first significant tokens. -/
theorem Parse.GrowsFrom.standing_prefix {p : Parse} {a₀ a : Outlook} {F : List Draft}
    (hp : p.GrowsFrom (lex source) a F) (ha₀ : a₀.Begins (.ofSource source settings))
    (h : a₀.Shows a [.grown (.node .chunk F)]) :
    p.tree.standing <+: (lex source).filter Token.isSignificant := by
  rw [hp.standing, ← Draft.standing_chunk, ← ha₀.significant]
  exact h.standing

/-- **Sources whose significant tokens have the same kinds have trees with one skeleton**, under the same
settings; the leaves of the skeleton are the significant tokens of each source, from the first one on. -/
theorem skeleton_of_kinds (source source' : String) (settings : Settings)
    (h : ((lex source).filter Token.isSignificant).map Token.kind =
      ((lex source').filter Token.isSignificant).map Token.kind) :
    ∃ p q, parse source settings = .ok p ∧ parse source' settings = .ok q ∧
      p.tree.skeleton = q.tree.skeleton ∧
      p.tree.standing <+: (lex source).filter Token.isSignificant ∧
      q.tree.standing <+: (lex source').filter Token.isSignificant := by
  obtain ⟨p, hp, -⟩ := parse_conforms source settings
  obtain ⟨q, hq, -⟩ := parse_conforms source' settings
  obtain ⟨a₀, b₀, a, b, F, G, ha₀, hb₀, hholds, hF, hG⟩ := sameKinds_of_parses h hp hq
  refine ⟨p, q, hp, hq, ?_, ?_, ?_⟩
  · have hskeleton := hholds.skeleton
    simp only [Draft.treesOfList, Draft.trees, Branch.tree, List.append_nil, Tree.skeletonOfList,
      Tree.isStray, Tree.skeleton] at hskeleton
    rw [hF.skeleton, hG.skeleton]
    simpa using hskeleton
  · exact hF.standing_prefix ha₀ hholds.left
  · exact hG.standing_prefix hb₀ hholds.right

/-- Another name, another number, an unknown character and a comment. -/
theorem skeleton_of_kinds_of_assignment :
    ((lex "a=1").filter Token.isSignificant).map Token.kind =
        ((lex "b ? = 2 -- two").filter Token.isSignificant).map Token.kind ∧
      ∃ p q, parse "a=1" .standard = .ok p ∧ parse "b ? = 2 -- two" .standard = .ok q ∧
        p.tree.skeleton = q.tree.skeleton ∧
        p.tree.standing <+: (lex "a=1").filter Token.isSignificant ∧
        q.tree.standing <+: (lex "b ? = 2 -- two").filter Token.isSignificant :=
  have hkinds : ((lex "a=1").filter Token.isSignificant).map Token.kind =
      ((lex "b ? = 2 -- two").filter Token.isSignificant).map Token.kind := by
    decide +kernel
  ⟨hkinds, skeleton_of_kinds "a=1" "b ? = 2 -- two" .standard hkinds⟩

end Parses

end LuaTree
