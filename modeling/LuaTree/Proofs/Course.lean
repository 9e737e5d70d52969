import LuaTree.Proofs.Shape

/-!
# Proofs/Course — how a parse goes

A parse reads statements inside of three nodes, the list of statements, the block and the chunk, and puts what
the block leaves over into one more node.  The **course** of a parse names the states between these parts, so
that runs can be compared part by part; the statements of its tree are those of the list, with their trivia put
back (`course_of_parse`).
-/

namespace LuaTree

open LuaTree.Parser

/-! ## Parts of trees -/

namespace Tree

/-- The nodes among trees that stand one after the other. -/
def nodesOfList (ts : List Tree) : List Tree := ts.filter (!·.isLeaf)

/-- The nodes among the children. -/
def parts : Tree → List Tree
  | leaf .. => []
  | node _ cs => nodesOfList cs

/-- The first node of a kind among the children. -/
def part? (t : Tree) (k : Kind) : Option Tree := t.parts.find? (·.kind = k)

/-- **The nodes in the list of statements of a whole source**: the statements, and the nodes around what could
not be read between them. -/
def statements (t : Tree) : List Tree := ((t.part? .block).bind (·.part? .statementList)).elim [] parts

/-- The node with what the block has left over. -/
def garbage? (t : Tree) : Option Tree := t.part? .garbage

variable {tokens : List Token}

@[simp] theorem nodesOfList_append (ts us : List Tree) :
    nodesOfList (ts ++ us) = nodesOfList ts ++ nodesOfList us :=
  List.filter_append ..

@[simp] theorem nodesOfList_nil : nodesOfList [] = [] := rfl

@[simp] theorem nodesOfList_node (k : Kind) (cs ts : List Tree) :
    nodesOfList (node k cs :: ts) = node k cs :: nodesOfList ts := rfl

@[simp] theorem nodesOfList_map_tree (ts : List Token) : nodesOfList (ts.map Token.tree) = [] :=
  List.filter_eq_nil_iff.2 (List.forall_mem_map.2 fun _ _ => Bool.false_ne_true)

/-- The trivia in front goes first. -/
theorem dress_eq (t : Tree) (c : Nat) : t.dress tokens c = ((triviaFrom tokens c).map Token.tree ++
    (t.dress tokens (c + (triviaFrom tokens c).length)).1, (t.dress tokens (c + (triviaFrom tokens c).length)).2) := by
  cases t with
  | leaf k x =>
    rw [dress, dress, triviaFrom_triviaFrom, List.length_nil, Nat.zero_add, Nat.add_assoc, ← List.drop_drop,
      ← List.map_append, List.take_add, Builder.take_triviaFrom]
  | node k cs => exact dress_of_node rfl c

/-- Trivia in front of a row does not change its nodes. -/
theorem nodesOfList_dressList (ts : List Tree) (c : Nat) : nodesOfList (dressList tokens c ts).1 =
    nodesOfList (dressList tokens (c + (triviaFrom tokens c).length) ts).1 := by
  cases ts with
  | nil => rfl
  | cons t ts => simp only [dressList, dress_eq t c, nodesOfList_append, nodesOfList_map_tree, List.nil_append]

/-- Nor does it change those of a row behind it. -/
theorem nodesOfList_dressList_behind (ts us : List Tree) (c : Nat) :
    nodesOfList (dressList tokens (dressList tokens c ts).2 us).1 =
      nodesOfList (dressList tokens (dressList tokens (c + (triviaFrom tokens c).length) ts).2 us).1 := by
  cases ts with
  | nil => exact nodesOfList_dressList us c
  | cons t ts => simp only [dressList, dress_eq t c]

theorem kinds_dressList (ts : List Tree) (c : Nat) :
    (nodesOfList (dressList tokens c ts).1).map kind = (nodesOfList ts).map kind := by
  induction ts generalizing c with
  | nil => rfl
  | cons t ts ih =>
    rw [dressList, nodesOfList_append, List.map_append, ih]
    cases t with
    | leaf k x =>
      rw [dress, nodesOfList_map_tree]
      rfl
    | node k cs => simp [dress, kind]

/-- **The statements of a tree whose trivia was put back**, and what is left over. -/
theorem statements_dressed {t : Tree} {row rest : List Tree} {trailing : List Token} (ht : t = node .chunk
      ((dressList tokens 0 (node .block [node .statementList row] :: rest)).1 ++ trailing.map Token.tree)) :
    t.statements = nodesOfList (dressList tokens 0 row).1 ∧
    t.garbage? = (nodesOfList (dressList tokens (dressList tokens 0 row).2 rest).1).find? (·.kind = .garbage) := by
  rw [nodesOfList_dressList, nodesOfList_dressList_behind]
  set inside := dressList tokens (0 + (triviaFrom tokens 0).length) row with hinside
  have hparts : t.parts = node .block [node .statementList inside.1] ::
      nodesOfList (dressList tokens inside.2 rest).1 := by
    rw [ht, parts, nodesOfList_append, nodesOfList_map_tree, List.append_nil]
    simp only [dressList, dress, triviaFrom_triviaFrom, List.map_nil, List.nil_append, List.length_nil, Nat.add_zero,
      ← hinside, nodesOfList_append, nodesOfList_map_tree, nodesOfList_node, List.append_nil]
    rfl
  rw [statements, garbage?, part?, part?, hparts]
  exact ⟨rfl, rfl⟩

end Tree

/-! ## Runs part by part -/

/-- Where the reading begins: only unfinished comments have been reported. -/
def Input.begun (i : Input) : State :=
  { State.initial i.tokens with diagnostics := (Token.unfinishedComments i.tokens).toArray }

/-- Inside of one more node. -/
def State.inside (s : State) : State := { s with events := s.events.push .blank }

/-- Inside of the three nodes around the statements of a source. -/
abbrev Input.opened (i : Input) : State := i.begun.inside.inside.inside

/-- **How a parse goes**: the chunk begins with the unknown characters in front, up to `first`; its statements lead to
`listed`, the ends of their list and their block to `blocked`, and what is left over to `left`, where only the end of
the chunk is missing. -/
structure Parse.Course (p : Parse) (i : Input) (first listed blocked left : State) : Prop where
  coherent : i.begun.Coherent i
  wrapping : wrapUnknown i i.begun.inside = .ok ((), first)
  listing : ∃ a, Production.enter i.bound .statements i first.inside.inside = .ok (a, listed)
  closing : blocked.outlook = listed.outlook ∧ ∀ F, Draws i first.inside.inside listed F →
    Draws i first blocked [.grown (.node .block [.grown (.node .statementList F)])]
  leaving : Production.leftovers (Production.enter i.bound) i blocked = .ok ((), left)
  ends : left.ahead = []
  diagnostics : p.diagnostics = left.diagnostics.toList
  grows : ∀ F, Draws i i.begun.inside left F → p.GrowsFrom i.tokens left.outlook F

namespace Parser

variable {i : Input} {s s₀ s' : State} {F : List Draft} {o : Opening} {d : Draft} {k : Kind}

theorem Draws.inside (hs : s.Coherent i) : Draws i s s.inside [.blank] := ⟨.blank hs, trivial⟩

theorem finish_outlook (o : Opening) (k : Kind) :
    Yields (Production.finish o k) i s fun _ s' => s'.outlook = s.outlook :=
  (complete_outlook o k).bind fun _ _ h => .pure h

/-- An opening becomes a node around all that was read since. -/
theorem Draws.finish (hg : Draws i s₀ s (d :: F)) (ho : Opens i s₀ o d) (hk : k ≠ .tombstone) :
    Yields (Production.finish o k) i s fun _ s' => Draws i s₀ s' [.grown (d.close k F)] := by
  refine (Yields.of_ensures (Grows.complete (k := k) ho hg.toGrows)).bind fun _ s' h => .pure ⟨h.1.1, ?_⟩
  simp only [Draft.treesOfList, Draft.trees, Draft.tree_close ho.waits, List.append_nil]
  exact ⟨⟨hk, hg.named⟩, trivial⟩

end Parser

variable {source : String} {settings : Settings} {p : Parse} {i : Input} {first listed blocked left : State}

/-- **Every parse has a course.** -/
theorem course_of_parse (hp : parse source settings = .ok p) :
    ∃ first listed blocked left, p.Course (.ofSource source settings) first listed blocked left := by
  obtain ⟨s, s', hs, -, -, hcomments, hrun, hend, hg, htree, hdiagnostics⟩ := run_of_parse hp
  obtain rfl : s = (Input.ofSource source settings).begun := by
    rw [reportUnfinishedComments_eq _ _ _ _ hcomments]
    simp [Input.begun, State.initial, Input.ofSource, Input.ofTokens]
  set i := Input.ofSource source settings with hi
  -- the three openings
  rw [Production.chunk_eq] at hrun
  obtain ⟨_, _, hread, hrun⟩ := run_bind hrun
  cases hread
  obtain ⟨_, _, hstart, hrun⟩ := run_bind hrun
  cases hstart
  obtain ⟨_, first, hwrap, hrun⟩ := run_bind hrun
  obtain ⟨_, blocked, hblock, hrun⟩ := run_bind hrun
  obtain ⟨_, left, hleaving, hfinish⟩ := run_bind hrun
  obtain ⟨_, _, hstart, hblock⟩ := run_bind hblock
  cases hstart
  obtain ⟨_, _, hstart, hblock⟩ := run_bind hblock
  cases hstart
  obtain ⟨a, listed, hlisting, hblock⟩ := run_bind hblock
  obtain ⟨_, s₅, hlist, houter⟩ := run_bind hblock
  have hbegun : Draws i i.begun i.begun.inside [.blank] := .inside hs
  have hwrapped := Yields.of_ensures (wrapUnknown_outlook hbegun.coherent) _ first hwrap
  have hend' : s'.outlook = left.outlook := finish_outlook _ _ _ _ hfinish
  refine ⟨first, listed, blocked, left, hs, hwrap, ⟨a, hlisting⟩,
    ⟨(finish_outlook _ _ _ _ houter).trans (finish_outlook _ _ _ _ hlist), fun F hF => ?_⟩, hleaving,
    (congrArg Outlook.ahead hend').symm.trans hend,
    hdiagnostics.trans (congrArg Outlook.diagnostics hend'), fun F hF => ?_⟩
  · -- the list of statements and its block
    have hfirst : Draws i first first.inside [.blank] := .inside hwrapped.1.coherent
    have hlisted := ((Draws.inside hfirst.coherent).trans hF).finish (opens_start hfirst.coherent) (by decide) _ _ hlist
    exact (hfirst.trans hlisted).finish (opens_start hwrapped.1.coherent) (by decide) _ _ houter
  · have hchunk := (hbegun.trans hF).finish (opens_start hs) (by decide) _ _ hfinish
    exact hend' ▸ growsFrom_of_draws hg hchunk hend htree hdiagnostics

namespace Parse.Course

/-- The unknown characters in front are read first. -/
theorem wrapped (h : p.Course i first listed blocked left) :
    Draws i i.begun.inside first (unknownNodes (solidFrom 0 i.tokens)) ∧
      first.outlook = i.begun.outlook.settle ∧ first.Settled :=
  Yields.of_ensures (wrapUnknown_outlook (Draws.inside h.coherent).coherent) _ first h.wrapping

/-- There may be none. -/
theorem first_eq (h : p.Course i first listed blocked left) (hs : i.begun.Settled) : first = i.begun.inside :=
  Yields.of_ensures (wrapUnknown_settled { (Draws.inside h.coherent).coherent with settled := hs }) _ _ h.wrapping

/-- **The statements of a parse**, and what is left over, if no unknown character comes first. -/
theorem statements (h : p.Course i i.begun.inside listed blocked left) {F G : List Draft}
    (hF : Draws i i.opened listed F) (hG : Draws i blocked left G) :
    p.tree.statements = Tree.nodesOfList (Tree.dressList i.tokens 0 (Draft.treesOfList F)).1 ∧
    p.tree.garbage? = (Tree.nodesOfList (Tree.dressList i.tokens
      (Tree.dressList i.tokens 0 (Draft.treesOfList F)).2 (Draft.treesOfList G)).1).find? (·.kind = .garbage) :=
  Tree.statements_dressed (h.grows _ ((h.closing.2 F hF).trans hG)).tree_eq

end Parse.Course

/-- A token in front is no unknown character, if there is one. -/
theorem settled_of_find? {s : State} (h : ∀ t ∈ s.rest.find? (!·.kind.isTrivia), t.kind ≠ .invalidChar) :
    s.Settled := by
  intro l hl
  refine h l.1 ?_
  rw [← List.head?_filter, ← map_fst_solidFrom s.position, List.head?_map]
  exact Option.mem_map_of_mem Prod.fst hl

end LuaTree
