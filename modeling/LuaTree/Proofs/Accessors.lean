import LuaTree.Proofs.Herald
import LuaTree.Typed.Stmt

/-!
# Proofs/Accessors — what is found of every node

Recovery leaves pieces out, but not all of them: in each production some children are never missing, with
gaps or without.  They are found by their kinds among the children, around which there may be trivia and
Error nodes (`Node.pieces` are the others), so the accessors for them always answer, on every node of
every tree (`parse_accessible`).
-/

namespace LuaTree

open LuaTree.Tree Computability

/-! ## Children that are never missing -/

namespace Grammar

variable {gaps : Bool} {L M : Language Tree} {k : Kind} {ks ks' : List Kind}

/-- The rows with a node of one of some kinds. -/
def holding (ks : List Kind) : Language Tree := {ts | ∃ k ∈ ks, ∃ cs, Tree.node k cs ∈ ts}

theorem mul_le_holding_left (h : L ≤ holding ks) : L * M ≤ holding ks := by
  rintro _ ⟨ts, hts, us, -, rfl⟩
  obtain ⟨k, hk, cs, hmem⟩ := h hts
  exact ⟨k, hk, cs, List.mem_append_left us hmem⟩

theorem mul_le_holding_right (h : M ≤ holding ks) : L * M ≤ holding ks := by
  rintro _ ⟨ts, -, us, hus, rfl⟩
  obtain ⟨k, hk, cs, hmem⟩ := h hus
  exact ⟨k, hk, cs, List.mem_append_right ts hmem⟩

theorem nodeOf_le_holding (h : ks' ⊆ ks) : nodeOf ks' ≤ holding ks := by
  rintro _ ⟨k, hk, cs, rfl⟩
  exact ⟨k, h hk, cs, List.mem_singleton_self _⟩

theorem node_le_holding : Grammar.node k ≤ holding [k] := by
  rintro _ ⟨cs, rfl⟩
  exact ⟨k, List.mem_singleton_self k, cs, List.mem_singleton_self _⟩

theorem chain_le_holding : chain gaps ≤ holding expressionKinds := by
  rintro _ ⟨k, hk, cs, rfl, -⟩
  exact ⟨k, List.mem_append_left _ hk, cs, List.mem_singleton_self _⟩

theorem expressionStatement_le_holding : production gaps .expressionStatement ≤ holding [.expressionList] := by
  cases gaps with
  | false => exact fun _ h => h.elim
  | true => exact node_le_holding

/-- The nodes in a list of statements are statements. -/
theorem kind_of_mem_statementList {ts cs : List Tree} (h : ts ∈ production gaps .statementList)
    (hmem : Tree.node k cs ∈ ts) : k ∈ .returnStatement :: statementKinds true := by
  obtain ⟨R, hR, last, hlast, rfl⟩ := h
  rcases List.mem_append.1 hmem with hmem | hmem
  · obtain ⟨rows, rfl, hrows⟩ := Language.mem_kstar.1 hR
    obtain ⟨row, hrow, hmem⟩ := List.mem_flatten.1 hmem
    rcases hrows row hrow with ⟨k', hk', ds, rfl⟩ | ⟨s, rfl⟩
    · cases List.mem_singleton.1 hmem
      refine List.mem_cons_of_mem _ ?_
      cases gaps with
      | false => exact List.mem_append_left _ (by simpa [statementKinds] using hk')
      | true => exact hk'
    · cases List.mem_singleton.1 hmem
  · rcases hlast with rfl | ⟨ds, rfl⟩
    · cases hmem
    · cases List.mem_singleton.1 hmem
      exact List.mem_cons_self

/-- In a list of statements nothing stands behind one that returns. -/
theorem eq_nil_of_statementList {before behind cs : List Tree}
    (h : before ++ Tree.node .returnStatement cs :: behind ∈ production gaps .statementList) : behind = [] := by
  have hfree : (statement gaps + token .semicolon)∗ ≤ free .returnStatement :=
    kstar_le_free (add_le (nodeOf_le_free (by cases gaps <;> decide)) (token_le_free (by decide)))
  obtain ⟨R, hR, last, hlast, hrow⟩ := h
  dsimp only at hrow
  have hnone {us : List Tree} (h : before ++ Tree.node .returnStatement cs :: us = R) : False :=
    hfree hR _ (h ▸ List.mem_append_right before List.mem_cons_self) rfl
  rcases hlast with rfl | ⟨ds, rfl⟩
  · exact (hnone (by rw [← hrow, List.append_nil])).elim
  · rcases List.eq_nil_or_concat behind with rfl | ⟨us, u, rfl⟩
    · rfl
    · rw [List.concat_eq_append, ← List.cons_append, ← List.append_assoc] at hrow
      exact (hnone (List.append_inj_left' hrow rfl).symm).elim

/-- A name that is selected stands among leaves. -/
theorem not_both_of_selector {ts : List Tree} (h : ts ∈ selector gaps) (hident : ∃ s, leaf .ident s ∈ ts)
    (hnode : ∃ k ∈ ks, ∃ cs, Tree.node k cs ∈ ts) : False := by
  obtain ⟨s, hs⟩ := hident
  obtain ⟨k, -, cs, hcs⟩ := hnode
  have hname {k' : Kind} (h : ts ∈ token k' * hole gaps (token .ident)) : False := by
    obtain ⟨_, ⟨s, rfl⟩, us, hus, rfl⟩ := h
    have hleaves : us = [] ∨ ∃ s, us = [leaf .ident s] := by
      cases gaps with
      | false => exact .inr hus
      | true => exact hus.imp id id
    rcases hleaves with rfl | ⟨s, rfl⟩ <;> simp at hcs
  rcases h with (h | h) | h
  · exact hname h
  · exact hname h
  · have hfree : token .bracketOpen * hole gaps (expression gaps) * hole gaps (token .bracketClose) ≤
        free .ident :=
      mul_le_free (mul_le_free (token_le_free (by decide)) (hole_le_free (operand_le_free (by decide))))
        (hole_le_free (token_le_free (by decide)))
    exact hfree h _ hs rfl

end Grammar

/-! ## Parts of a row -/

theorem Tree.exists_node_of_withoutTrivia {t : Tree} {k : Kind} {cs : List Tree}
    (h : t.withoutTrivia = node k cs) : ∃ ds, t = node k ds := by
  cases t with
  | leaf => cases h
  | node k' ds =>
    cases h
    exact ⟨ds, rfl⟩

namespace Located

theorem pairwise_row (ts : List Tree) : ∀ start : Nat,
    (∀ l ∈ row start ts, start ≤ l.start ∧ l.stop ≤ start + sizeOfList ts) ∧
      (row start ts).Pairwise fun l m => l.stop ≤ m.start := by
  induction ts with
  | nil => exact fun _ => ⟨nofun, .nil⟩
  | cons t ts ih =>
    intro start
    obtain ⟨hbounds, hpairwise⟩ := ih (start + t.size)
    refine ⟨List.forall_mem_cons.2 ⟨?_, fun l hl => ?_⟩, List.pairwise_cons.2 ⟨fun l hl => ?_, hpairwise⟩⟩
    · simp only [stop, sizeOfList]
      omega
    · have := hbounds l hl
      simp only [sizeOfList]
      omega
    · exact (hbounds l hl).1

theorem mem_of_mem_row {l : Located} {ts : List Tree} : ∀ {start : Nat}, l ∈ row start ts → l.tree ∈ ts := by
  induction ts with
  | nil => exact nofun
  | cons t ts ih =>
    intro start h
    rcases List.mem_cons.1 h with rfl | h
    · exact List.mem_cons_self
    · exact List.mem_cons_of_mem t (ih h)

/-- Without trivia and Error nodes a row is what the grammar sees of it. -/
theorem map_filter_row (ts : List Tree) : ∀ start : Nat,
    ((row start ts).filter (!·.tree.isStray)).map (·.tree.withoutTrivia) =
      Grammar.clear (withoutTriviaInList ts) := by
  induction ts with
  | nil => exact fun _ => rfl
  | cons t ts ih =>
    intro start
    rw [clear_withoutTriviaInList, ← ih (start + t.size), row, List.filter_cons]
    cases t.isStray <;> rfl

/-- Trivia and Error nodes may be left out where nothing is looked for among them. -/
theorem filterMap_filter {α : Type} {f : Located → Option α} (hf : ∀ l, l.tree.isStray = true → f l = none)
    (ls : List Located) : (ls.filter (!·.tree.isStray)).filterMap f = ls.filterMap f := by
  rw [List.filterMap_filter]
  refine List.filterMap_congr fun l _ => ?_
  cases hl : l.tree.isStray with
  | true => exact (hf l hl).symm
  | false => rfl

end Located

namespace Expr

theorem located_of_ofLocated? {l : Located} {e : Expr} (h : ofLocated? l = some e) : e.located = l := by
  obtain ⟨start, tree⟩ := l
  cases tree with
  | leaf => cases h
  | node k cs =>
    unfold ofLocated? at h
    dsimp only at h
    split at h <;> cases h <;> rfl

theorem ofLocated?_isSome_iff {l : Located} :
    (ofLocated? l).isSome ↔ ∃ k ∈ Grammar.expressionKinds, ∃ cs, l.tree = node k cs := by
  obtain ⟨start, tree⟩ := l
  cases tree with
  | leaf => simp [ofLocated?]
  | node k cs =>
    have hkinds : (ofLocated? ⟨start, node k cs⟩).isSome ↔ k ∈ Grammar.expressionKinds := by
      unfold ofLocated?
      dsimp only
      split <;> simp_all [Grammar.expressionKinds, Grammar.chainKinds]
    rw [hkinds]
    exact ⟨fun hk => ⟨k, hk, cs, rfl⟩, by rintro ⟨_, hk, _, ⟨⟩⟩; exact hk⟩

theorem ofLocated?_eq_none {l : Located} (h : l.kind ∉ Grammar.expressionKinds) : ofLocated? l = none := by
  refine Option.not_isSome_iff_eq_none.1 fun hsome => h ?_
  obtain ⟨k, hk, cs, htree⟩ := ofLocated?_isSome_iff.1 hsome
  rw [Located.kind, htree]
  exact hk

/-- Neither trivia nor Error nodes are expressions. -/
theorem ofLocated?_of_isStray {l : Located} (h : l.tree.isStray = true) : ofLocated? l = none := by
  obtain ⟨start, tree⟩ := l
  cases tree with
  | leaf => rfl
  | node k cs =>
    obtain rfl : k = .error := of_decide_eq_true h
    exact ofLocated?_eq_none (show Kind.error ∉ Grammar.expressionKinds by decide)

end Expr

/-! ## Pieces of a node -/

theorem Located.located_of_as? {l : Located} {k : Kind} {n : Node k} (h : l.as? k = some n) :
    n.located = l := by
  obtain ⟨start, tree⟩ := l
  cases tree with
  | leaf => cases h
  | node k cs =>
    obtain ⟨rfl, hn⟩ := Option.ite_none_right_eq_some.1 h
    cases hn
    rfl

namespace Node

variable {gaps : Bool} {k kind : Kind} {n : Node k} {l : Located} {s : String} {t : Token}

/-- What the grammar sees of the children. -/
def row (n : Node k) : List Tree := Grammar.clear (withoutTriviaInList n.children)

/-- The children without trivia and Error nodes. -/
def pieces (n : Node k) : List Located := n.parts.filter (!·.tree.isStray)

theorem map_pieces (n : Node k) : n.pieces.map (·.tree.withoutTrivia) = n.row :=
  Located.map_filter_row n.children n.start

theorem pairwise_pieces (n : Node k) : n.pieces.Pairwise fun l m => l.stop ≤ m.start :=
  (Located.pairwise_row n.children n.start).2.sublist List.filter_sublist

/-- What is found of a node is found among its pieces, if it is neither trivia nor an Error node. -/
theorem filterMap_pieces {α : Type} {f : Located → Option α} (hf : ∀ l, l.tree.isStray = true → f l = none) :
    n.pieces.filterMap f = n.parts.filterMap f :=
  Located.filterMap_filter hf n.parts

theorem exprs_eq (n : Node k) : n.exprs = n.pieces.filterMap Expr.ofLocated? :=
  (filterMap_pieces fun _ => Expr.ofLocated?_of_isStray).symm

theorem childAs?_eq (hkind : kind ≠ .error) :
    n.childAs? kind = (n.pieces.filterMap (·.as? kind)).head? := by
  rw [filterMap_pieces, List.head?_filterMap]
  · rfl
  rintro ⟨start, _ | ⟨k, cs⟩⟩ hl
  · rfl
  · obtain rfl : k = .error := by simpa [isStray] using hl
    exact if_neg (Ne.symm hkind)

/-! ## Looking for a piece -/

/-- Each tree that the grammar sees is a piece. -/
theorem exists_piece_of_mem_row {u : Tree} (h : u ∈ n.row) :
    ∃ l ∈ n.parts, l.tree.withoutTrivia = u ∧ l.tree.isStray = false := by
  rw [← map_pieces] at h
  obtain ⟨l, hl, htree⟩ := List.mem_map.1 h
  obtain ⟨hmem, hstray⟩ := List.mem_filter.1 hl
  exact ⟨l, hmem, htree, by simpa using hstray⟩

theorem exists_node_of_mem_row {cs : List Tree} (h : node kind cs ∈ n.row) :
    ∃ l ∈ n.parts, ∃ ds, l.tree = node kind ds := by
  obtain ⟨l, hl, htree, -⟩ := exists_piece_of_mem_row h
  exact ⟨l, hl, exists_node_of_withoutTrivia htree⟩

theorem childAs?_isSome (h : n.row ∈ Grammar.holding [kind]) : (n.childAs? kind).isSome := by
  obtain ⟨_, hk, cs, hmem⟩ := h
  obtain rfl := List.mem_singleton.1 hk
  obtain ⟨l, hl, ds, htree⟩ := exists_node_of_mem_row hmem
  refine List.findSome?_isSome_iff.2 ⟨l, hl, ?_⟩
  simp [Located.as?, htree]

theorem expr?_isSome (h : n.row ∈ Grammar.holding Grammar.expressionKinds) : n.expr?.isSome := by
  obtain ⟨kind, hk, cs, hmem⟩ := h
  obtain ⟨l, hl, ds, htree⟩ := exists_node_of_mem_row hmem
  rw [expr?, exprs, List.head?_filterMap]
  exact List.findSome?_isSome_iff.2 ⟨l, hl, Expr.ofLocated?_isSome_iff.2 ⟨kind, hk, ds, htree⟩⟩

/-- A leaf that the grammar sees is one of the tokens, within the node. -/
theorem exists_token_of_mem_row (h : leaf kind s ∈ n.row) :
    ∃ t ∈ n.tokens, t.kind = kind ∧ kind.isTrivia = false := by
  obtain ⟨⟨start, tree⟩, hl, htree, hstray⟩ := exists_piece_of_mem_row h
  cases tree with
  | node => cases htree
  | leaf kind' s' =>
    cases htree
    exact ⟨⟨kind, start, s⟩, List.mem_filterMap.2 ⟨_, hl, rfl⟩, rfl, hstray⟩

theorem token?_isSome (h : leaf kind s ∈ n.row) : (n.token? kind).isSome := by
  obtain ⟨t, ht, hkind, -⟩ := exists_token_of_mem_row h
  exact List.find?_isSome.2 ⟨t, ht, by simp [hkind]⟩

/-- The grammar sees each token that is no trivia. -/
theorem mem_row_of_mem_tokens (h : t ∈ n.tokens) (ht : t.kind.isTrivia = false) :
    leaf t.kind t.text ∈ n.row ∧ n.start ≤ t.start ∧ t.stop ≤ n.located.stop := by
  obtain ⟨⟨start, tree⟩, hl, htoken⟩ := List.mem_filterMap.1 h
  cases tree with
  | node => cases htoken
  | leaf kind s =>
    cases htoken
    refine ⟨?_, (Located.pairwise_row n.children n.start).1 _ hl⟩
    rw [← map_pieces]
    exact List.mem_map.2 ⟨_, List.mem_filter.2 ⟨hl, by simpa [isStray] using ht⟩, rfl⟩

/-- The only leaf that the grammar sees is the first token. -/
theorem exists_firstToken?_of_row (h : n.row = [leaf kind s]) :
    ∃ t, n.firstToken? = some t ∧ t.kind = kind ∧ n.start ≤ t.start ∧ t.stop ≤ n.located.stop := by
  obtain ⟨t, ht, hkind, htrivia⟩ := exists_token_of_mem_row (h ▸ List.mem_singleton_self (leaf kind s))
  have hsome : n.firstToken?.isSome := List.find?_isSome.2 ⟨t, ht, by simp [hkind, htrivia]⟩
  obtain ⟨u, hu⟩ := Option.isSome_iff_exists.1 hsome
  obtain ⟨hmem, hbounds⟩ := mem_row_of_mem_tokens (List.mem_of_find?_eq_some hu) (by simpa using List.find?_some hu)
  rw [h, List.mem_singleton] at hmem
  cases hmem
  exact ⟨u, hu, rfl, hbounds⟩

/-! ## Nodes with the children that they ask for -/

/-- The node and those below it have the children that their kinds ask for. -/
def Conforms (gaps : Bool) (n : Node k) : Prop :=
  n.located.tree.Everywhere fun k cs => Grammar.clear (withoutTriviaInList cs) ∈ Grammar.production gaps k

theorem Conforms.row_mem (h : n.Conforms gaps) : n.row ∈ Grammar.production gaps k := h.1

theorem Conforms.child {m : Node kind} (h : n.Conforms gaps) (hm : n.childAs? kind = some m) :
    m.Conforms gaps := by
  obtain ⟨l, hl, hm⟩ := List.exists_of_findSome?_eq_some hm
  obtain rfl := Located.located_of_as? hm
  exact (everywhere_node.1 h).2 _ (Located.mem_of_mem_row hl)

/-- The operator of a binary expression stands between its operands. -/
theorem Conforms.binary {n : Node .binaryExpression} (h : n.Conforms gaps) : ∃ lhs operator,
    n.lhs? = some lhs ∧ n.binaryOperator? = some operator ∧ lhs.located.stop ≤ operator.start ∧
      ∀ rhs ∈ n.rhs?, operator.stop ≤ rhs.located.start := by
  obtain ⟨_, -, _, ⟨_, ⟨k, hk, cs, rfl, -, -⟩, _, ⟨ds, rfl, -⟩, rfl⟩, R, -, hrow⟩ := h.row_mem
  have hpieces := n.map_pieces.trans hrow.symm
  obtain ⟨left, ls, hls, hleft, hrest⟩ := List.map_eq_cons_iff.1 hpieces
  obtain ⟨sign, rights, rfl, hsign, -⟩ := List.map_eq_cons_iff.1 hrest
  obtain ⟨cs, hleft⟩ := exists_node_of_withoutTrivia hleft
  obtain ⟨ds, hsign⟩ := exists_node_of_withoutTrivia hsign
  have hpairwise := n.pairwise_pieces
  rw [hls, List.pairwise_cons, List.pairwise_cons] at hpairwise
  obtain ⟨hbehind, hrights, -⟩ := hpairwise
  -- the left operand is the first expression, and the right one comes behind the operator
  obtain ⟨lhs, hlhs⟩ := Option.isSome_iff_exists.1 (Expr.ofLocated?_isSome_iff.2 ⟨k, hk, cs, hleft⟩)
  have hnone : Expr.ofLocated? sign = none := by
    rw [Expr.ofLocated?, hsign]
  have hexprs : n.exprs = lhs :: rights.filterMap Expr.ofLocated? := by
    rw [exprs_eq, hls, List.filterMap_cons_some hlhs, List.filterMap_cons_none hnone]
  obtain rfl := Expr.located_of_ofLocated? hlhs
  -- the operator is the first token of its node
  have hkind : k ≠ .binaryOperator := by
    rintro rfl
    exact absurd hk (by decide)
  have hchild : n.childAs? .binaryOperator = some ⟨sign.start, ds⟩ := by
    have hleft : lhs.located.as? .binaryOperator = none := by
      rw [Located.as?, hleft]
      exact if_neg hkind
    have hsign : sign.as? .binaryOperator = some ⟨sign.start, ds⟩ := by
      rw [Located.as?, hsign]
      rfl
    rw [childAs?_eq (by decide), hls]
    simp only [List.filterMap_cons, hleft, hsign, List.head?_cons]
  obtain ⟨kind, -, s, hsignRow⟩ := (h.child hchild).row_mem
  obtain ⟨operator, hoperator, -, hstart, hstop⟩ := exists_firstToken?_of_row hsignRow
  have hsize : (⟨sign.start, ds⟩ : Node .binaryOperator).located.stop = sign.stop := by
    rw [Located.stop, Located.stop, hsign]
    rfl
  refine ⟨lhs, operator, by rw [lhs?, expr?, hexprs]; rfl, by rw [binaryOperator?, hchild]; exact hoperator,
    (hbehind _ List.mem_cons_self).trans hstart, fun rhs hrhs => ?_⟩
  rw [rhs?, secondExpr?, hexprs] at hrhs
  obtain ⟨l, hl, hrhs⟩ := List.mem_filterMap.1 (List.mem_of_getElem? hrhs)
  rw [Expr.located_of_ofLocated? hrhs]
  exact (hsize ▸ hstop).trans (hrights l hl)

/-- The operator of a unary expression is the first token of its node. -/
theorem Conforms.unary {n : Node .unaryExpression} (h : n.Conforms gaps) : n.unaryOperator?.isSome := by
  have hrow : n.row ∈ Grammar.holding [.unaryOperator] :=
    Grammar.mul_le_holding_left Grammar.node_le_holding h.row_mem
  obtain ⟨m, hm⟩ := Option.isSome_iff_exists.1 (childAs?_isSome hrow)
  obtain ⟨kind, -, s, hsign⟩ := (h.child hm).row_mem
  obtain ⟨operator, hoperator, -⟩ := exists_firstToken?_of_row hsign
  rw [unaryOperator?, hm, Option.bind_some, hoperator]
  rfl

/-- **A field and a key exclude each other.** -/
theorem Conforms.index {n : Node .indexExpression} (h : n.Conforms gaps) :
    ¬ (n.fieldName?.isSome ∧ n.indexKey?.isSome) := by
  rintro ⟨hfield, hkey⟩
  obtain ⟨_, ⟨k, hk, cs, rfl, -⟩, R, hR, hrow⟩ := h.row_mem
  obtain ⟨base, ls, hls, hbase, hrest⟩ := List.map_eq_cons_iff.1 (n.map_pieces.trans hrow.symm)
  have hident : ∃ s, leaf .ident s ∈ R := by
    obtain ⟨t, ht⟩ := Option.isSome_iff_exists.1 hfield
    have hkind : t.kind = .ident := by simpa using List.find?_some ht
    have hmem := (mem_row_of_mem_tokens (List.mem_of_find?_eq_some ht) (by rw [hkind]; decide)).1
    rw [← hrow, hkind] at hmem
    exact ⟨t.text, (List.mem_cons.1 hmem).resolve_left nofun⟩
  have hnode : ∃ k ∈ Grammar.expressionKinds, ∃ cs, node k cs ∈ R := by
    obtain ⟨cs, hbase⟩ := exists_node_of_withoutTrivia hbase
    obtain ⟨e, he⟩ := Option.isSome_iff_exists.1
      (Expr.ofLocated?_isSome_iff.2 ⟨k, List.mem_append_left _ hk, cs, hbase⟩)
    obtain ⟨key, hkey⟩ := Option.isSome_iff_exists.1 hkey
    rw [indexKey?, secondExpr?, exprs_eq, hls, List.filterMap_cons_some he] at hkey
    obtain ⟨l, hl, hkey⟩ := List.mem_filterMap.1 (List.mem_of_getElem? hkey)
    obtain ⟨k, hk, cs, htree⟩ := Expr.ofLocated?_isSome_iff.1 (Option.isSome_iff_exists.2 ⟨key, hkey⟩)
    refine ⟨k, hk, withoutTriviaInList cs, ?_⟩
    rw [show R = ls.map _ from hrest.symm]
    exact List.mem_map.2 ⟨l, hl, by rw [htree]; rfl⟩
  exact Grammar.not_both_of_selector hR hident hnode

/-- **The child nodes of a list of statements are statements**, or what could not be read. -/
theorem Conforms.statementList {n : Node .statementList} (h : n.Conforms gaps) (hl : l ∈ n.parts)
    (hnode : l.tree.isLeaf = false) : (Stmt.ofLocated? l).isSome ∨ l.kind = .error := by
  obtain ⟨start, tree⟩ := l
  cases tree with
  | leaf => cases hnode
  | node k cs =>
    by_cases hk : k = .error
    · exact .inr hk
    have hmem := node_mem_clear (Located.mem_of_mem_row hl) hk
    have hkinds := Grammar.kind_of_mem_statementList h.row_mem hmem
    refine .inl ?_
    unfold Stmt.ofLocated?
    dsimp only
    split <;> simp_all [Grammar.statementKinds]

/-- **A statement that returns comes last.** -/
theorem Conforms.returns {n : Node .statementList} (h : n.Conforms gaps) {before behind : List Located}
    {r : Node .returnStatement} (hr : n.parts = before ++ r.located :: behind) :
    ∀ l ∈ behind, l.tree.isStray = true := by
  have hrow := n.map_pieces
  rw [pieces, hr, List.filter_append, List.filter_cons_of_pos (by rfl), List.map_append, List.map_cons] at hrow
  have hbehind := Grammar.eq_nil_of_statementList (hrow ▸ h.row_mem)
  rw [List.map_eq_nil_iff, List.filter_eq_nil_iff] at hbehind
  exact fun l hl => by simpa using hbehind l hl

end Node

/-! ## The nodes of a tree -/

mutual

/-- What holds of every node holds everywhere below each of them. -/
theorem Tree.everywhere_of_mem_nodesFrom {P : Kind → List Tree → Prop} {l : Located} :
    ∀ {t : Tree} {start : Nat}, t.Everywhere P → l ∈ Located.nodesFrom start t → l.tree.Everywhere P
  | leaf .., _, _, hl => nomatch hl
  | node _ _, _, h, hl => by
    rcases List.mem_cons.1 hl with rfl | hl
    · exact h
    · exact everywhere_of_mem_nodesOfRow h.2 hl

theorem Tree.everywhere_of_mem_nodesOfRow {P : Kind → List Tree → Prop} {l : Located} :
    ∀ {ts : List Tree} {start : Nat}, EverywhereInList P ts → l ∈ Located.nodesOfRow start ts →
      l.tree.Everywhere P
  | [], _, _, hl => nomatch hl
  | _ :: _, _, h, hl => by
    rcases List.mem_append.1 hl with hl | hl
    · exact everywhere_of_mem_nodesFrom h.1 hl
    · exact everywhere_of_mem_nodesOfRow h.2 hl

end

/-- **What the accessors find on every node of a tree**, by the kinds of the nodes. -/
structure Tree.Accessible (t : Tree) : Prop where
  chunk (n : Node .chunk) : n.located ∈ t.nodes → n.block?.isSome
  /-- The operator stands between the operands. -/
  binary (n : Node .binaryExpression) : n.located ∈ t.nodes → ∃ lhs operator,
    n.lhs? = some lhs ∧ n.binaryOperator? = some operator ∧ lhs.located.stop ≤ operator.start ∧
      ∀ rhs ∈ n.rhs?, operator.stop ≤ rhs.located.start
  unary (n : Node .unaryExpression) : n.located ∈ t.nodes → n.unaryOperator?.isSome
  index (n : Node .indexExpression) : n.located ∈ t.nodes →
    n.base?.isSome ∧ ¬ (n.fieldName?.isSome ∧ n.indexKey?.isSome)
  call (n : Node .callExpression) : n.located ∈ t.nodes → n.callee?.isSome ∧ n.arguments?.isSome
  callStatement (n : Node .callStatement) : n.located ∈ t.nodes → n.call?.isSome
  expression (n : Node .expressionStatement) : n.located ∈ t.nodes → n.expressionList?.isSome
  assignment (n : Node .assignmentStatement) : n.located ∈ t.nodes → n.targets?.isSome
  var (n : Node .var) : n.located ∈ t.nodes → n.target?.isSome
  localName (n : Node .localNameStatement) : n.located ∈ t.nodes → n.nameList?.isSome
  doBlock (n : Node .doStatement) : n.located ∈ t.nodes → n.block?.isSome
  whileLoop (n : Node .whileStatement) : n.located ∈ t.nodes → n.block?.isSome
  repeatLoop (n : Node .repeatStatement) : n.located ∈ t.nodes → n.block?.isSome
  simpleFor (n : Node .simpleForStatement) : n.located ∈ t.nodes → n.block?.isSome
  rangeFor (n : Node .rangeForStatement) : n.located ∈ t.nodes → n.nameList?.isSome ∧ n.block?.isSome
  ifBranch (n : Node .ifStatement) : n.located ∈ t.nodes → n.thenBranch?.isSome
  thenBranch (n : Node .thenBranch) : n.located ∈ t.nodes → n.block?.isSome
  elseifBranch (n : Node .elseifBranch) : n.located ∈ t.nodes → n.block?.isSome
  elseBranch (n : Node .elseBranch) : n.located ∈ t.nodes → n.block?.isSome
  functionDefinition (n : Node .functionDefinitionStatement) : n.located ∈ t.nodes →
    n.functionName?.isSome ∧ n.functionBody?.isSome
  localFunction (n : Node .localFunctionStatement) : n.located ∈ t.nodes → n.functionBody?.isSome
  function (n : Node .functionExpression) : n.located ∈ t.nodes → n.functionBody?.isSome
  functionBody (n : Node .functionBody) : n.located ∈ t.nodes → n.parameters?.isSome ∧ n.block?.isSome
  name (n : Node .name) : n.located ∈ t.nodes → n.declared?.isSome
  nameRef (n : Node .nameRef) : n.located ∈ t.nodes → n.used?.isSome
  number (n : Node .numberLiteral) : n.located ∈ t.nodes → n.numberToken?.isSome
  string (n : Node .stringLiteral) : n.located ∈ t.nodes → n.stringToken?.isSome
  /-- The child nodes are statements or Error nodes. -/
  statements (n : Node .statementList) : n.located ∈ t.nodes →
    ∀ l ∈ n.parts, l.tree.isLeaf = false → (Stmt.ofLocated? l).isSome ∨ l.kind = .error
  /-- Nothing but trivia and what could not be read stands behind a statement that returns. -/
  returns (n : Node .statementList) : n.located ∈ t.nodes →
    ∀ before (r : Node .returnStatement) behind, n.parts = before ++ r.located :: behind →
      ∀ l ∈ behind, l.tree.isStray = true

open Grammar Node in
/-- **Recovery never breaks the typed view**: whatever the source, the pieces that are never missing are found
on every node of its tree. -/
theorem parse_accessible (source : String) (settings : Settings) :
    ∃ p, parse source settings = .ok p ∧ p.tree.Accessible := by
  obtain ⟨p, hp, gaps, hconforms, -⟩ := parse_conforms source settings
  have conforms {k : Kind} (n : Node k) (hn : n.located ∈ p.tree.nodes) : n.Conforms gaps :=
    everywhere_of_mem_nodesFrom ((everywhere_withoutTrivia p.tree).1 hconforms) hn
  -- what is never missing in a production is found among the children
  have child {k kind : Kind} (n : Node k) (hn : n.located ∈ p.tree.nodes)
      (h : production gaps k ≤ holding [kind]) : (n.childAs? kind).isSome :=
    childAs?_isSome (h (conforms n hn).row_mem)
  have expr {k : Kind} (n : Node k) (hn : n.located ∈ p.tree.nodes)
      (h : production gaps k ≤ holding expressionKinds) : n.expr?.isSome :=
    expr?_isSome (h (conforms n hn).row_mem)
  have ident {k : Kind} (n : Node k) (hn : n.located ∈ p.tree.nodes)
      (h : production gaps k ≤ token .ident) : (n.token? .ident).isSome := by
    obtain ⟨s, hrow⟩ := h (conforms n hn).row_mem
    exact token?_isSome (hrow ▸ List.mem_singleton_self (leaf .ident s))
  have first {k : Kind} {set : KindSet} (n : Node k) (hn : n.located ∈ p.tree.nodes)
      (h : production gaps k ≤ tokenOf set) : (n.firstToken?.filter (set.contains ·.kind)).isSome := by
    obtain ⟨kind, hkind, s, hrow⟩ := h (conforms n hn).row_mem
    obtain ⟨t, ht, rfl, -⟩ := exists_firstToken?_of_row hrow
    rw [ht, Option.filter_some, if_pos (KindSet.mem_iff_contains.1 hkind)]
    rfl
  refine ⟨p, hp, ?_⟩
  exact {
    chunk := fun n hn => child n hn (mul_le_holding_left node_le_holding)
    binary := fun n hn => (conforms n hn).binary
    unary := fun n hn => (conforms n hn).unary
    index := fun n hn => ⟨expr n hn (mul_le_holding_left chain_le_holding), (conforms n hn).index⟩
    call := fun n hn => ⟨expr n hn (mul_le_holding_left (nodeOf_le_holding (List.subset_append_left ..))),
      child n hn (mul_le_holding_right node_le_holding)⟩
    callStatement := fun n hn => child n hn node_le_holding
    expression := fun n hn => child n hn expressionStatement_le_holding
    assignment := fun n hn => child n hn (mul_le_holding_left (mul_le_holding_left node_le_holding))
    var := fun n hn => expr n hn fun _ h => chain_le_holding h.1
    localName := fun n hn => child n hn (mul_le_holding_left (mul_le_holding_right node_le_holding))
    doBlock := fun n hn => child n hn (mul_le_holding_left (mul_le_holding_right node_le_holding))
    whileLoop := fun n hn => child n hn (mul_le_holding_left (mul_le_holding_right node_le_holding))
    repeatLoop := fun n hn => child n hn (mul_le_holding_left (mul_le_holding_right node_le_holding))
    simpleFor := fun n hn => child n hn (mul_le_holding_left (mul_le_holding_right node_le_holding))
    rangeFor := fun n hn => ⟨child n hn (mul_le_holding_left (mul_le_holding_left (mul_le_holding_left
      (mul_le_holding_left (mul_le_holding_left (mul_le_holding_right node_le_holding)))))),
      child n hn (mul_le_holding_left (mul_le_holding_right node_le_holding))⟩
    ifBranch := fun n hn => child n hn (mul_le_holding_left (mul_le_holding_left (mul_le_holding_left
      (mul_le_holding_right node_le_holding))))
    thenBranch := fun n hn => child n hn node_le_holding
    elseifBranch := fun n hn => child n hn (mul_le_holding_right node_le_holding)
    elseBranch := fun n hn => child n hn (mul_le_holding_right node_le_holding)
    functionDefinition := fun n hn => ⟨child n hn (mul_le_holding_left (mul_le_holding_right node_le_holding)),
      child n hn (mul_le_holding_right node_le_holding)⟩
    localFunction := fun n hn => child n hn (mul_le_holding_right node_le_holding)
    function := fun n hn => child n hn (mul_le_holding_right node_le_holding)
    functionBody := fun n hn => ⟨child n hn (mul_le_holding_left (mul_le_holding_left node_le_holding)),
      child n hn (mul_le_holding_left (mul_le_holding_right node_le_holding))⟩
    name := fun n hn => ident n hn fun _ h => h
    nameRef := fun n hn => ident n hn fun _ h => h
    number := fun n hn => first n hn fun _ h => h
    string := fun n hn => first n hn fun _ h => h
    statements := fun n hn l hl hnode => (conforms n hn).statementList hl hnode
    returns := fun n hn before r behind hr => (conforms n hn).returns hr }

end LuaTree
