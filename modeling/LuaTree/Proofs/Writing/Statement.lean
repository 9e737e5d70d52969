import LuaTree.Proofs.Parts
import LuaTree.Proofs.Writing.Operation

/-!
# Proofs/Writing/Statement — statements are written

One lemma for each statement, read off its text.  Where the statement ends is open only for those that
end with an expression or a list of names; there the semicolon behind it decides.
-/

namespace LuaTree.Production

open LuaTree.Parser Grammar Computability

variable {i : Input} {enter : Enter} {us : Leaves} {cs : List Tree} {t : Tree} {s s₀ : State}
  {ds : List Draft} {ts : List Tree} {x : Closed} {k : Kind} {β : Type} {Q : β → State → Prop}

/-! ## Blocks and branches -/

section

variable (he : Accepts i enter)
include he

theorem doStatement_writes (h : (Tree.node .doStatement cs).Delimited) :
    Writes i (doStatement enter) [.node .doStatement cs] us fun _ => True := by
  obtain ⟨_, ⟨_, ⟨y, rfl⟩, _, ⟨bs, rfl⟩, rfl⟩, _, ⟨z, rfl⟩, rfl⟩ := h.row
  intro s hs
  refine hs.children.wrote.start fun o s₁ ho w => w.currentSpan fun keyword => ?_
  simp only [Tree.leavesOfList_append, List.append_assoc] at w
  refine w.bump fun s₂ w => ?_
  refine w.step (block_writes he (h.child (by simp)) (by change Kind.kwEnd ∈ blockEnd; decide)) ?_
  refine fun _ s₃ w _ => w.expectClosing fun s₄ w => .last (w.finish ho fun s₅ w => ?_)
  exact .pure ⟨w, trivial⟩

theorem whileStatement_writes (h : (Tree.node .whileStatement cs).Delimited) :
    Writes i (whileStatement enter) [.node .whileStatement cs] us fun _ => True := by
  obtain ⟨_, ⟨_, ⟨_, ⟨_, ⟨y, rfl⟩, _, ht, rfl⟩, _, ⟨z, rfl⟩, rfl⟩, _, ⟨bs, rfl⟩, rfl⟩, _, ⟨u, rfl⟩, rfl⟩ :=
    h.row
  obtain ⟨k, -, ds, rfl, -⟩ := id (show _ ∈ Grammar.expression false from ht)
  intro s hs
  refine hs.children.wrote.start fun o s₁ ho w => w.currentSpan fun keyword => ?_
  simp only [Tree.leavesOfList_append, List.append_assoc] at w
  refine w.bump fun s₂ w => ?_
  refine w.step (expectExpression_writes he (h.child (by simp)) ht
    (by change Stops 0 .kwDo; decide)) fun _ s₃ w _ => w.expect fun s₄ w => ?_
  refine w.step (block_writes he (h.child (by simp)) (by change Kind.kwEnd ∈ blockEnd; decide)) ?_
  refine fun _ s₅ w _ => w.expectClosing fun s₆ w => .last (w.finish ho fun s₇ w => ?_)
  exact .pure ⟨w, trivial⟩

theorem repeatStatement_writes (h : (Tree.node .repeatStatement cs).Delimited)
    (hus : Stops 0 (first us)) :
    Writes i (repeatStatement enter) [.node .repeatStatement cs] us fun _ => True := by
  obtain ⟨_, ⟨_, ⟨y, rfl⟩, _, ⟨bs, rfl⟩, rfl⟩, _, ⟨_, ⟨z, rfl⟩, _, ht, rfl⟩, rfl⟩ := h.row
  obtain ⟨k, -, ds, rfl, -⟩ := id (show _ ∈ Grammar.expression false from ht)
  intro s hs
  refine hs.children.wrote.start fun o s₁ ho w => w.currentSpan fun keyword => ?_
  simp only [Tree.leavesOfList_append, List.append_assoc] at w
  refine w.bump fun s₂ w => ?_
  refine w.step (block_writes he (h.child (by simp)) (by change Kind.kwUntil ∈ blockEnd; decide)) ?_
  refine fun _ s₃ w _ => w.expectClosing fun s₄ w => ?_
  refine w.step (expectExpression_writes he (h.child (by simp)) ht hus) fun _ s₅ w _ => ?_
  exact .last (w.finish ho fun s₆ w => .pure ⟨w, trivial⟩)

omit he in
theorem first_elseif {row : List Tree} (hrow : row ∈ node .elseifBranch) (hd : ∀ t ∈ row, t.Delimited)
    (vs : Leaves) : first (Tree.leavesOfList row ++ vs) = .kwElseif := by
  obtain ⟨bs, rfl⟩ := hrow
  obtain ⟨_, ⟨_, ⟨_, ⟨y, rfl⟩, us, -, rfl⟩, ws, -, rfl⟩, xs, -, rfl⟩ := (hd _ (List.mem_singleton_self _)).row
  rfl

omit he in
theorem first_else {row : List Tree} (hrow : row ∈ node .elseBranch) (hd : ∀ t ∈ row, t.Delimited)
    (vs : Leaves) : first (Tree.leavesOfList row ++ vs) = .kwElse := by
  obtain ⟨bs, rfl⟩ := hrow
  obtain ⟨_, ⟨y, rfl⟩, us, -, rfl⟩ := (hd _ (List.mem_singleton_self _)).row
  rfl

theorem elseifBranches_writes (hcs : cs ∈ (node .elseifBranch)∗) (hd : ∀ t ∈ cs, t.Delimited)
    (hus : first us ∈ blockEnd) (hne : first us ≠ .kwElseif) :
    Writes i (elseifBranches enter) cs us fun _ => True := by
  rw [← List.append_nil cs]
  refine star_writes (P := (· ∈ blockEnd)) (fun row hrow hrowd vs hvs s hs => ?_)
    (fun row hrow hrowd vs => ?_) hus (fun s hs => hs.wrote.notAt hne fun w => .pure ⟨w, rfl⟩) hcs hd
  · obtain ⟨bs, rfl⟩ := hrow
    have h := hrowd _ (List.mem_singleton_self _)
    obtain ⟨_, ⟨_, ⟨_, ⟨y, rfl⟩, _, ht, rfl⟩, _, ⟨z, rfl⟩, rfl⟩, _, ⟨bs, rfl⟩, rfl⟩ := h.row
    obtain ⟨k, -, ds, rfl, -⟩ := id (show _ ∈ Grammar.expression false from ht)
    rw [Tree.leavesOfList_node] at hs
    simp only [Tree.leavesOfList_append, List.append_assoc] at hs
    refine hs.wrote.isAt rfl fun w₀ => w₀.toAt.wrote.start fun o s₁ ho w => w.bump fun s₂ w => ?_
    refine w.step (expectExpression_writes he (h.child (by simp)) ht
      (by change Stops 0 .kwThen; decide)) fun _ s₃ w _ => w.expect fun s₄ w => ?_
    refine w.step (block_writes he (h.child (by simp)) hvs) fun _ s₅ w _ => ?_
    exact w.finish ho fun s₆ w => .pure ⟨w₀.trans w, rfl⟩
  · rw [first_elseif hrow hrowd]
    decide

theorem ifStatement_writes (h : (Tree.node .ifStatement cs).Delimited) :
    Writes i (ifStatement enter) [.node .ifStatement cs] us fun _ => True := by
  obtain ⟨_, ⟨_, ⟨_, ⟨_, ⟨_, ⟨_, ⟨y, rfl⟩, _, ht, rfl⟩, _, ⟨z, rfl⟩, rfl⟩, _, ⟨bs, rfl⟩, rfl⟩, branches,
    hbranches, rfl⟩, otherwise, hotherwise, rfl⟩, _, ⟨v, rfl⟩, rfl⟩ := h.row
  obtain ⟨k, -, ds, rfl, -⟩ := id (show _ ∈ Grammar.expression false from ht)
  have hbranchesd : ∀ t ∈ branches, t.Delimited := fun t ht => h.child (by simp [ht])
  have hend : first (Tree.leavesOfList otherwise ++ (Tree.leavesOfList [.leaf .kwEnd v] ++ us)) ∈ blockEnd ∧
      first (Tree.leavesOfList otherwise ++ (Tree.leavesOfList [.leaf .kwEnd v] ++ us)) ≠ .kwElseif := by
    rcases hotherwise with rfl | hotherwise
    · exact (by decide : Kind.kwEnd ∈ blockEnd ∧ Kind.kwEnd ≠ .kwElseif)
    · rw [first_else hotherwise fun t ht => h.child (by simp [ht])]
      decide
  have hafter := first_star (P := (· ∈ blockEnd)) (fun row hrow hrowd vs => by
    rw [first_elseif hrow hrowd]
    decide) hend.1 hbranches hbranchesd
  obtain ⟨es, rfl⟩ := id (h.child (t := .node .thenBranch bs) (by simp)).row
  intro s hs
  refine hs.children.wrote.start fun o s₁ ho w => w.currentSpan fun keyword => ?_
  simp only [Tree.leavesOfList_append, List.append_assoc] at w
  refine w.bump fun s₂ w => ?_
  refine w.step (expectExpression_writes he (h.child (by simp)) ht
    (by change Stops 0 .kwThen; decide)) fun _ s₃ w _ => w.expect fun s₄ w => ?_
  rw [Tree.leavesOfList_node .thenBranch] at w
  refine w.start fun thenBranch s₅ hthen wt => ?_
  refine wt.step (block_writes he ?_ hafter) fun _ s₆ wt _ => wt.finish hthen fun s₇ wt => ?_
  · exact (h.child (t := .node .thenBranch _) (by simp)).child (List.mem_singleton_self _)
  refine (w.trans wt).step (elseifBranches_writes he hbranches hbranchesd hend.1 hend.2) fun _ s₈ w _ => ?_
  rcases hotherwise with rfl | ⟨fs, rfl⟩
  · refine w.notAt (by exact (by decide : Kind.kwEnd ≠ .kwElse)) fun w => ?_
    refine w.expectClosing fun s₉ w => .last (w.finish ho fun s₁₀ w => .pure ⟨?_, trivial⟩)
    simpa using w
  · have helse := h.child (t := .node .elseBranch fs) (by simp)
    obtain ⟨_, ⟨u, rfl⟩, _, ⟨gs, rfl⟩, rfl⟩ := id helse.row
    rw [Tree.leavesOfList_node .elseBranch, Tree.leavesOfList_append, List.append_assoc] at w
    refine w.isAt rfl fun w => w.start fun elseBranch s₉ he' we => we.bump fun s₁₀ we => ?_
    refine we.step (block_writes he (helse.child (by simp)) (by change Kind.kwEnd ∈ blockEnd; decide)) ?_
    refine fun _ s₁₁ we _ => we.finish he' fun s₁₂ we => (w.trans we).expectClosing fun s₁₃ w => ?_
    refine .last (w.finish ho fun s₁₄ w => .pure ⟨?_, trivial⟩)
    simpa using w

/-! ## Loops over numbers and over lists -/

omit he in
/-- Names up to what is no comma; the answer is how many there are. -/
theorem names_writes {rows : List (List Tree)} (hname : t.Delimited) (ht : [t] ∈ node .name)
    (hrows : ∀ row ∈ rows, row ∈ token .comma * node .name) (hd : ∀ t ∈ rows.flatten, t.Delimited)
    (hus : first us ≠ .comma) :
    Writes i names ([t] ++ rows.flatten) us (· = 1 + rows.length) := by
  obtain ⟨ds, hds⟩ := id ht
  obtain rfl := (List.cons.inj hds).1
  obtain ⟨y, rfl⟩ := id hname.row
  intro s hs
  rw [Tree.leavesOfList_append, List.append_assoc] at hs
  refine hs.wrote.isAt rfl fun w => w.step (name_writes hname ht) fun _ s₁ w _ => ?_
  rw [← List.append_nil rows.flatten] at w ⊢
  refine .last (w.step (loop_writes (I := fun count left => count + left.length = 1 + rows.length ∧
    ∀ row ∈ left, row ∈ rows) (R := (· = 1 + rows.length)) ?_ rfl ?_ ⟨rfl, fun _ h => h⟩) ?_)
  · rintro count row left ⟨hcount, hmem⟩
    obtain ⟨hrow, hleft⟩ := List.forall_mem_cons.1 hmem
    obtain ⟨_, ⟨z, rfl⟩, _, ⟨es, rfl⟩, rfl⟩ := hrows row hrow
    have hname' := hd (.node .name es) (List.mem_flatten.2 ⟨_, hrow, by simp⟩)
    obtain ⟨z', rfl⟩ := id hname'.row
    intro s hs
    rw [Tree.leavesOfList_append, List.append_assoc] at hs
    refine hs.wrote.eat fun s₂ w => w.isAt rfl fun w => ?_
    refine w.step (name_writes hname' ⟨_, rfl⟩) fun _ s₃ w _ => .pure ⟨w, count + 1, rfl, ?_, hleft⟩
    rw [← hcount, List.length_cons]
    omega
  · rintro count ⟨hcount, -⟩ s hs
    exact hs.wrote.notEat hus fun w => .pure ⟨w, count, rfl, by simpa using hcount⟩
  · exact fun count s₂ w hcount => .pure ⟨w, hcount⟩

omit he in
theorem nameList_writes (h : (Tree.node .nameList cs).Delimited) (hus : first us ≠ .comma) :
    Writes i names cs us fun _ => True := by
  obtain ⟨_, ⟨_, ⟨ds, rfl⟩, _, hmore, rfl⟩, _, rfl, rfl⟩ := h.row
  obtain ⟨rows, rfl, hrows⟩ := Language.mem_kstar.1 hmore
  have hnames := names_writes (i := i) (h.child (t := .node .name ds) (by simp)) ⟨ds, rfl⟩ hrows
    (fun t ht => h.child (List.mem_append_left _ (List.mem_append_right _ ht))) hus
  intro s hs
  rw [← List.append_nil ([_] ++ _)] at hnames
  exact (hnames s hs).mono fun _ _ ⟨w, _⟩ => ⟨w, trivial⟩

omit he in
theorem oneName_writes (hname : t.Delimited) (ht : [t] ∈ node .name) (hus : first us ≠ .comma) :
    Writes i names [t] us (· = 1) := by
  have hnone : ∀ row ∈ ([] : List (List Tree)), row ∈ token .comma * node .name := nofun
  simpa using names_writes (i := i) hname ht hnone nofun hus

/-- The body of a loop, whichever it is. -/
theorem loopBody_writes {z u : String} {bs : List Tree} {keyword : Span} {o : Opening} {d : Draft}
    (hb : (Tree.node .block bs).Delimited) (ho : Opens i s₀ o d)
    (w : Wrote i s₀ s [d] ts (Tree.leavesOfList [.leaf .kwDo z] ++ (Tree.leavesOfList [.node .block bs] ++
      (Tree.leavesOfList [.leaf .kwEnd u] ++ us)))) :
    Yields (loopBody enter o keyword k) i s fun _ s' => Wrote i s₀ s' []
      [.node k (ts ++ [.leaf .kwDo z] ++ [.node .block bs] ++ [.leaf .kwEnd u])] us := by
  refine w.expect fun s₁ w => ?_
  refine w.step (block_writes he hb (by change Kind.kwEnd ∈ blockEnd; decide)) fun _ s₂ w _ => ?_
  exact w.expectClosing fun s₃ w => w.finished ho

theorem simpleFor_writes (h : (Tree.node .simpleForStatement cs).Delimited) :
    Writes i (forStatement enter) [.node .simpleForStatement cs] us fun _ => True := by
  obtain ⟨_, ⟨_, ⟨_, ⟨_, ⟨_, ⟨_, ⟨_, ⟨_, ⟨_, ⟨y, rfl⟩, _, ⟨_, ⟨ns, rfl⟩, _, rfl, rfl⟩, rfl⟩, _, ⟨z, rfl⟩,
    rfl⟩, _, hfrom, rfl⟩, _, ⟨u, rfl⟩, rfl⟩, _, hto, rfl⟩, step, hstep, rfl⟩, _, ⟨v, rfl⟩, rfl⟩, _,
    ⟨bs, rfl⟩, rfl⟩, _, ⟨e, rfl⟩, rfl⟩ := h.row
  obtain ⟨k, -, fs, rfl, -⟩ := id (show _ ∈ Grammar.expression false from hfrom)
  obtain ⟨l, -, gs, rfl, -⟩ := id (show _ ∈ Grammar.expression false from hto)
  intro s hs
  refine hs.children.wrote.start fun o s₁ ho w => w.currentSpan fun keyword => ?_
  simp only [Tree.leavesOfList_append, List.append_assoc] at w
  refine w.bump fun s₂ w => w.start fun list s₃ hl wl => ?_
  refine wl.step (oneName_writes (h.child (by simp)) ⟨ns, rfl⟩
    (by exact (by decide : Kind.equals ≠ .comma))) ?_
  rintro _ s₄ wl rfl
  rw [if_neg (Nat.lt_irrefl 1)]
  refine wl.notAt (by exact (by decide : Kind.equals ≠ .kwIn)) fun wl => wl.abandon hl fun s₅ wl => ?_
  refine (w.trans wl).expect fun s₆ w => ?_
  refine w.step (expectExpression_writes he (h.child (by simp)) hfrom
    (by change Stops 0 .comma; decide)) fun _ s₇ w _ => w.expect fun s₈ w => ?_
  have hstop : Stops 0 (first (Tree.leavesOfList step ++ (Tree.leavesOfList [.leaf .kwDo v] ++
      (Tree.leavesOfList [.node .block bs] ++ (Tree.leavesOfList [.leaf .kwEnd e] ++ us))))) := by
    rcases hstep with rfl | ⟨_, ⟨c, rfl⟩, ts, -, rfl⟩
    · exact (by decide : Stops 0 .kwDo)
    · exact (by decide : Stops 0 .comma)
  refine w.step (expectExpression_writes he (h.child (by simp)) hto hstop) fun _ s₉ w _ => ?_
  have hb := h.child (t := .node .block bs) (by simp)
  rcases hstep with rfl | ⟨_, ⟨c, rfl⟩, _, hby, rfl⟩
  · refine w.notEat (by exact (by decide : Kind.kwDo ≠ .comma)) fun w => ?_
    exact (loopBody_writes he hb ho w).mono fun _ _ w => ⟨by simpa using w, trivial⟩
  · obtain ⟨m, -, ms, rfl, -⟩ := id (show _ ∈ Grammar.expression false from hby)
    rw [Tree.leavesOfList_append, List.append_assoc] at w
    refine w.eat fun s₁₀ w => ?_
    refine w.step (expectExpression_writes he (h.child (by simp)) hby
      (by change Stops 0 .kwDo; decide)) fun _ s₁₁ w _ => ?_
    exact (loopBody_writes he hb ho w).mono fun _ _ w => ⟨by simpa using w, trivial⟩

theorem rangeFor_writes (h : (Tree.node .rangeForStatement cs).Delimited) :
    Writes i (forStatement enter) [.node .rangeForStatement cs] us fun _ => True := by
  obtain ⟨_, ⟨_, ⟨_, ⟨_, ⟨_, ⟨_, ⟨y, rfl⟩, _, ⟨ns, rfl⟩, rfl⟩, _, ⟨z, rfl⟩, rfl⟩, _, ⟨es, rfl⟩, rfl⟩, _,
    ⟨v, rfl⟩, rfl⟩, _, ⟨bs, rfl⟩, rfl⟩, _, ⟨e, rfl⟩, rfl⟩ := h.row
  intro s hs
  refine hs.children.wrote.start fun o s₁ ho w => w.currentSpan fun keyword => ?_
  simp only [Tree.leavesOfList_append, List.append_assoc] at w
  refine w.bump fun s₂ w => ?_
  rw [Tree.leavesOfList_node .nameList] at w
  refine w.start fun list s₃ hl wl => ?_
  refine wl.step (nameList_writes (h.child (by simp)) (by exact (by decide : Kind.kwIn ≠ .comma))) ?_
  intro count s₄ wl _
  have hrest {s₅ : State} (wl : Wrote i s₂ s₅ [.blank] ns (Tree.leavesOfList [.leaf .kwIn z] ++
      (Tree.leavesOfList [.node .expressionList es] ++ (Tree.leavesOfList [.leaf .kwDo v] ++
        (Tree.leavesOfList [.node .block bs] ++ (Tree.leavesOfList [.leaf .kwEnd e] ++ us)))))) :
      Yields (rangeFor enter o list keyword) i s₅ fun _ s' => Wrote i s s' [] [.node .rangeForStatement
          ([.leaf .kwFor y] ++ [.node .nameList ns] ++ [.leaf .kwIn z] ++ [.node .expressionList es] ++
            [.leaf .kwDo v] ++ [.node .block bs] ++ [.leaf .kwEnd e])] us ∧ True := by
    refine wl.finish hl fun s₆ wl => (w.trans wl).expect fun s₇ w => ?_
    refine w.step (expectExpressionList_writes he (h.child (by simp)) (by change Stops 0 .kwDo; decide)
      (by exact (by decide : Kind.kwDo ≠ .comma))) fun _ s₈ w _ => ?_
    exact (loopBody_writes he (h.child (by simp)) ho w).mono fun _ _ w => ⟨w, trivial⟩
  split
  · exact hrest wl
  · exact wl.isAt rfl hrest

/-! ## Functions and names -/

omit he in
/-- The suffixes of a function's name, of which only the last may name a method. -/
theorem path_le : path false ≤
    (token .dot * token .ident)∗ * (1 + token .colon * token .ident) := by
  refine add_le (mul_le_mul_left mul_kstar_le_kstar _) ?_
  exact le_add_self.trans (le_mul_of_one_le_left' one_le_kstar)

omit he in
theorem pathEnd_writes {o : Opening} {d : Draft} (hcs : cs ∈
      (token .dot * token .ident)∗ * (1 + token .colon * token .ident)) (hd : ∀ t ∈ cs, t.Delimited)
    (hus : first us = .parenOpen) (ho : Opens i s₀ o d)
    (w : Wrote i s₀ s [d] ts (Tree.leavesOfList cs ++ us)) :
    Yields (pathEnd o) i s fun _ s' => Wrote i s₀ s' [] [.node .functionName (ts ++ cs)] us ∧ True := by
  obtain ⟨dots, hdots, last, hlast, rfl⟩ := hcs
  simp only [Tree.leavesOfList_append, List.append_assoc] at w
  have hnext : first (Tree.leavesOfList last ++ us) ≠ .dot := by
    rcases hlast with rfl | ⟨_, ⟨y, rfl⟩, _, ⟨z, rfl⟩, rfl⟩
    · rw [Tree.leavesOfList, List.nil_append, hus]
      decide
    · exact (by decide : Kind.colon ≠ .dot)
  rw [← List.append_nil dots] at w
  refine w.step (star_writes (P := fun _ => True) ?_ (fun _ _ _ _ => trivial) trivial ?_ hdots
    fun t ht => hd t (List.mem_append_left _ ht)) fun _ s₁ w _ => ?_
  · rintro _ ⟨_, ⟨y, rfl⟩, _, ⟨z, rfl⟩, rfl⟩ - vs - s hs
    rw [Tree.leavesOfList_append, List.append_assoc] at hs
    exact hs.wrote.eat fun s₂ w => w.expect fun s₃ w => .pure ⟨w, rfl⟩
  · exact fun s hs => hs.wrote.notEat hnext fun w => .pure ⟨w, rfl⟩
  rcases hlast with rfl | ⟨_, ⟨y, rfl⟩, _, ⟨z, rfl⟩, rfl⟩
  · refine w.notEat (show first us ≠ .colon by rw [hus]; decide) fun w => .last (w.finish ho fun s₂ w => ?_)
    exact .pure ⟨by simpa [Tree.leavesOfList] using w, trivial⟩
  · rw [Tree.leavesOfList_append, List.append_assoc] at w
    refine w.eat fun s₂ w => w.expect fun s₃ w => .last (w.finish ho fun s₄ w => ?_)
    exact .pure ⟨by simpa using w, trivial⟩

omit he in
theorem functionName_writes (h : (Tree.node .functionName cs).Delimited) (hus : first us = .parenOpen) :
    Writes i functionName [.node .functionName cs] us fun _ => True := by
  have hrow : cs ∈ node .name + node .nameRef * path false := h.row
  intro s hs
  refine hs.children.wrote.start fun o s₁ ho w => ?_
  rcases hrow with ⟨ns, rfl⟩ | ⟨_, ⟨ns, rfl⟩, suffixes, hpath, rfl⟩
  · have hname := h.child (t := .node .name ns) (List.mem_singleton_self _)
    obtain ⟨y, rfl⟩ := id hname.row
    refine w.isAt rfl fun w => w.peekAt 1 ((second_cons _ us).trans hus) fun w => ?_
    refine w.step (name_writes hname ⟨_, rfl⟩) fun _ s₂ w _ => ?_
    have hnone : ([] : List Tree) ∈ (token .dot * token .ident)∗ * (1 + token .colon * token .ident) :=
      ⟨[], Language.nil_mem_kstar _, [], .inl rfl, rfl⟩
    exact pathEnd_writes hnone nofun hus ho w
  · have hname := h.child (t := .node .nameRef ns) (by simp)
    obtain ⟨y, rfl⟩ := id hname.row
    rw [Tree.leavesOfList_append, List.append_assoc] at w
    have hnext : first (Tree.leavesOfList suffixes ++ us) = .dot ∨
        first (Tree.leavesOfList suffixes ++ us) = .colon := by
      rcases hpath with ⟨_, ⟨_, ⟨_, ⟨z, rfl⟩, vs, -, rfl⟩, ws, -, rfl⟩, xs, -, rfl⟩ | ⟨_, ⟨z, rfl⟩, vs, -, rfl⟩
      · exact .inl rfl
      · exact .inr rfl
    have hd : ∀ t ∈ suffixes, t.Delimited := fun t ht => h.child (by simp [ht])
    refine w.isAt rfl fun w => ?_
    rcases hnext with hnext | hnext
    · refine w.peekAt 1 ((second_cons _ _).trans hnext) fun w => ?_
      refine w.step (nameRef_builds hname).writes fun _ s₂ w _ => ?_
      exact pathEnd_writes (path_le hpath) hd hus ho w
    · refine w.peekAt 1 ((second_cons _ _).trans hnext) fun w => ?_
      refine w.step (nameRef_builds hname).writes fun _ s₂ w _ => ?_
      exact pathEnd_writes (path_le hpath) hd hus ho w

theorem functionStatement_writes (h : (Tree.node .functionDefinitionStatement cs).Delimited) :
    Writes i (functionStatement enter) [.node .functionDefinitionStatement cs] us fun _ => True := by
  obtain ⟨_, ⟨_, ⟨y, rfl⟩, _, ⟨ns, rfl⟩, rfl⟩, _, ⟨bs, rfl⟩, rfl⟩ := h.row
  have hbody := h.child (t := .node .functionBody bs) (by simp)
  intro s hs
  refine hs.children.wrote.start fun o s₁ ho w => w.currentSpan fun keyword => ?_
  simp only [Tree.leavesOfList_append, List.append_assoc] at w
  refine w.bump fun s₂ w => ?_
  refine w.step (functionName_writes (h.child (by simp)) (first_functionBody hbody us)) fun _ s₃ w _ => ?_
  refine w.step (functionBody_writes he hbody) fun _ s₄ w _ => .last (w.finish ho fun s₅ w => ?_)
  exact .pure ⟨w, trivial⟩

theorem localFunction_writes (h : (Tree.node .localFunctionStatement cs).Delimited) :
    Writes i (localStatement enter) [.node .localFunctionStatement cs] us fun _ => True := by
  obtain ⟨_, ⟨_, ⟨_, ⟨y, rfl⟩, _, ⟨z, rfl⟩, rfl⟩, _, ⟨ns, rfl⟩, rfl⟩, _, ⟨bs, rfl⟩, rfl⟩ := h.row
  have hname := h.child (t := .node .name ns) (by simp)
  obtain ⟨u, rfl⟩ := id hname.row
  intro s hs
  refine hs.children.wrote.start fun o s₁ ho w => w.currentSpan fun keyword => ?_
  simp only [Tree.leavesOfList_append, List.append_assoc] at w
  refine w.bump fun s₂ w => w.eat fun s₃ w => w.isAt rfl fun w => ?_
  refine w.step (name_writes hname ⟨_, rfl⟩) fun _ s₄ w _ => ?_
  refine w.step (functionBody_writes he (h.child (by simp))) fun _ s₅ w _ => ?_
  exact .last (w.finish ho fun s₆ w => .pure ⟨w, trivial⟩)

/-- A list of names ends at `=`, or at what follows the statement. -/
theorem localName_writes (h : (Tree.node .localNameStatement cs).Delimited) (hus : Stops 0 (first us))
    (hcomma : first us ≠ .comma) (hequals : first us ≠ .equals) :
    Writes i (localStatement enter) [.node .localNameStatement cs] us fun _ => True := by
  obtain ⟨_, ⟨_, ⟨y, rfl⟩, _, ⟨ns, rfl⟩, rfl⟩, values, hvalues, rfl⟩ := h.row
  have hnames := h.child (t := .node .nameList ns) (by simp)
  obtain ⟨_, ⟨_, ⟨ms, rfl⟩, more, hmore, rfl⟩, _, rfl, rfl⟩ := id hnames.row
  obtain ⟨u, rfl⟩ := (hnames.child (t := .node .name ms) (by simp)).row
  have hnext : first (Tree.leavesOfList values ++ us) ≠ .comma := by
    rcases hvalues with rfl | ⟨_, ⟨z, rfl⟩, es, -, rfl⟩
    · exact hcomma
    · exact (by decide : Kind.equals ≠ .comma)
  intro s hs
  refine hs.children.wrote.start fun o s₁ ho w => w.currentSpan fun keyword => ?_
  simp only [Tree.leavesOfList_append, List.append_assoc] at w
  refine w.bump fun s₂ w => w.notEat (by exact (by decide : Kind.ident ≠ .kwFunction)) fun w => ?_
  rw [Tree.leavesOfList_node .nameList] at w
  refine w.start fun list s₃ hl wl => wl.step (nameList_writes hnames hnext) fun _ s₄ wl _ => ?_
  refine wl.finish hl fun s₅ wl => ?_
  have w := w.trans wl
  rcases hvalues with rfl | ⟨_, ⟨z, rfl⟩, _, ⟨es, rfl⟩, rfl⟩
  · refine w.notEat hequals fun w => .last (w.finish ho fun s₆ w => ?_)
    exact .pure ⟨by simpa [Tree.leavesOfList] using w, trivial⟩
  · rw [Tree.leavesOfList_append, List.append_assoc] at w
    refine w.eat fun s₆ w => ?_
    refine w.step (expectExpressionList_writes he (h.child (by simp)) hus hcomma) fun _ s₇ w _ => ?_
    exact .last (w.finish ho fun s₈ w => .pure ⟨by simpa using w, trivial⟩)

/-! ## Jumps -/

omit he in
/-- What follows the values of a `return` goes on with no list of expressions. -/
theorem ends_return : ∀ k ∈ Kind.all, k ∈ blockEnd ∨ k = .semicolon →
    Stops 0 k ∧ k ≠ .comma ∧ k ∉ KindSet.expressionFirst := by
  decide +kernel

/-- A `return` takes the semicolon behind it. -/
theorem returnStatement_writes (h : (Tree.node .returnStatement cs).Delimited) (hus : first us ∈ blockEnd) :
    Writes i (returnStatement enter) [.node .returnStatement cs] us fun _ => True := by
  obtain ⟨_, ⟨_, ⟨y, rfl⟩, values, hvalues, rfl⟩, semicolon, hsemicolon, rfl⟩ := h.row
  intro s hs
  refine hs.children.wrote.start fun o s₁ ho w => ?_
  simp only [Tree.leavesOfList_append, List.append_assoc] at w
  have hnext : first (Tree.leavesOfList semicolon ++ us) ∈ blockEnd ∨
      first (Tree.leavesOfList semicolon ++ us) = .semicolon := by
    rcases hsemicolon with rfl | ⟨z, rfl⟩
    · exact .inl hus
    · exact .inr rfl
  obtain ⟨hstops, hcomma, hnone⟩ := ends_return _ (Kind.mem_all _) hnext
  -- the values were read, or there are none
  have hend {s₃ : State} (w : Wrote i s s₃ [.blank] ([.leaf .kwReturn y] ++ values)
      (Tree.leavesOfList semicolon ++ us)) : Yields (do
        let _ ← eat .semicolon
        finish o .returnStatement) i s₃ fun _ s' => Wrote i s s' []
          [.node .returnStatement ([.leaf .kwReturn y] ++ values ++ semicolon)] us ∧ True := by
    rcases hsemicolon with rfl | ⟨z, rfl⟩
    · refine w.notEat (show first us ≠ .semicolon from ?_) fun w => .last (w.finish ho fun s₄ w => ?_)
      · intro heq
        exact absurd (heq ▸ hus) (by decide)
      · exact .pure ⟨by simpa [Tree.leavesOfList] using w, trivial⟩
    · exact w.eat fun s₄ w => .last (w.finish ho fun s₅ w => .pure ⟨w, trivial⟩)
  refine w.bump fun s₂ w => ?_
  rcases hvalues with rfl | ⟨es, rfl⟩
  · exact w.step (expressionList_absent he hnone) fun _ s₃ w _ => hend w
  · exact w.step (expressionList_writes he (h.child (by simp)) hstops hcomma) fun _ s₃ w _ => hend w

omit he in
theorem breakStatement_writes (h : (Tree.node .breakStatement cs).Delimited) :
    Writes i breakStatement [.node .breakStatement cs] us fun _ => True := by
  obtain ⟨y, rfl⟩ := h.row
  intro s hs
  refine hs.children.wrote.start fun o s₁ ho w => w.bump fun s₂ w => .last (w.finish ho fun s₃ w => ?_)
  exact .pure ⟨w, trivial⟩

omit he in
theorem gotoStatement_writes (h : (Tree.node .gotoStatement cs).Delimited) :
    Writes i gotoStatement [.node .gotoStatement cs] us fun _ => True := by
  obtain ⟨_, ⟨y, rfl⟩, _, ⟨z, rfl⟩, rfl⟩ := h.row
  intro s hs
  refine hs.children.wrote.start fun o s₁ ho w => ?_
  rw [Tree.leavesOfList_append, List.append_assoc] at w
  refine w.bump fun s₂ w => w.expect fun s₃ w => .last (w.finish ho fun s₄ w => ?_)
  exact .pure ⟨w, trivial⟩

omit he in
theorem labelStatement_writes (h : (Tree.node .labelStatement cs).Delimited) :
    Writes i labelStatement [.node .labelStatement cs] us fun _ => True := by
  obtain ⟨_, ⟨_, ⟨y, rfl⟩, _, ⟨z, rfl⟩, rfl⟩, _, ⟨u, rfl⟩, rfl⟩ := h.row
  intro s hs
  refine hs.children.wrote.start fun o s₁ ho w => ?_
  simp only [Tree.leavesOfList_append, List.append_assoc] at w
  refine w.bump fun s₂ w => w.expect fun s₃ w => w.expect fun s₄ w => .last (w.finish ho fun s₅ w => ?_)
  exact .pure ⟨w, trivial⟩

end

end LuaTree.Production
