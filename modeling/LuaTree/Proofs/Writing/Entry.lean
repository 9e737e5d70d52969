import LuaTree.Proofs.First

/-!
# Proofs/Writing/Entry — what the counted productions have to write

`Accepts` asks of the three counted productions that they write every tree of theirs, wherever its
leaves lie ahead and what follows does not go on with it.  `Stops` tells what does not go on with an
expression, and `blockEnd` what does not go on with a block.
-/

namespace LuaTree.Production

open LuaTree.Parser Grammar Computability

variable {i : Input} {enter : Enter} {t : Tree} {us : Leaves} {k kind : Kind} {x : String}
  {cs : List Tree} {m n : Nat}

/-- What does not go on with an expression of a rank: no suffix and no operator that is as tight. -/
def Stops (rank : Nat) (k : Kind) : Prop :=
  k ∉ KindSet.suffixFirst ∧ (k ∈ KindSet.binaryOperators → Grammar.rank k < rank)

instance (rank : Nat) (k : Kind) : Decidable (Stops rank k) :=
  inferInstanceAs (Decidable (_ ∧ _))

/-- What follows a block. -/
def blockEnd : KindSet := .ofList [.kwEnd, .kwElse, .kwElseif, .kwUntil, .error]

/-- **What the counted productions write.** -/
structure Accepts (i : Input) (enter : Enter) : Prop where
  statements : ∀ {cs : List Tree} {us : Leaves}, (Tree.node .statementList cs).Delimited →
    first us ∈ blockEnd → Writes i (enter .statements) cs us fun _ => True
  unary : ∀ {t : Tree} {us : Leaves}, t.Delimited → [t] ∈ operand false 10 → Stops 10 (first us) →
    Writes i (enter .unary) [t] us (·.isSome)
  operation : ∀ {rank : Nat} {t : Tree} {us : Leaves}, rank ≤ 10 → t.Delimited →
    [t] ∈ operand false rank → Stops rank (first us) →
    Writes i (enter (.operation (Level.all.drop rank) none)) [t] us (·.isSome)
  /-- Where no expression begins, nothing is written. -/
  absent : ∀ {us : Leaves}, first us ∉ KindSet.expressionFirst →
    Writes i (enter (.operation Level.all none)) [] us (· = none)

/-! ## Nodes around one token -/

theorem single_builds : Builds i (single kind) (.node kind [.leaf k x]) us := by
  intro s hs
  refine hs.children.wrote.start fun o s₁ ho w => w.bump fun s₂ w => ?_
  exact .last (w.complete ho fun y s' h => .pure h)

theorem name_writes (h : t.Delimited) (ht : [t] ∈ node .name) : Writes i name [t] us fun _ => True := by
  obtain ⟨cs, hcs⟩ := ht
  obtain rfl := (List.cons.inj hcs).1
  obtain ⟨x, rfl⟩ := h.row
  intro s hs
  refine hs.wrote.require rfl fun w => w.step single_builds.writes fun _ s' w _ => .pure ⟨w, trivial⟩

theorem nameRef_builds (h : (Tree.node .nameRef cs).Delimited) :
    Builds i nameRef (.node .nameRef cs) us := by
  obtain ⟨x, rfl⟩ := h.row
  intro s hs
  refine hs.wrote.require rfl fun w => ?_
  exact (single_builds s.look w.toAt).mono fun y s' h => h.of_look hs.coherent

/-! ## Rows -/

theorem first_star {L : Language Tree} {P : Kind → Prop}
    (hfirst : ∀ row ∈ L, (∀ t ∈ row, t.Delimited) → ∀ vs, P (first (Tree.leavesOfList row ++ vs)))
    (hus : P (first us)) (hcs : cs ∈ L∗) (hd : ∀ t ∈ cs, t.Delimited) :
    P (first (Tree.leavesOfList cs ++ us)) := by
  obtain ⟨rows, rfl, hrows⟩ := Language.mem_kstar.1 hcs
  cases rows with
  | nil => exact hus
  | cons row rows =>
    rw [List.flatten_cons, Tree.leavesOfList_append, List.append_assoc]
    exact hfirst row (hrows row List.mem_cons_self) (fun t ht => hd t (by simp [ht])) _

/-- **A loop over rows of a language**, up to a last one; `P` is what each round needs of the token
behind its row, and what each row begins with. -/
theorem star_writes {L : Language Tree} {P : Kind → Prop} {round : Parser (Round Unit Unit)}
    {last : List Tree} (hagain : ∀ row ∈ L, (∀ t ∈ row, t.Delimited) → ∀ vs, P (first vs) →
      Writes i round row vs (· = .again ()))
    (hfirst : ∀ row ∈ L, (∀ t ∈ row, t.Delimited) → ∀ vs, P (first (Tree.leavesOfList row ++ vs)))
    (hlast : P (first (Tree.leavesOfList last ++ us))) (hdone : Writes i round last us (· = .done ()))
    (hcs : cs ∈ L∗) (hd : ∀ t ∈ cs, t.Delimited) :
    Writes i (loop () fun _ => round) (cs ++ last) us fun _ => True := by
  obtain ⟨rows, rfl, hrows⟩ := Language.mem_kstar.1 hcs
  have hleftd {left : List (List Tree)} (hleft : ∀ row ∈ left, row ∈ rows) :
      ∀ t ∈ left.flatten, t.Delimited := fun t ht => by
    obtain ⟨row, hrow, ht⟩ := List.mem_flatten.1 ht
    exact hd t (List.mem_flatten.2 ⟨row, hleft row hrow, ht⟩)
  refine loop_writes (I := fun _ left => ∀ row ∈ left, row ∈ rows) (fun _ row left hmem => ?_) rfl
    (fun _ _ => ?_) fun _ h => h
  · obtain ⟨hrow, hleft⟩ := List.forall_mem_cons.1 hmem
    have hnext : P (first (Tree.leavesOfList left.flatten ++ (Tree.leavesOfList last ++ us))) :=
      first_star hfirst hlast (Language.mem_kstar.2 ⟨left, rfl, fun r hr => hrows r (hleft r hr)⟩)
        (hleftd hleft)
    have hrow := hagain row (hrows row hrow) (fun t ht => hd t (List.mem_flatten.2 ⟨row, hrow, ht⟩)) _ hnext
    exact fun s hs => (hrow s hs).mono fun _ _ ⟨w, hr⟩ => ⟨w, (), hr, hleft⟩
  · exact fun s hs => (hdone s hs).mono fun _ _ ⟨w, hr⟩ => ⟨w, (), hr, trivial⟩

theorem first_commas {L : Language Tree} {P : Kind → Prop} (hcomma : P .comma) (hus : P (first us))
    (hcs : cs ∈ (token .comma * L)∗) (hd : ∀ t ∈ cs, t.Delimited) :
    P (first (Tree.leavesOfList cs ++ us)) := by
  refine first_star (fun row hrow _ vs => ?_) hus hcs hd
  obtain ⟨_, ⟨x, rfl⟩, ts, -, rfl⟩ := hrow
  exact hcomma

/-- **A loop over commas**, each with something behind it, up to what is no comma. -/
theorem commas_write {L : Language Tree} {P : Kind → Prop} {round : Parser (Round Unit Unit)}
    (hagain : ∀ x row vs, row ∈ L → (∀ t ∈ row, t.Delimited) → P (first vs) →
      Writes i round ([.leaf .comma x] ++ row) vs (· = .again ()))
    (hdone : Writes i round [] us (· = .done ())) (hcomma : P .comma) (hus : P (first us))
    (hcs : cs ∈ (token .comma * L)∗) (hd : ∀ t ∈ cs, t.Delimited) :
    Writes i (loop () fun _ => round) cs us fun _ => True := by
  rw [← List.append_nil cs]
  refine star_writes (fun row hrow hrowd vs hvs => ?_) (fun row hrow _ vs => ?_) hus hdone hcs hd
  · obtain ⟨_, ⟨x, rfl⟩, ts, hts, rfl⟩ := hrow
    exact hagain x ts vs hts (fun t ht => hrowd t (List.mem_append_right _ ht)) hvs
  · obtain ⟨_, ⟨x, rfl⟩, ts, -, rfl⟩ := hrow
    exact hcomma

/-! ## Expressions and blocks -/

section

variable (he : Accepts i enter)
include he

theorem expectExpression_writes (h : t.Delimited) (ht : [t] ∈ Grammar.expression false)
    (hus : Stops 0 (first us)) : Writes i (expectExpression enter) [t] us fun _ => True := by
  intro s hs
  refine hs.wrote.step (he.operation (Nat.zero_le 10) h ht hus) ?_
  rintro (_ | y) s' w ha
  · simp at ha
  · exact .pure ⟨w, trivial⟩

theorem moreExpressions_writes (hcs : cs ∈ Grammar.moreExpressions false)
    (hd : ∀ t ∈ cs, t.Delimited) (hus : Stops 0 (first us)) (hcomma : first us ≠ .comma) :
    Writes i (moreExpressions enter) cs us fun _ => True := by
  refine commas_write (P := Stops 0) (fun x row vs hrow hrowd hvs s hs => ?_) (fun s hs => ?_)
    (by decide) hus hcs hd
  · obtain ⟨k, -, ds, rfl, -⟩ := id hrow
    refine hs.wrote.eat fun s₁ w => ?_
    refine w.step (expectExpression_writes he (hrowd _ (List.mem_singleton_self _)) hrow hvs) ?_
    exact fun _ s₂ w _ => .pure ⟨w, rfl⟩
  · exact hs.wrote.notEat hcomma fun w => .pure ⟨w, rfl⟩

theorem expressionList_writes (h : (Tree.node .expressionList cs).Delimited) (hus : Stops 0 (first us))
    (hcomma : first us ≠ .comma) :
    Writes i (expressionList enter) [.node .expressionList cs] us (· = true) := by
  obtain ⟨_, ht, rest, hrest, rfl⟩ := h.row
  obtain ⟨k, -, ds, rfl, -⟩ := id (show _ ∈ Grammar.expression false from ht)
  intro s hs
  refine hs.children.wrote.start fun o s₁ ho w => ?_
  rw [Tree.leavesOfList_append, List.append_assoc] at w
  have hrestd : ∀ t ∈ rest, t.Delimited := fun t ht => h.child (List.mem_append_right _ ht)
  have hstops : Stops 0 (first (Tree.leavesOfList rest ++ us)) :=
    first_commas (P := Stops 0) (by decide) hus hrest hrestd
  refine w.step (he.operation (Nat.zero_le 10) (h.child (by simp)) ht hstops) ?_
  rintro (_ | y) s₂ w ha
  · simp at ha
  refine w.step (moreExpressions_writes he hrest hrestd hus hcomma) fun _ s₃ w _ => ?_
  exact w.finish ho fun s₄ w => .pure ⟨w, rfl⟩

/-- No list is written where no expression begins. -/
theorem expressionList_absent (hus : first us ∉ KindSet.expressionFirst) :
    Writes i (expressionList enter) [] us (· = false) := by
  intro s hs
  refine hs.wrote.start fun o s₁ ho w => w.step (he.absent hus) ?_
  rintro _ s₂ w rfl
  exact w.abandon ho fun s₃ w => .pure ⟨w, rfl⟩

theorem expectExpressionList_writes (h : (Tree.node .expressionList cs).Delimited)
    (hus : Stops 0 (first us)) (hcomma : first us ≠ .comma) :
    Writes i (expectExpressionList enter) [.node .expressionList cs] us fun _ => True := by
  intro s hs
  refine hs.wrote.step (expressionList_writes he h hus hcomma) ?_
  rintro _ s' w rfl
  exact .pure ⟨w, trivial⟩

theorem block_writes (h : (Tree.node .block cs).Delimited) (hus : first us ∈ blockEnd) :
    Writes i (block enter) [.node .block cs] us fun _ => True := by
  obtain ⟨ds, rfl⟩ := h.row
  intro s hs
  refine hs.children.wrote.start fun outer s₁ ho w => w.start fun list s₂ hl wl => ?_
  rw [Tree.leavesOfList_node] at wl
  refine wl.step (he.statements (h.child (List.mem_singleton_self _)) hus) fun _ s₃ wl _ => ?_
  refine wl.finish hl fun s₄ w' => .last ((w.trans w').finish ho fun s₅ w => .pure ⟨w, trivial⟩)

end

end LuaTree.Production
