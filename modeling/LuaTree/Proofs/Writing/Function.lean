import LuaTree.Production.Function
import LuaTree.Proofs.Writing.Entry

/-!
# Proofs/Writing/Function — parameters and bodies of functions are written
-/

namespace LuaTree.Production

open LuaTree.Parser Grammar Computability

variable {i : Input} {enter : Enter} {us : Leaves} {cs : List Tree}

/-- A row that begins with an element and goes on with separators and elements is as well one that ends
with an element. -/
theorem mul_kstar_slide {L M : Language Tree} : L * (M * L)∗ ≤ (L * M)∗ * L := by
  refine mul_kstar_le (le_mul_of_one_le_left' one_le_kstar) ?_
  rw [mul_assoc, ← mul_assoc L, ← mul_assoc]
  exact mul_le_mul_left kstar_mul_le_kstar L

/-- Parameters are names with commas behind them, and a last one. -/
theorem parameters_le : parameters false ≤
    1 + (node .name * token .comma)∗ * (token .ellipsis + node .name) := by
  have hnames : someNames ≤ (node .name * token .comma)∗ * node .name := mul_kstar_slide
  have hrest : (node .name * token .comma)∗ * (token .ellipsis + node .name) ≤
      1 + (node .name * token .comma)∗ * (token .ellipsis + node .name) := le_add_self
  refine add_le (add_le le_self_add ?_) ?_
  · exact le_self_add.trans ((le_mul_of_one_le_left' one_le_kstar).trans hrest)
  · change someNames * (token .comma * token .ellipsis + 1) ≤ _
    rw [mul_add, mul_one, ← mul_assoc]
    refine (add_le ?_ (hnames.trans (mul_le_mul_right le_add_self _))).trans hrest
    refine (mul_le_mul_left (mul_le_mul_left hnames _) _).trans ?_
    rw [mul_assoc (node Kind.name * token Kind.comma)∗]
    exact (mul_le_mul_left kstar_mul_le_kstar _).trans (mul_le_mul_right le_self_add _)

/-- A parameter with a comma behind it, in front of another one. -/
theorem parameterRound_again {row : List Tree} (hrow : row ∈ node .name * token .comma)
    (hd : ∀ t ∈ row, t.Delimited) (hus : first us = .ident ∨ first us = .ellipsis) :
    Writes i parameterRound row us (· = .again ()) := by
  obtain ⟨_, ⟨ds, rfl⟩, _, ⟨x, rfl⟩, rfl⟩ := hrow
  have hname := hd (.node .name ds) (by simp)
  obtain ⟨y, rfl⟩ := hname.row
  intro s hs
  refine hs.wrote.peek rfl fun w => ?_
  rw [Tree.leavesOfList_append, List.append_assoc] at w
  refine w.step (name_writes hname ⟨_, rfl⟩) fun _ s₁ w _ => w.isAt rfl fun w => w.bump fun s₂ w => ?_
  rcases hus with hus | hus
  · exact w.peek hus fun w => .pure ⟨w, rfl⟩
  · exact w.peek hus fun w => .pure ⟨w, rfl⟩

/-- The last parameter, in front of what is no comma. -/
theorem parameterRound_done {last : List Tree} (hlast : last ∈ token .ellipsis + node .name)
    (hd : ∀ t ∈ last, t.Delimited) (hus : first us ≠ .comma) :
    Writes i parameterRound last us (· = .done ()) := by
  rcases hlast with ⟨x, rfl⟩ | ⟨ds, rfl⟩
  · intro s hs
    exact hs.wrote.peek rfl fun w => w.bump fun s₁ w => .pure ⟨w, rfl⟩
  · have hname := hd (.node .name ds) (List.mem_singleton_self _)
    obtain ⟨y, rfl⟩ := id hname.row
    intro s hs
    refine hs.wrote.peek rfl fun w => w.step (name_writes hname ⟨_, rfl⟩) fun _ s₁ w _ => ?_
    exact w.notAt hus fun w => .pure ⟨w, rfl⟩

/-- What a parameter begins with. -/
theorem first_parameter {row : List Tree} (hrow : row ∈ node .name * token .comma)
    (hd : ∀ t ∈ row, t.Delimited) (us : Leaves) : first (Tree.leavesOfList row ++ us) = .ident := by
  obtain ⟨_, ⟨ds, rfl⟩, _, ⟨x, rfl⟩, rfl⟩ := hrow
  obtain ⟨y, rfl⟩ := (hd (.node .name ds) (by simp)).row
  rfl

theorem parameters_writes (hcs : cs ∈ parameters false) (hd : ∀ t ∈ cs, t.Delimited)
    (hus : first us = .parenClose) :
    Writes i (loop () fun _ => parameterRound) cs us fun _ => True := by
  rcases parameters_le hcs with rfl | ⟨rows, hrows, last, hlast, rfl⟩
  · refine star_writes (P := fun _ => True) (L := 0) nofun nofun trivial (fun s hs => ?_)
      (Language.nil_mem_kstar 0) hd
    exact hs.wrote.peek hus fun w => .pure ⟨w, rfl⟩
  · have hlastd : ∀ t ∈ last, t.Delimited := fun t ht => hd t (List.mem_append_right _ ht)
    refine star_writes (P := fun k => k = .ident ∨ k = .ellipsis) (fun row hrow hrowd _ hvs => ?_)
      (fun row hrow hrowd vs => .inl (first_parameter hrow hrowd vs)) ?_ ?_ hrows
      fun t ht => hd t (List.mem_append_left _ ht)
    · exact parameterRound_again hrow hrowd hvs
    · rcases hlast with ⟨x, rfl⟩ | ⟨ds, rfl⟩
      · exact .inr rfl
      · obtain ⟨x, rfl⟩ := (hlastd (.node .name ds) (List.mem_singleton_self _)).row
        exact .inl rfl
    · exact parameterRound_done hlast hlastd (by rw [hus]; decide)

theorem parameterList_writes (h : (Tree.node .parameterList cs).Delimited) :
    Writes i parameterList [.node .parameterList cs] us fun _ => True := by
  obtain ⟨_, ⟨_, ⟨x, rfl⟩, ps, hps, rfl⟩, _, ⟨y, rfl⟩, rfl⟩ := h.row
  intro s hs
  refine hs.children.wrote.start fun o s₁ ho w => w.currentSpan fun opened => ?_
  simp only [Tree.leavesOfList_append, List.append_assoc] at w
  refine w.expect fun s₂ w => ?_
  refine w.step (parameters_writes hps (fun t ht => h.child (by simp [ht])) (by rfl)) fun _ s₃ w _ => ?_
  exact w.expectClosing fun s₄ w => .last (w.finish ho fun s₅ w => .pure ⟨w, trivial⟩)

section

variable (he : Accepts i enter)
include he

theorem functionBody_writes (h : (Tree.node .functionBody cs).Delimited) {keyword : Span} :
    Writes i (functionBody enter keyword) [.node .functionBody cs] us fun _ => True := by
  obtain ⟨_, ⟨_, ⟨ps, rfl⟩, _, ⟨bs, rfl⟩, rfl⟩, _, ⟨x, rfl⟩, rfl⟩ := h.row
  intro s hs
  refine hs.children.wrote.start fun o s₁ ho w => ?_
  simp only [Tree.leavesOfList_append, List.append_assoc] at w
  refine w.step (parameterList_writes (h.child (by simp))) fun _ s₂ w _ => ?_
  refine w.step (block_writes he (h.child (by simp)) (by change Kind.kwEnd ∈ blockEnd; decide))
    fun _ s₃ w _ => ?_
  exact w.expectClosing fun s₄ w => .last (w.finish ho fun s₅ w => .pure ⟨w, trivial⟩)

theorem functionExpression_builds (h : (Tree.node .functionExpression cs).Delimited) :
    Builds i (functionExpression enter) (.node .functionExpression cs) us := by
  obtain ⟨_, ⟨x, rfl⟩, _, ⟨bs, rfl⟩, rfl⟩ := h.row
  intro s hs
  refine hs.wrote.require rfl fun w => ?_
  refine w.toAt.children.wrote.start fun o s₁ ho w => w.currentSpan fun keyword => ?_
  simp only [Tree.leavesOfList_append, List.append_assoc] at w
  refine w.bump fun s₂ w => ?_
  refine w.step (functionBody_writes he (h.child (by simp))) fun _ s₃ w _ => ?_
  exact .last (w.complete ho fun y s₄ hy => .pure (hy.of_look hs.coherent))

end

/-- What follows a function's name is its parameters. -/
theorem first_functionBody (h : (Tree.node .functionBody cs).Delimited) (vs : Leaves) :
    first (Tree.leavesOfList [.node .functionBody cs] ++ vs) = .parenOpen := by
  obtain ⟨_, ⟨_, ⟨ps, rfl⟩, _, ⟨bs, rfl⟩, rfl⟩, _, ⟨x, rfl⟩, rfl⟩ := h.row
  obtain ⟨_, ⟨_, ⟨y, rfl⟩, qs, -, rfl⟩, _, ⟨z, rfl⟩, rfl⟩ :=
    (h.child (t := .node .parameterList ps) (by simp)).row
  rfl

end LuaTree.Production
