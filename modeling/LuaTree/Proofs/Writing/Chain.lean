import LuaTree.Production.Chain
import LuaTree.Proofs.Writing.Table

/-!
# Proofs/Writing/Chain — chains are written suffix by suffix

A chain is read from the left, so what its first part leaves is told to whatever goes on with it.  The
induction is on the tree, whose leftmost child is the chain before the last suffix.
-/

namespace LuaTree.Production

open LuaTree.Parser Grammar Computability

variable {i : Input} {enter : Enter} {us : Leaves} {k : Kind} {cs : List Tree} {t : Tree} {s s₀ : State}
  {ds : List Draft} {ts : List Tree} {x : Closed} {α β : Type} {Q : β → State → Prop}

theorem first_expressionList (h : (Tree.node .expressionList cs).Delimited) (us : Leaves) :
    first (Tree.leavesOfList [.node .expressionList cs] ++ us) ∈ KindSet.expressionFirst := by
  obtain ⟨_, ⟨k, hk, ds, rfl, -⟩, rest, -, rfl⟩ := h.row
  rw [Tree.leavesOfList_node, Tree.leavesOfList_append, List.append_assoc]
  exact (begins_expression hk (h.child (t := .node k ds) (by simp))).1.first _

theorem contains_argumentsFirst : ∀ k ∈ Kind.all, k ≠ .parenOpen → k ≠ .braceOpen →
    KindSet.strings.contains k = argumentsFirst.contains k := by
  decide +kernel

theorem atArguments_yields {f : Bool → Parser β} (w : Wrote i s₀ s ds ts us)
    (hf : Wrote i s₀ s.look ds ts us → Yields (f (argumentsFirst.contains (first us))) i s.look Q) :
    Yields (Production.atArguments >>= f) i s Q := by
  refine .assoc (w.peek rfl fun w => ?_)
  split
  · rename_i heq
    rw [heq] at hf
    exact hf w
  · rename_i heq
    rw [heq] at hf
    exact hf w
  · rename_i hparen hbrace
    rw [← contains_argumentsFirst _ (Kind.mem_all _) hparen hbrace] at hf
    exact hf w

section

variable (he : Accepts i enter)
include he

theorem arguments_writes (h : (Tree.node .argumentList cs).Delimited) :
    Writes i (arguments enter) [.node .argumentList cs] us fun _ => True := by
  have hrow : cs ∈ node .tableExpression + node .stringLiteral +
    token .parenOpen * (1 + node .expressionList) * token .parenClose := h.row
  intro s hs
  refine hs.children.wrote.start fun o s₁ ho w => ?_
  rcases hrow with (⟨ds, rfl⟩ | ⟨ds, rfl⟩) | hlist
  · have htable := h.child (t := .node .tableExpression ds) (List.mem_singleton_self _)
    have hfirst : first (Tree.leavesOfList [.node .tableExpression ds] ++ us) = .braceOpen := by
      simpa [KindSet.mem_iff_contains] using (begins_table htable).first us
    refine w.peek hfirst fun w => ?_
    rw [if_pos rfl]
    refine w.step (table_builds he htable).writes fun _ s₂ w _ => .last (w.finish ho ?_)
    exact fun s₃ w => .pure ⟨w, trivial⟩
  · have hstring := h.child (t := .node .stringLiteral ds) (List.mem_singleton_self _)
    obtain ⟨l, hl, y, rfl⟩ := hstring.row
    refine w.peek (k := l) rfl fun w => ?_
    rw [if_neg (by rintro rfl; exact absurd hl (by decide)), if_pos hl]
    refine w.step single_builds.writes fun _ s₂ w _ => .last (w.finish ho ?_)
    exact fun s₃ w => .pure ⟨w, trivial⟩
  · obtain ⟨_, ⟨_, ⟨y, rfl⟩, list, hlist, rfl⟩, _, ⟨z, rfl⟩, rfl⟩ := hlist
    simp only [Tree.leavesOfList_append, List.append_assoc] at w
    refine w.peek (k := .parenOpen) rfl fun w => ?_
    rw [if_neg (by decide), if_neg (by decide)]
    refine w.currentSpan fun opened => w.expect fun s₂ w => ?_
    rcases hlist with rfl | ⟨es, rfl⟩
    · refine w.isAt rfl fun w => w.expectClosing fun s₃ w => .last (w.finish ho fun s₄ w => ?_)
      exact .pure ⟨w, trivial⟩
    · have hes := h.child (t := .node .expressionList es) (by simp)
      refine w.notAt (fun heq => ?_) fun w => ?_
      · exact absurd (heq ▸ first_expressionList hes _) (by decide)
      refine w.step (expressionList_writes he hes (by exact (by decide : Stops 0 .parenClose))
        (by exact (by decide : Kind.parenClose ≠ .comma))) fun _ s₃ w _ => ?_
      exact w.expectClosing fun s₄ w => .last (w.finish ho fun s₅ w => .pure ⟨w, trivial⟩)

theorem paren_builds (h : (Tree.node .parenExpression cs).Delimited) :
    Builds i (paren enter) (.node .parenExpression cs) us := by
  obtain ⟨_, ⟨_, ⟨y, rfl⟩, _, ht, rfl⟩, _, ⟨z, rfl⟩, rfl⟩ := h.row
  obtain ⟨k, -, ds, rfl, -⟩ := id (show _ ∈ Grammar.expression false from ht)
  intro s hs
  refine hs.children.wrote.start fun o s₁ ho w => w.currentSpan fun opened => ?_
  simp only [Tree.leavesOfList_append, List.append_assoc] at w
  refine w.bump fun s₂ w => ?_
  refine w.step (expectExpression_writes he (h.child (by simp)) ht ?_) fun _ s₃ w _ => ?_
  · exact (by decide : Stops 0 .parenClose)
  · exact w.expectClosing fun s₄ w => .last (w.complete ho fun y s₅ hy => .pure hy)

/-! ## Suffixes -/

/-- **One more suffix**, which wraps the chain before it. -/
theorem suffixRound_selector (h : Built i s₀ s x t (Tree.leavesOfList cs ++ us))
    (hcs : cs ∈ selector false) (hd : ∀ t ∈ cs, t.Delimited)
    (hus : isMethod (.node .indexExpression ([t] ++ cs)) → first us ∈ argumentsFirst) :
    Yields (suffixRound enter x) i s fun r s' =>
      ∃ y, r = .again y ∧ Built i s₀ s' y (.node .indexExpression ([t] ++ cs)) us := by
  rcases hcs with (⟨_, ⟨y, rfl⟩, _, ⟨z, rfl⟩, rfl⟩ | ⟨_, ⟨y, rfl⟩, _, ⟨z, rfl⟩, rfl⟩) |
    ⟨_, ⟨_, ⟨y, rfl⟩, _, ht, rfl⟩, _, ⟨z, rfl⟩, rfl⟩
  · refine h.wrote.peek rfl fun _ => h.look.precede fun o b s₁ ho w => ?_
    refine w.bump fun s₂ w => w.expect fun s₃ w => w.complete ho fun y s₄ hy => ?_
    exact .pure ⟨y, rfl, hy⟩
  · refine h.wrote.peek rfl fun _ => h.look.precede fun o b s₁ ho w => ?_
    refine w.bump fun s₂ w => w.expect fun s₃ w => w.complete ho fun y s₄ hy => ?_
    rw [if_pos rfl]
    refine atArguments_yields hy.wrote fun _ => ?_
    rw [KindSet.mem_iff_contains.1 (hus (by simp [isMethod, Tree.kind]))]
    exact .pure ⟨y, rfl, hy.look⟩
  · obtain ⟨k, -, ds, rfl, -⟩ := id (show _ ∈ Grammar.expression false from ht)
    have h' := h
    simp only [Tree.leavesOfList_append, List.append_assoc] at h'
    refine h'.wrote.peek rfl fun _ => h'.look.precede fun o b s₁ ho w => ?_
    refine w.currentSpan fun opened => w.bump fun s₂ w => ?_
    refine w.step (expectExpression_writes he (hd _ (by simp)) ht ?_) fun _ s₃ w _ => ?_
    · exact (by decide : Stops 0 .bracketClose)
    · exact w.expectClosing fun s₄ w => w.complete ho fun y s₅ hy => .pure ⟨y, rfl, hy⟩

theorem suffixRound_arguments (h : Built i s₀ s x t (Tree.leavesOfList [.node .argumentList cs] ++ us))
    (hcs : (Tree.node .argumentList cs).Delimited) :
    Yields (suffixRound enter x) i s fun r s' =>
      ∃ y, r = .again y ∧ Built i s₀ s' y (.node .callExpression [t, .node .argumentList cs]) us := by
  have hfirst := (begins_arguments hcs).first us
  refine h.wrote.peek rfl fun w => ?_
  split
  · rename_i heq
    exact absurd (heq ▸ hfirst) (by decide)
  · rename_i heq
    exact absurd (heq ▸ hfirst) (by decide)
  · rename_i heq
    exact absurd (heq ▸ hfirst) (by decide)
  · refine atArguments_yields w fun _ => ?_
    rw [KindSet.mem_iff_contains.1 hfirst]
    refine h.look.look.precede fun o b s₁ ho w => ?_
    refine w.step (arguments_writes he hcs) fun _ s₂ w _ => w.complete ho fun y s₃ hy => ?_
    exact .pure ⟨y, rfl, hy⟩

omit he in
theorem suffixRound_done (h : Built i s₀ s x t us) (hus : first us ∉ KindSet.suffixFirst) :
    Yields (suffixRound enter x) i s fun r s' => ∃ y, r = .done y ∧ Built i s₀ s' y t us := by
  refine h.wrote.peek rfl fun w => ?_
  split
  · rename_i heq
    exact absurd (heq ▸ hus) (by decide)
  · rename_i heq
    exact absurd (heq ▸ hus) (by decide)
  · rename_i heq
    exact absurd (heq ▸ hus) (by decide)
  · have hnot : first us ∉ argumentsFirst :=
      mt (show Within argumentsFirst KindSet.suffixFirst by decide +kernel).mem hus
    refine atArguments_yields w fun _ => ?_
    rw [Bool.eq_false_iff.2 (mt KindSet.mem_iff_contains.2 hnot)]
    exact .pure ⟨x, rfl, h.look.look⟩

/-! ## Chains -/

/-- **What goes on with a chain comes after it**, with as many rounds as are left. -/
theorem chain_continues {k : Kind} {cs : List Tree} {us : Leaves} {f : Option Closed → Parser β}
    (hk : k ∈ chainKinds) (h : (Tree.node k cs).Delimited)
    (hus : isMethod (.node k cs) → first us ∈ argumentsFirst)
    (hs : At i s (Tree.leavesOfList [.node k cs] ++ us))
    (hf : ∀ n x s', Built i s s' x (.node k cs) us →
      Yields (rounds (suffixRound enter) n x >>= fun c => f (some c)) i s' Q) :
    Yields (chain enter >>= f) i s Q := by
  have hcases : k = .nameRef ∨ k = .parenExpression ∨ k = .indexExpression ∨ k = .callExpression := by
    simpa [chainKinds] using hk
  rcases hcases with rfl | rfl | rfl | rfl
  · obtain ⟨y, rfl⟩ := id h.row
    refine .assoc (hs.wrote.peek rfl fun w => .assoc ((nameRef_builds h _ w.toAt).bind ?_))
    intro x s₁ hx
    exact .assoc (.assoc (.read (hf _ x s₁ (hx.of_look hs.coherent))))
  · have hfirst : first (Tree.leavesOfList [.node .parenExpression cs] ++ us) = .parenOpen := by
      obtain ⟨_, ⟨_, ⟨y, rfl⟩, vs, -, rfl⟩, ws, -, rfl⟩ := h.row
      rfl
    refine .assoc (hs.wrote.peek hfirst fun w => .assoc ((paren_builds he h _ w.toAt).bind ?_))
    intro x s₁ hx
    exact .assoc (.assoc (.read (hf _ x s₁ (hx.of_look hs.coherent))))
  · obtain ⟨_, ⟨l, hl, ds, rfl, hmethod⟩, ms, hms, rfl⟩ := h.row
    have hbase := h.child (t := .node l ds) (by simp)
    rw [Tree.leavesOfList_node, Tree.leavesOfList_append, List.append_assoc] at hs
    refine chain_continues hl hbase (fun hm => absurd (hmethod hm) (by decide)) hs fun n x s₁ hx => ?_
    exact .again (suffixRound_selector he hx hms (fun t ht => h.child (by simp [ht])) hus) hf
  · obtain ⟨_, ⟨l, hl, ds, rfl⟩, _, ⟨es, rfl⟩, rfl⟩ := h.row
    have hbase := h.child (t := .node l ds) (by simp)
    have harguments := h.child (t := .node .argumentList es) (by simp)
    rw [Tree.leavesOfList_node, Tree.leavesOfList_append, List.append_assoc] at hs
    refine chain_continues hl hbase (fun _ => (begins_arguments harguments).first us) hs
      fun n x s₁ hx => ?_
    exact .again (suffixRound_arguments he hx harguments) hf
termination_by sizeOf cs

/-- **A chain is written whole** where no suffix follows. -/
theorem chain_finds (hk : k ∈ chainKinds) (h : (Tree.node k cs).Delimited)
    (hmethod : ¬ isMethod (.node k cs)) (hus : first us ∉ KindSet.suffixFirst) :
    Finds i (chain enter) (.node k cs) us := fun _ hs =>
  .last (chain_continues he hk h (fun hm => absurd hm hmethod) hs fun _ _ _ hx =>
    .done (suffixRound_done hx hus) fun y _ hy => .pure ⟨y, rfl, hy⟩)

end

/-- Where no chain begins, none is written. -/
theorem chain_absent (hus : first us ∉ chainFirst) : Writes i (chain enter) [] us (· = none) := by
  intro s hs
  refine hs.wrote.peek rfl fun w => ?_
  split
  · rename_i heq
    exact absurd (show Kind.ident ∈ chainFirst by decide) (heq ▸ hus)
  · rename_i heq
    exact absurd (show Kind.parenOpen ∈ chainFirst by decide) (heq ▸ hus)
  · exact .pure ⟨w, rfl⟩

end LuaTree.Production
