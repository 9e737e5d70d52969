import LuaTree.Proofs.Formula
import LuaTree.Proofs.Reading.Operation
import LuaTree.Proofs.Writing.Entry

/-!
# Proofs/Writing/Formula — ranked formulas are written

`Operates` asks that operands are read as atoms, whatever they are, and that the counted productions
write ranked formulas.  From that every level of operations writes the ranked formulas that are tight
enough for it.

The leftmost operand of a formula may have been read already (`Led`).  At a level that is grouped to the
left, a formula is read from that operand on: the induction is on the formula, and says what goes on with
the operation.
-/

namespace LuaTree

open Grammar

namespace Formula

variable {f l r : Formula} {A : Tree → Kind → Prop} {k : Kind} {x : String} {us : Leaves}

theorem leavesOfList_signed : Tree.leavesOfList [(signed k x f).tree] =
    Tree.leavesOfList [unarySign k x] ++ Tree.leavesOfList [f.tree] := by
  rw [tree, Tree.leavesOfList_node, ← Tree.leavesOfList_append]
  rfl

theorem leavesOfList_operated : Tree.leavesOfList [(operated l k x r).tree] =
    Tree.leavesOfList [l.tree] ++ (Tree.leavesOfList [binarySign k x] ++ Tree.leavesOfList [r.tree]) := by
  rw [tree, Tree.leavesOfList_node, ← Tree.leavesOfList_append, ← Tree.leavesOfList_append]
  rfl

/-- A formula has the leaves of its row. -/
theorem leavesOfList_row (f : Formula) : Tree.leavesOfList f.row = Tree.leavesOfList [f.tree] := by
  induction f with
  | operand t => rfl
  | signed k x f ih =>
    rw [leavesOfList_signed, ← ih, ← Tree.leavesOfList_append]
    rfl
  | operated l k x r ihl ihr =>
    rw [leavesOfList_operated, ← ihl, ← ihr, ← Tree.leavesOfList_append, ← Tree.leavesOfList_append]
    rfl

/-- What holds of the operands of a row, in front of what is left of it, holds of those of its formula. -/
theorem over_of_row (hf : f.WellFormed) (h : ∀ t vs, t :: vs <:+ f.row → [t] ∈ nodeOf atomKinds →
    A t (first (Tree.leavesOfList vs ++ us))) : f.Over A (first us) := by
  induction f generalizing us with
  | operand t => exact h t [] List.suffix_rfl hf
  | signed k x f ih => exact ih hf.2 fun t vs hvs => h t vs (hvs.trans (List.suffix_cons _ _))
  | operated l k x r ihl ihr =>
    have hl : l.Over A (first (Tree.leavesOfList (binarySign k x :: r.row) ++ us)) := by
      refine ihl hf.1 fun t vs hvs ht => ?_
      rw [← List.append_assoc, ← Tree.leavesOfList_append]
      refine h t _ ?_ ht
      rw [← List.cons_append]
      exact List.suffix_append_self_iff.2 hvs
    refine ⟨hl, ihr hf.2.2 fun t vs hvs => h t vs ?_⟩
    exact (hvs.trans (List.suffix_cons _ _)).trans (List.suffix_append _ _)

end Formula

namespace Production

open LuaTree.Parser

variable {i : Input} {enter : Enter} {A : Tree → Kind → Prop} {f l r : Formula} {us : Leaves} {k : Kind}
  {y : String} {t u : Tree} {s s₀ : State} {x : Closed} {lead : Option Closed} {β : Type}
  {Q : β → State → Prop} {j : Nat}

/-- No operator follows that is as tight. -/
def Looser (rank : Nat) (k : Kind) : Prop := k ∈ KindSet.binaryOperators → Grammar.rank k < rank

instance (rank : Nat) (k : Kind) : Decidable (Looser rank k) :=
  inferInstanceAs (Decidable (_ → _))

/-- **What operations need**: operands are read as atoms, and the counted productions write formulas. -/
structure Operates (i : Input) (enter : Enter) (A : Tree → Kind → Prop) : Prop where
  begins : ∀ {t : Tree} {k : Kind}, A t k →
    ∀ us : Leaves, first (Tree.leavesOfList [t] ++ us) ∉ KindSet.unaryOperators
  atom : ∀ {t : Tree} {us : Leaves}, A t (first us) → Finds i (atom enter) t us
  unary : ∀ {f : Formula} {us : Leaves}, f.Ranked → f.Over A (first us) → 10 ≤ f.tight →
    Looser 10 (first us) → Writes i (enter .unary) [f.tree] us (·.isSome)
  operation : ∀ {rank : Nat} {f : Formula} {us : Leaves}, rank ≤ 10 → f.Ranked → f.Over A (first us) →
    rank ≤ f.tight → Looser rank (first us) →
    Writes i (enter (.operation (Level.all.drop rank) none)) [f.tree] us (·.isSome)

/-- **In front of a formula**, or behind its leftmost operand if that was read already. -/
def Led (i : Input) (A : Tree → Kind → Prop) (s₀ s : State) (lead : Option Closed) :
    Formula → Leaves → Prop
  | .operand t, us => lead.elim (s₀ = s ∧ A t (first us) ∧ At i s (Tree.leavesOfList [t] ++ us))
      fun x => Built i s₀ s x t us
  | .signed k y f, us => lead = none ∧ s₀ = s ∧ f.Over A (first us) ∧
      At i s (Tree.leavesOfList [unarySign k y] ++ (Tree.leavesOfList [f.tree] ++ us))
  | .operated l k y r, us =>
    Led i A s₀ s lead l (Tree.leavesOfList [binarySign k y] ++ (Tree.leavesOfList [r.tree] ++ us)) ∧
      r.Over A (first us)

theorem led_of_at (hA : f.Over A (first us)) (h : At i s (Tree.leavesOfList [f.tree] ++ us)) :
    Led i A s s none f us := by
  induction f generalizing us with
  | operand t => exact ⟨rfl, hA, h⟩
  | signed k y f =>
    rw [Formula.leavesOfList_signed, List.append_assoc] at h
    exact ⟨rfl, rfl, hA, h⟩
  | operated l k y r ihl =>
    rw [Formula.leavesOfList_operated, List.append_assoc, List.append_assoc] at h
    exact ⟨ihl hA.1 h, hA.2⟩

theorem Led.look (h : Led i A s s none f us) : Led i A s.look s.look none f us := by
  induction f generalizing us with
  | operand t => exact ⟨rfl, h.2.1, h.2.2.look⟩
  | signed k y f => exact ⟨rfl, rfl, h.2.2.1, h.2.2.2.look⟩
  | operated l k y r ihl => exact ⟨ihl h.1, h.2⟩

theorem Led.deeper (h : Led i A s₀ s lead f us) : Led i A s₀.deeper s.deeper lead f us := by
  induction f generalizing us with
  | operand t =>
    cases lead with
    | none => exact ⟨congrArg State.deeper h.1, h.2.1, h.2.2.deeper⟩
    | some x => exact Built.deeper h
  | signed k y g => exact ⟨h.1, congrArg State.deeper h.2.1, h.2.2.1, h.2.2.2.deeper⟩
  | operated l k y r ihl => exact ⟨ihl h.1, h.2⟩

theorem Led.before (h : Led i A s₀ s lead f us) : s₀.Coherent i := by
  induction f generalizing us with
  | operand t =>
    cases lead with
    | none => exact h.1 ▸ h.2.2.coherent
    | some x => exact Built.before h
  | signed k y g => exact h.2.1 ▸ h.2.2.2.coherent
  | operated l k y r ihl => exact ihl h.1

/-- Behind its leftmost operand, the rest of the row of a formula lies ahead. -/
theorem led_of_built (hf : f.WellFormed) (ht : [t] ∈ nodeOf atomKinds) {rest : List Tree}
    (hrow : f.row = t :: rest) (hA : ∀ u vs, u :: vs <:+ rest → [u] ∈ nodeOf atomKinds →
      A u (first (Tree.leavesOfList vs ++ us)))
    (h : Built i s₀ s x t (Tree.leavesOfList rest ++ us)) : Led i A s₀ s (some x) f us := by
  induction f generalizing rest us with
  | operand u =>
    obtain ⟨rfl, rfl⟩ := List.cons.inj hrow
    exact h
  | signed k y f => exact absurd ((List.cons.inj hrow).1 ▸ ht) Formula.unarySign_not_atom
  | operated l k y r ihl =>
    obtain ⟨hl, hk, hr⟩ := hf
    obtain ⟨u, rest', hrow'⟩ := List.exists_cons_of_ne_nil l.row_ne_nil
    rw [Formula.row, hrow', List.cons_append] at hrow
    obtain ⟨rfl, rfl⟩ := List.cons.inj hrow
    have hbehind : Tree.leavesOfList (binarySign k y :: r.row) ++ us =
        Tree.leavesOfList [binarySign k y] ++ (Tree.leavesOfList [r.tree] ++ us) := by
      rw [← Formula.leavesOfList_row, ← List.append_assoc, ← Tree.leavesOfList_append]
      rfl
    rw [Tree.leavesOfList_append, List.append_assoc, hbehind] at h
    refine ⟨ihl hl hrow' (fun u vs hvs hu => ?_) h, ?_⟩
    · rw [← hbehind, ← List.append_assoc, ← Tree.leavesOfList_append]
      refine hA u _ ?_ hu
      rw [← List.cons_append]
      exact List.suffix_append_self_iff.2 hvs
    · refine Formula.over_of_row hr fun u vs hvs => hA u vs ?_
      exact (hvs.trans (List.suffix_cons _ _)).trans (List.suffix_append _ _)

/-! ## Powers and unary operators -/

theorem operandOf_writes {e : Entry} (he : Writes i (enter e) [t] us (·.isSome)) :
    Writes i (operandOf enter e) [t] us fun _ => True := by
  intro s hs
  refine hs.wrote.step he ?_
  rintro (_ | y) s' w ha
  · simp at ha
  · exact .pure ⟨w, trivial⟩

/-- Behind the base of a power there is no `^`. -/
theorem power_stops (hx : Built i s₀ s x t us) (hus : first us ∉ KindSet.power) :
    Yields (power enter (some x)) i s fun a s' => ∃ z, a = some z ∧ Built i s₀ s' z t us := by
  refine Yields.bind (Q := fun base s' => some x = base ∧ s = s') (.pure ⟨rfl, rfl⟩) ?_
  rintro _ _ ⟨rfl, rfl⟩
  exact hx.wrote.notAtOneOf hus fun _ => .pure ⟨x, rfl, hx.look⟩

/-- Behind the base of a power there is `^` and what it is raised to. -/
theorem power_raises (hu : Writes i (enter .unary) [u] us (·.isSome))
    (hx : Built i s₀ s x t (Tree.leavesOfList [binarySign .caret y] ++ (Tree.leavesOfList [u] ++ us))) :
    Yields (power enter (some x)) i s fun a s' => ∃ z, a = some z ∧
      Built i s₀ s' z (.node .binaryExpression ([t] ++ [binarySign .caret y] ++ [u])) us := by
  refine Yields.bind (Q := fun base s' => some x = base ∧ s = s') (.pure ⟨rfl, rfl⟩) ?_
  rintro _ _ ⟨rfl, rfl⟩
  refine hx.wrote.isAtOneOf (by exact (by decide : Kind.caret ∈ KindSet.power)) fun _ => ?_
  refine hx.look.precede fun p b s₁ hp w => w.step single_builds.writes fun _ s₂ w _ => ?_
  refine w.step (operandOf_writes hu) fun _ s₃ w _ => ?_
  exact w.complete hp fun z s₄ hz => .pure ⟨z, rfl, hz⟩

theorem not_power_of_looser : ∀ k ∈ Kind.all, Looser 11 k → k ∉ KindSet.power := by decide +kernel

/-- No operator is as tight as a unary one, and only `^` is tighter. -/
theorem Looser.ten (h : Looser 11 k) : Looser 10 k := by
  refine fun hk => (rank_of_binary k (Kind.mem_all k) hk).resolve_right ?_
  rintro rfl
  exact absurd (h hk) (by decide)

theorem Looser.mono {m n : Nat} (h : Looser m k) (hmn : m ≤ n) : Looser n k :=
  fun hk => (h hk).trans_le hmn

/-- A ranked formula that is as tight as can be is an operand. -/
theorem eq_operand (h : 12 ≤ f.tight) : ∃ t, f = .operand t := by
  cases f with
  | operand t => exact ⟨t, rfl⟩
  | signed k y f => exact absurd h (by exact (by decide : ¬ 12 ≤ 10))
  | operated l k y r => exact absurd h (Nat.lt_succ_of_le (rank_le k (Kind.mem_all k))).not_ge

/-- Only a unary expression is exactly as tight as one. -/
theorem eleven_le (hf : f.Ranked) (h10 : 10 ≤ f.tight) : 11 ≤ f.tight ∨ ∃ k y g, f = .signed k y g := by
  cases f with
  | operand t => exact .inl (by exact (by decide : 11 ≤ 12))
  | signed k y g => exact .inr ⟨k, y, g, rfl⟩
  | operated l k y r =>
    rcases rank_of_binary k (Kind.mem_all k) hf.1 with hlt | rfl
    · exact absurd hlt (not_lt.2 h10)
    · exact .inl caret_bounds.1.ge

section

variable (he : Operates i enter A)
include he

/-- The base of a power is read, if it was not read before. -/
theorem power_led {Q : Option Closed → State → Prop} (h : Led i A s₀ s lead (.operand t) us)
    (hx : ∀ x s₁, Built i s₀ s₁ x t us → Yields (power enter (some x)) i s₁ Q) :
    Yields (power enter lead) i s Q := by
  cases lead with
  | some x => exact hx x s h
  | none =>
    obtain ⟨rfl, hA, hat⟩ := h
    refine (he.atom hA s₀ hat).bind ?_
    rintro _ s₁ ⟨x, rfl, hbuilt⟩
    exact hx x s₁ hbuilt

theorem power_finds (hf : f.Ranked) (h11 : 11 ≤ f.tight) (hus : Looser 11 (first us))
    (h : Led i A s₀ s lead f us) : Yields (power enter lead) i s fun a s' =>
      ∃ x, a = some x ∧ Built i s₀ s' x f.tree us := by
  cases f with
  | operand t =>
    refine power_led he h fun x s₁ hx => ?_
    exact power_stops hx (not_power_of_looser _ (Kind.mem_all _) hus)
  | signed k y f => exact absurd h11 (by exact (by decide : ¬ 11 ≤ 10))
  | operated l k y r =>
    obtain ⟨hk, -, hr, hleft, hright⟩ := hf
    obtain rfl := (rank_of_binary k (Kind.mem_all k) hk).resolve_left fun hlt => by
      rw [Formula.tight] at h11
      omega
    obtain ⟨t, rfl⟩ := eq_operand (caret_bounds.2.1 ▸ hleft)
    refine power_led he h.1 fun x s₁ hx => ?_
    exact power_raises (he.unary hr h.2 (caret_bounds.2.2 ▸ hright) hus.ten) hx

/-- Where no operand was read before, an atom or a power does not begin with a unary operator. -/
theorem led_begins (hf : f.Ranked) (h11 : 11 ≤ f.tight) (h : Led i A s₀ s none f us) :
    s₀ = s ∧ ∃ vs, At i s vs ∧ first vs ∉ KindSet.unaryOperators := by
  induction f generalizing us with
  | operand t => exact ⟨h.1, _, h.2.2, he.begins h.2.1 _⟩
  | signed k y f => exact absurd h11 (by exact (by decide : ¬ 11 ≤ 10))
  | operated l k y r ihl =>
    obtain ⟨-, hl, -, hleft, -⟩ := hf
    exact ihl hl ((le_leftBound k (Kind.mem_all k) h11).trans hleft) h.1

theorem unary_finds (hf : f.Ranked) (h10 : 10 ≤ f.tight) (hus : Looser 10 (first us))
    (h : Led i A s₀ s lead f us) : Yields (unary enter lead) i s fun a s' =>
      ∃ x, a = some x ∧ Built i s₀ s' x f.tree us := by
  rcases eleven_le hf h10 with h11 | ⟨k, y, g, rfl⟩
  · have hus := hus.mono (show 10 ≤ 11 by decide)
    cases lead with
    | some x => exact power_finds he hf h11 hus h
    | none =>
      obtain ⟨rfl, vs, hat, hvs⟩ := led_begins he hf h11 h
      refine hat.wrote.notAtOneOf hvs fun _ => (power_finds he hf h11 hus h.look).mono ?_
      exact fun _ _ ⟨x, ha, hx⟩ => ⟨x, ha, hx.of_look hat.coherent⟩
  · obtain ⟨rfl, rfl, hA, hat⟩ := h
    obtain ⟨hk, hg, hle⟩ := hf
    refine hat.wrote.isAtOneOf (by exact hk) fun w => Yields.mono (Q := fun a s' => ∃ x, a = some x ∧
      Built i s₀.look s' x (.node .unaryExpression ([unarySign k y] ++ [g.tree])) us) ?_
      fun _ _ ⟨x, ha, hx⟩ => ⟨x, ha, hx.of_look hat.coherent⟩
    refine w.toAt.wrote.start fun p s₁ hp w => w.step single_builds.writes fun _ s₂ w _ => ?_
    refine w.step (operandOf_writes (he.unary hg hA hle hus)) fun _ s₃ w _ => ?_
    exact w.complete hp fun z s₄ hz => .pure ⟨z, rfl, hz⟩

end

/-! ## Levels -/

/-- Operations of some levels write all ranked formulas that are tight enough. -/
def Groups (i : Input) (enter : Enter) (A : Tree → Kind → Prop) (levels : List Level) (rank : Nat) : Prop :=
  ∀ ⦃f : Formula⦄ ⦃lead : Option Closed⦄ ⦃s₀ s : State⦄ ⦃us : Leaves⦄, f.Ranked → rank ≤ f.tight →
    Looser rank (first us) → Led i A s₀ s lead f us →
      Yields (operation enter levels lead) i s fun a s' => ∃ x, a = some x ∧ Built i s₀ s' x f.tree us

variable {level : Level} {tighter : List Level}

/-- A formula of a level is one of the tighter levels, or its operator is of the level. -/
theorem operand_cases (hj : j < 10) (h : j ≤ f.tight) :
    j + 1 ≤ f.tight ∨ ∃ l k y r, f = .operated l k y r ∧ rank k = j := by
  cases f with
  | operand t => exact .inl (by rw [Formula.tight]; omega)
  | signed k y g => exact .inl hj
  | operated l k y r =>
    rcases h.lt_or_eq with hlt | heq
    · exact .inl hlt
    · exact .inr ⟨l, k, y, r, rfl, heq.symm⟩

theorem mem_level_all : ∀ j : Fin 10, ∀ k ∈ Kind.all, k ∈ KindSet.binaryOperators → rank k = j →
    k ∈ Level.all[j].operators := by
  decide +kernel

/-- **A level has the operators of its rank.** -/
theorem mem_level (hlevel : Level.all[j]? = some level) (hk : k ∈ KindSet.binaryOperators)
    (hrank : rank k = j) : k ∈ level.operators := by
  obtain ⟨hj, rfl⟩ := List.getElem?_eq_some_iff.1 hlevel
  exact mem_level_all ⟨j, hj⟩ k (Kind.mem_all k) hk hrank

theorem levelRound_done (hlevel : Level.all[j]? = some level) (hx : Built i s₀ s x t us)
    (hus : Looser j (first us)) : Yields (levelRound enter level tighter x) i s fun r s' =>
      ∃ y, r = .done y ∧ Built i s₀ s' y t us := by
  have hnot : first us ∉ level.operators := fun hmem => by
    obtain ⟨hrank, hbinary⟩ := rank_of_mem hlevel hmem
    exact absurd (hus hbinary) (by omega)
  exact hx.wrote.notAtOneOf hnot fun _ => .pure ⟨x, rfl, hx.look⟩

/-- Where a level is grouped to the left, its loop goes on behind the operand on the right; where it is grouped to
the right, what is left of the operation is the operand. -/
theorem levelRound_writes (hk : k ∈ level.operators)
    (hu : Writes i (rightOperand enter level tighter) [u] us (·.isSome))
    (hx : Built i s₀ s x t (Tree.leavesOfList [binarySign k y] ++ (Tree.leavesOfList [u] ++ us))) :
    Yields (levelRound enter level tighter x) i s fun a s' =>
      ∃ z, (a = match level.assoc with | .left => .again z | .right => .done z) ∧
        Built i s₀ s' z (.node .binaryExpression ([t] ++ [binarySign k y] ++ [u])) us := by
  rw [levelRound_eq]
  refine hx.wrote.isAtOneOf (by exact hk) fun _ => hx.look.precede fun p b s₁ hp w => ?_
  refine w.step single_builds.writes fun _ s₂ w _ => ?_
  refine w.step hu ?_
  rintro (_ | a) s₃ w ha
  · simp at ha
  · refine w.complete hp fun z s₄ hz => ?_
    cases level.assoc with
    | left => exact .pure ⟨z, rfl, hz⟩
    | right => exact .pure ⟨z, rfl, hz⟩

/-- What the level of a formula asks of its operands. -/
theorem ranked_sides (hlevel : Level.all[j]? = some level) (hf : (Formula.operated l k y r).Ranked)
    (hrank : rank k = j) : k ∈ level.operators ∧ (sides j level.assoc).1 ≤ l.tight ∧
      (sides j level.assoc).2 ≤ r.tight := by
  obtain ⟨hk, -, -, hleft, hright⟩ := hf
  have hmem := mem_level hlevel hk hrank
  obtain ⟨hbound, hbound'⟩ := bounds_of_mem hlevel hmem
  exact ⟨hmem, hbound ▸ hleft, hbound' ▸ hright⟩

/-- The right operand of a formula is read from its beginning. -/
theorem Groups.writes (htighter : Groups i enter A tighter j) (hr : r.Ranked) (hA : r.Over A (first us))
    (hle : j ≤ r.tight) (hus : Looser j (first us)) :
    Writes i (operation enter tighter none) [r.tree] us (·.isSome) :=
  Finds.writes fun _ hs => htighter hr hle hus (led_of_at hA hs)

/-- **At a level that is grouped to the left, more operators may follow**; whatever goes on with the
loop comes after the formula. -/
theorem left_continues (hlevel : Level.all[j]? = some level) (hassoc : level.assoc = .left)
    (htighter : Groups i enter A tighter (j + 1)) {q : Option Closed → Parser β} {f : Formula}
    {us : Leaves} (hf : f.Ranked) (hle : j ≤ f.tight) (hus : Looser (j + 1) (first us))
    (h : Led i A s₀ s lead f us) (hq : ∀ n x s', Built i s₀ s' x f.tree us →
      Yields (rounds (levelRound enter level tighter) n x >>= fun c => q (some c)) i s' Q) :
    Yields (operation enter (level :: tighter) lead >>= q) i s Q := by
  have hj := (List.getElem?_eq_some_iff.1 hlevel).1
  rcases operand_cases hj hle with htight | ⟨l, k, y, r, rfl, hrank⟩
  · rw [operation_cons]
    refine .assoc ((htighter hf htight hus h).bind ?_)
    rintro _ s₁ ⟨x, rfl, hx⟩
    exact .assoc (.assoc (.read (hq _ x s₁ hx)))
  · obtain ⟨hmem, hleft, hright⟩ := ranked_sides hlevel hf hrank
    obtain ⟨hk, hl, hr, -⟩ := hf
    rw [hassoc] at hleft hright
    -- the left operand is of this level or a tighter one, and the loop that read it goes on
    refine left_continues hlevel hassoc htighter hl hleft ?_ h.1 fun n x s₁ hx => ?_
    · exact fun _ => hrank.trans_lt (Nat.lt_succ_self j)
    · have hu : Writes i (rightOperand enter level tighter) [r.tree] us (·.isSome) := by
        rw [rightOperand, hassoc]
        exact htighter.writes hr h.2 hright hus
      have hround := levelRound_writes hmem hu hx
      rw [hassoc] at hround
      exact .again hround hq
termination_by sizeOf f

theorem left_groups (hlevel : Level.all[j]? = some level) (hassoc : level.assoc = .left)
    (htighter : Groups i enter A tighter (j + 1)) : Groups i enter A (level :: tighter) j :=
  fun _ _ _ _ _ hf hle hus h => .last <|
    left_continues hlevel hassoc htighter hf hle (hus.mono (Nat.le_succ j)) h fun _ _ _ hx =>
      .done (levelRound_done hlevel hx hus) fun y _ hy => .pure ⟨y, rfl, hy⟩

section

variable (he : Operates i enter A)
include he

theorem right_groups (hlevels : Level.all.drop j = level :: tighter) (hlevel : Level.all[j]? = some level)
    (hassoc : level.assoc = .right) (htighter : Groups i enter A tighter (j + 1)) :
    Groups i enter A (level :: tighter) j := by
  have hj := (List.getElem?_eq_some_iff.1 hlevel).1
  intro f lead s₀ s us hf hle hus h
  rw [operation_cons]
  rcases operand_cases hj hle with htight | ⟨l, k, y, r, rfl, hrank⟩
  · refine (htighter hf htight (hus.mono (Nat.le_succ j)) h).bind ?_
    rintro _ s₁ ⟨x, rfl, hx⟩
    exact .assoc (.read (.done (levelRound_done hlevel hx hus) fun z _ hz => .pure ⟨z, rfl, hz⟩))
  · obtain ⟨hmem, hleft, hright⟩ := ranked_sides hlevel hf hrank
    obtain ⟨hk, hl, hr, -⟩ := hf
    rw [hassoc] at hleft hright
    have hu : Writes i (rightOperand enter level tighter) [r.tree] us (·.isSome) := by
      rw [rightOperand, hassoc, ← hlevels]
      exact he.operation hj.le hr h.2 hright hus
    refine (htighter hl hleft ?_ h.1).bind ?_
    · exact fun _ => hrank.trans_lt (Nat.lt_succ_self j)
    rintro _ s₁ ⟨x, rfl, hx⟩
    have hround := levelRound_writes hmem hu hx
    rw [hassoc] at hround
    exact .assoc (.read (.done hround fun z _ hz => .pure ⟨z, rfl, hz⟩))

/-- **Every level writes the ranked formulas that are tight enough for it**, from the tight levels to the
loose ones. -/
theorem groups_all : ∀ (levels : List Level) {j : Nat}, Level.all.drop j = levels → j ≤ 10 →
    Groups i enter A levels j
  | [], j, hlevels, hj => by
    obtain rfl : j = 10 := Nat.le_antisymm hj (List.drop_eq_nil_iff.1 hlevels)
    exact fun _ _ _ _ _ hf hle hus h => unary_finds he hf hle hus h
  | level :: tighter, j, hlevels, hj => by
    obtain ⟨hj', hlevel, htighter⟩ := level_of_drop hlevels
    have ih := groups_all tighter htighter hj'
    cases hassoc : level.assoc with
    | left => exact left_groups hlevel hassoc ih
    | right => exact right_groups he hlevels hlevel hassoc ih

/-- An operation is written from its beginning. -/
theorem operation_writes (hj : j ≤ 10) (hf : f.Ranked) (hA : f.Over A (first us)) (hle : j ≤ f.tight)
    (hus : Looser j (first us)) :
    Writes i (operation enter (Level.all.drop j) none) [f.tree] us (·.isSome) :=
  (groups_all he _ rfl hj).writes hf hA hle hus

end

end Production

end LuaTree
