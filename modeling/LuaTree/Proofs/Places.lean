import LuaTree.Proofs.Focus
import Mathlib.Data.List.Infix
import Mathlib.Data.List.Pairwise
import Mathlib.Logic.Relation

/-!
# Proofs/Places — where the nodes of a tree stand

A focus keeps the frames around its node, and stepping down into a child puts one more around it
(`Focus.Child`).  The nodes of a part are those that such steps lead to (`mem_allFrom_iff`), and the ancestors of a
node are those they lead from (`mem_ancestors_iff`).  How many children each frame has to the left is the path of a
node: it tells a node from all others, and a node encloses another one if its path is a prefix of the path of the
other (`encloses_iff_path`).  In preorder a node is inside an earlier one or begins where that one has ended
(`pairwise_foci`).
-/

namespace LuaTree

open LuaTree.Tree Relation

/-- The places of the frames among their siblings, outermost first. -/
def Frame.path (above : List Frame) : List Nat := (above.map fun frame => frame.left.length).reverse

namespace Focus

/-- The places that lead from the root to a node. -/
def path (f : Focus) : List Nat := Frame.path f.above

/-! ## Stepping down -/

/-- **A step down**, from a node to one of its children. -/
inductive Child : Focus → Focus → Prop
  | mk (start : Nat) (above : List Frame) (k : Kind) (as : List Tree) (t : Tree) (bs : List Tree) :
    Child ⟨start, .node k (as ++ t :: bs), above⟩ ⟨start + sizeOfList as, t, ⟨k, start, as.reverse, bs⟩ :: above⟩

/-- A part encloses another one, or is that part. -/
abbrev Encloses : Focus → Focus → Prop := ReflTransGen Child

variable {a f g : Focus}

theorem Child.path_eq (h : Child f g) : ∃ i, g.path = f.path ++ [i] := by
  obtain ⟨start, above, k, as, t, bs⟩ := h
  exact ⟨as.length, by simp [path, Frame.path]⟩

theorem Child.ancestors_eq (h : Child f g) : g.ancestors = g :: f.ancestors := by
  obtain ⟨start, above, k, as, t, bs⟩ := h
  simp only [ancestors, ancestorsFrom, Frame.fill, List.reverse_reverse]

theorem Child.bounds (h : Child f g) : f.start ≤ g.start ∧ g.start + g.tree.size ≤ f.start + f.tree.size := by
  obtain ⟨start, above, k, as, t, bs⟩ := h
  dsimp only
  rw [Tree.size, Tree.sizeOfList_append, sizeOfList]
  omega

theorem Child.sizeOf_lt (h : Child f g) : sizeOf g.tree < sizeOf f.tree := by
  obtain ⟨start, above, k, as, t, bs⟩ := h
  have hlt : sizeOf t < sizeOf (as ++ t :: bs) := List.sizeOf_lt_of_mem (by simp)
  rw [Tree.node.sizeOf_spec]
  exact Nat.lt_add_left _ hlt

theorem mem_ancestors_self (f : Focus) : f ∈ f.ancestors := by
  obtain ⟨start, t, _ | ⟨frame, above⟩⟩ := f <;> exact List.mem_cons_self

/-- Children at the same place of one node are the same. -/
theorem Child.unique (hf : Child a f) (hg : Child a g) (h : f.path = g.path) : f = g := by
  obtain ⟨start, above, k, as, t, bs⟩ := hf
  generalize hnode : Tree.node k (as ++ t :: bs) = node at hg
  obtain ⟨_, _, l, cs, u, ds⟩ := hg
  obtain ⟨rfl, hrow⟩ := Tree.node.inj hnode
  have hlength : as.length = cs.length := by simpa [path, Frame.path] using h
  obtain ⟨rfl, hbehind⟩ := List.append_inj hrow hlength
  obtain ⟨rfl, rfl⟩ := List.cons.inj hbehind
  rfl

namespace Encloses

theorem prefix_path (h : f.Encloses g) : f.path <+: g.path := by
  induction h with
  | refl => exact List.prefix_rfl
  | tail _ hstep ih =>
    obtain ⟨i, hi⟩ := hstep.path_eq
    exact hi ▸ ih.trans (List.prefix_append ..)

theorem bounds (h : f.Encloses g) : f.start ≤ g.start ∧ g.start + g.tree.size ≤ f.start + f.tree.size := by
  induction h with
  | refl => exact ⟨Nat.le_refl _, Nat.le_refl _⟩
  | tail _ hstep ih => exact ⟨ih.1.trans hstep.bounds.1, hstep.bounds.2.trans ih.2⟩

/-- What has the path of the whole is the whole. -/
theorem eq_of_path (h : f.Encloses g) (hpath : f.path = g.path) : f = g := by
  rcases h.cases_tail with rfl | ⟨b, hb, hstep⟩
  · rfl
  · obtain ⟨i, hi⟩ := hstep.path_eq
    have hlength := (prefix_path hb).length_le
    rw [hpath, hi, List.length_append, List.length_singleton] at hlength
    omega

/-- What is inside another part is smaller. -/
theorem eq_or_sizeOf_lt (h : f.Encloses g) : f = g ∨ sizeOf g.tree < sizeOf f.tree := by
  induction h with
  | refl => exact .inl rfl
  | tail _ hstep ih =>
    rcases ih with rfl | hlt
    · exact .inr hstep.sizeOf_lt
    · exact .inr (hstep.sizeOf_lt.trans hlt)

theorem antisymm (h : f.Encloses g) (h' : g.Encloses f) : f = g := by
  rcases h.eq_or_sizeOf_lt with rfl | hlt
  · rfl
  · rcases h'.eq_or_sizeOf_lt with rfl | hlt'
    · rfl
    · exact absurd hlt (Nat.not_lt_of_lt hlt')

theorem mem_ancestors (h : f.Encloses g) : f ∈ g.ancestors := by
  induction h with
  | refl => exact f.mem_ancestors_self
  | tail _ hstep ih => exact hstep.ancestors_eq ▸ List.mem_cons_of_mem _ ih

end Encloses

/-! ## The nodes of a part -/

/-- Each node of a row is one of a tree in it. -/
theorem mem_allOfRow {above : List Frame} {k : Kind} {start : Nat} : ∀ {ts left : List Tree} {offset : Nat},
    g ∈ allOfRow above k start left offset ts → ∃ as t bs, ts = as ++ t :: bs ∧
      g ∈ allFrom (⟨k, start, as.reverse ++ left, bs⟩ :: above) (offset + sizeOfList as) t
  | [], _, _, hg => nomatch hg
  | t :: ts, left, offset, hg => by
    rcases List.mem_append.1 hg with hg | hg
    · exact ⟨[], t, ts, rfl, hg⟩
    · obtain ⟨as, u, bs, rfl, hu⟩ := mem_allOfRow hg
      refine ⟨t :: as, u, bs, rfl, ?_⟩
      rwa [List.reverse_cons, List.append_assoc, sizeOfList, ← Nat.add_assoc]

mutual

/-- The nodes of a part are inside it. -/
theorem encloses_of_mem : ∀ {t : Tree} {above : List Frame} {start : Nat} {g : Focus},
    g ∈ allFrom above start t → Encloses ⟨start, t, above⟩ g ∧ ∃ k cs, g.tree = .node k cs
  | .leaf .., _, _, _, hg => nomatch hg
  | .node k cs, above, start, g, hg => by
    rcases List.mem_cons.1 hg with rfl | hg
    · exact ⟨.refl, k, cs, rfl⟩
    · exact @encloses_of_mem_row cs above k start start [] g rfl hg

theorem encloses_of_mem_row : ∀ {ts : List Tree} {above : List Frame} {k : Kind} {start offset : Nat}
    {left : List Tree} {g : Focus}, offset = start + sizeOfList left.reverse →
    g ∈ allOfRow above k start left offset ts →
    Encloses ⟨start, .node k (left.reverse ++ ts), above⟩ g ∧ ∃ k cs, g.tree = .node k cs
  | [], _, _, _, _, _, _, _, hg => nomatch hg
  | t :: ts, above, k, start, offset, left, g, hoffset, hg => by
    rcases List.mem_append.1 hg with hg | hg
    · obtain ⟨henclosed, hnode⟩ := encloses_of_mem hg
      have hstep := Child.mk start above k left.reverse t ts
      rw [List.reverse_reverse, ← hoffset] at hstep
      exact ⟨.head hstep henclosed, hnode⟩
    · have hnext : offset + t.size = start + sizeOfList (t :: left).reverse := by
        rw [hoffset, List.reverse_cons, Tree.sizeOfList_append, sizeOfList, sizeOfList, Nat.add_zero, Nat.add_assoc]
      have hrow := encloses_of_mem_row hnext hg
      rwa [List.reverse_cons, List.append_assoc] at hrow

end

/-- The nodes of a tree of a row are nodes of the row, next to each other. -/
theorem infix_allOfRow {above : List Frame} {k : Kind} {start : Nat} {t : Tree} {bs : List Tree} :
    ∀ {as left : List Tree} {offset : Nat},
      allFrom (⟨k, start, as.reverse ++ left, bs⟩ :: above) (offset + sizeOfList as) t <:+:
        allOfRow above k start left offset (as ++ t :: bs)
  | [], left, offset => (List.prefix_append ..).isInfix
  | a :: as, left, offset => by
    have hrow : allFrom (⟨k, start, as.reverse ++ a :: left, bs⟩ :: above) (offset + a.size + sizeOfList as) t <:+:
        allOfRow above k start (a :: left) (offset + a.size) (as ++ t :: bs) := infix_allOfRow
    rw [List.cons_append, allOfRow, sizeOfList, ← Nat.add_assoc, List.reverse_cons, List.append_assoc]
    exact hrow.trans (List.suffix_append ..).isInfix

theorem Child.infix_allFrom (h : Child f g) :
    allFrom g.above g.start g.tree <:+: allFrom f.above f.start f.tree := by
  obtain ⟨start, above, k, as, t, bs⟩ := h
  have hrow : allFrom (⟨k, start, as.reverse ++ [], bs⟩ :: above) (start + sizeOfList as) t <:+:
      allOfRow above k start [] start (as ++ t :: bs) := infix_allOfRow
  rw [List.append_nil] at hrow
  exact hrow.trans (List.suffix_cons ..).isInfix

/-- The nodes of a part stand next to each other. -/
theorem Encloses.infix_allFrom (h : f.Encloses g) :
    allFrom g.above g.start g.tree <:+: allFrom f.above f.start f.tree := by
  induction h with
  | refl => exact List.infix_rfl
  | tail _ hstep ih => exact hstep.infix_allFrom.trans ih

/-- **The nodes of a part are the nodes inside it.** -/
theorem mem_allFrom_iff : g ∈ allFrom f.above f.start f.tree ↔ f.Encloses g ∧ ∃ k cs, g.tree = .node k cs := by
  refine ⟨encloses_of_mem, fun ⟨henclosed, k, cs, hnode⟩ => henclosed.infix_allFrom.subset ?_⟩
  rw [hnode, allFrom]
  obtain ⟨start, tree, above⟩ := g
  obtain rfl : tree = .node k cs := hnode
  exact List.mem_cons_self

/-! ## Preorder -/

/-- **One node comes before another one**: it encloses it, or it ends where the other one starts or before. -/
def Precedes (f g : Focus) : Prop := f ≠ g ∧ (f.Encloses g ∨ f.start + f.tree.size ≤ g.start)

/-- Parts at different places below the same frames have no node in common. -/
theorem ne_of_left {above : List Frame} {frame frame' : Frame} {start start' : Nat} {t u : Tree}
    (h : frame.left.length ≠ frame'.left.length) (hf : Encloses ⟨start, t, frame :: above⟩ f)
    (hg : Encloses ⟨start', u, frame' :: above⟩ g) : f ≠ g := by
  rintro rfl
  have hpath : Frame.path (frame :: above) = Frame.path (frame' :: above) := by
    refine (List.prefix_of_prefix_length_le hf.prefix_path hg.prefix_path ?_).eq_of_length ?_ <;>
      simp [path, Frame.path]
  simp [Frame.path] at hpath
  exact h hpath

mutual

theorem pairwise_allFrom : ∀ (t : Tree) (above : List Frame) (start : Nat),
    (allFrom above start t).Pairwise Precedes
  | .leaf .., _, _ => .nil
  | .node k cs, above, start => by
    refine List.pairwise_cons.2 ⟨fun g hg => ?_, pairwise_allOfRow cs above k start [] start⟩
    obtain ⟨henclosed, -⟩ := @encloses_of_mem_row cs above k start start [] g rfl hg
    refine ⟨?_, .inl henclosed⟩
    rintro rfl
    obtain ⟨as, t, bs, -, hmem⟩ := mem_allOfRow hg
    have hlength := (encloses_of_mem hmem).1.prefix_path.length_le
    simp only [path, Frame.path, List.map_cons, List.reverse_cons, List.length_append, List.length_singleton] at hlength
    omega

theorem pairwise_allOfRow : ∀ (ts : List Tree) (above : List Frame) (k : Kind) (start : Nat) (left : List Tree)
    (offset : Nat), (allOfRow above k start left offset ts).Pairwise Precedes
  | [], _, _, _, _, _ => .nil
  | t :: ts, above, k, start, left, offset => by
    refine List.pairwise_append.2 ⟨pairwise_allFrom t _ _, pairwise_allOfRow ts _ _ _ _ _, fun f hf g hg => ?_⟩
    obtain ⟨as, u, bs, -, hmem⟩ := mem_allOfRow hg
    obtain ⟨hf, -⟩ := encloses_of_mem hf
    obtain ⟨hg, -⟩ := encloses_of_mem hmem
    refine ⟨ne_of_left ?_ hf hg, .inr ?_⟩
    · simp only [List.length_append, List.length_cons]
      omega
    · have hstop := hf.bounds.2
      have hstart := hg.bounds.1
      simp only at hstop hstart
      omega

end

/-! ## The nodes of a tree -/

section Foci

variable {t : Tree}

theorem encloses_of_mem_foci (h : f ∈ t.foci) : Encloses ⟨0, t, []⟩ f := (encloses_of_mem h).1

/-- Every focus of a tree is on a node. -/
theorem exists_node_of_mem_foci (h : f ∈ t.foci) : ∃ k cs, f.tree = .node k cs := (encloses_of_mem h).2

/-- **In preorder a node is inside an earlier one or begins where that one has ended.** -/
theorem pairwise_foci (t : Tree) : t.foci.Pairwise Precedes := pairwise_allFrom t [] 0

theorem nodup_foci (t : Tree) : t.foci.Nodup := (pairwise_foci t).imp And.left

/-- **A node encloses those whose paths go on from its own.** -/
theorem encloses_of_path (hf : Encloses ⟨0, t, []⟩ f) (hg : Encloses ⟨0, t, []⟩ g) (h : f.path <+: g.path) :
    f.Encloses g := by
  -- the induction is on the steps to `g`; if the paths are the same, so are those of the parents
  induction hg generalizing f with
  | refl =>
    have hpath : f.path = [] := List.prefix_nil.1 h
    exact hf.eq_of_path hpath.symm ▸ .refl
  | @tail b g hb hstep ih =>
    obtain ⟨i, hi⟩ := hstep.path_eq
    rw [hi, List.prefix_concat_iff, ← hi] at h
    rcases h with h | h
    · rcases hf.cases_tail with rfl | ⟨c, hc, hstep'⟩
      · rw [hi] at h
        simp [path, Frame.path] at h
      · obtain ⟨j, hj⟩ := hstep'.path_eq
        have hparent : c.path = b.path := (List.append_inj' (hj.symm.trans (h.trans hi)) rfl).1
        obtain rfl : c = b := (ih hc (hparent ▸ List.prefix_rfl)).eq_of_path hparent
        exact hstep'.unique hstep h ▸ .refl
    · exact (ih hf h).tail hstep

theorem encloses_iff_path (hf : f ∈ t.foci) (hg : g ∈ t.foci) : f.Encloses g ↔ f.path <+: g.path :=
  ⟨Encloses.prefix_path, encloses_of_path (encloses_of_mem_foci hf) (encloses_of_mem_foci hg)⟩

/-- **A node is told by its path.** -/
theorem eq_of_path (hf : f ∈ t.foci) (hg : g ∈ t.foci) (h : f.path = g.path) : f = g :=
  ((encloses_iff_path hf hg).2 (h ▸ List.prefix_rfl)).eq_of_path h

theorem encloses_of_mem_ancestors (hf : Encloses ⟨0, t, []⟩ f) (h : a ∈ f.ancestors) :
    Encloses ⟨0, t, []⟩ a ∧ a.Encloses f := by
  induction hf with
  | refl =>
    obtain rfl := List.mem_singleton.1 h
    exact ⟨.refl, .refl⟩
  | @tail b f hb hstep ih =>
    rw [hstep.ancestors_eq] at h
    rcases List.mem_cons.1 h with rfl | h
    · exact ⟨hb.tail hstep, .refl⟩
    · obtain ⟨ha, henclosed⟩ := ih h
      exact ⟨ha, henclosed.tail hstep⟩

/-- What encloses a node is a node. -/
theorem Encloses.exists_node (h : f.Encloses g) (hg : ∃ k cs, g.tree = .node k cs) : ∃ k cs, f.tree = .node k cs := by
  rcases h.cases_head with rfl | ⟨b, hstep, -⟩
  · exact hg
  · obtain ⟨start, above, k, as, t, bs⟩ := hstep
    exact ⟨k, _, rfl⟩

/-- **The ancestors of a node are the nodes around it.** -/
theorem mem_ancestors_iff (hf : f ∈ t.foci) : a ∈ f.ancestors ↔ a ∈ t.foci ∧ a.Encloses f := by
  refine ⟨fun h => ?_, fun h => h.2.mem_ancestors⟩
  obtain ⟨ha, henclosed⟩ := encloses_of_mem_ancestors (encloses_of_mem_foci hf) h
  exact ⟨mem_allFrom_iff.2 ⟨ha, henclosed.exists_node (exists_node_of_mem_foci hf)⟩, henclosed⟩

/-- Further out in the ancestors is what encloses more. -/
theorem pairwise_ancestors (hf : Encloses ⟨0, t, []⟩ f) : f.ancestors.Pairwise fun b a => a.Encloses b := by
  induction hf with
  | refl => exact List.pairwise_singleton ..
  | tail hb hstep ih =>
    rw [hstep.ancestors_eq]
    exact List.pairwise_cons.2 ⟨fun a ha => (encloses_of_mem_ancestors hb ha).2.tail hstep, ih⟩

/-- A node that takes any bytes is told by its offset and its children. -/
theorem eq_of_located (hf : f ∈ t.foci) (hg : g ∈ t.foci) (h : f.located = g.located) (hsize : f.tree.size ≠ 0) :
    f = g := by
  obtain ⟨hstart, htree⟩ := Located.mk.inj h
  have hnone {a b : Focus} (hab : a.Precedes b) (hstart : a.start = b.start) (htree : a.tree = b.tree)
      (hsize : a.tree.size ≠ 0) : False := by
    rcases hab.2 with henclosed | hbehind
    · have hlt := henclosed.eq_or_sizeOf_lt.resolve_left hab.1
      exact absurd hlt (htree ▸ Nat.lt_irrefl _)
    · omega
  have hsymm : Std.Symm fun a b => Precedes a b ∨ Precedes b a := ⟨fun _ _ => Or.symm⟩
  by_contra hne
  have hor := (pairwise_foci t).imp (S := fun a b => Precedes a b ∨ Precedes b a) .inl
  rcases hor.forall hf hg hne with hfg | hgf
  · exact hnone hfg hstart htree hsize
  · exact hnone hgf hstart.symm htree.symm (htree ▸ hsize)

/-- **The nodes of a part among those of the tree.** -/
theorem allFrom_eq_filter (hf : f ∈ t.foci) :
    allFrom f.above f.start f.tree = t.foci.filter fun g => f.path.isPrefixOf g.path := by
  have hinside {g : Focus} (hg : g ∈ t.foci) :
      f.path.isPrefixOf g.path = true ↔ g ∈ allFrom f.above f.start f.tree := by
    rw [List.isPrefixOf_iff_prefix, ← encloses_iff_path hf hg, mem_allFrom_iff]
    exact (and_iff_left (exists_node_of_mem_foci hg)).symm
  obtain ⟨before, behind, hsplit⟩ := (encloses_of_mem_foci hf).infix_allFrom
  change before ++ allFrom f.above f.start f.tree ++ behind = t.foci at hsplit
  have hnodup := nodup_foci t
  rw [← hsplit] at hinside hnodup ⊢
  obtain ⟨hfront, -, hbehind⟩ := List.nodup_append.1 hnodup
  obtain ⟨-, -, hbefore⟩ := List.nodup_append.1 hfront
  have hnoneBefore : before.filter (fun g => f.path.isPrefixOf g.path) = [] := by
    refine List.filter_eq_nil_iff.2 fun g hg h => ?_
    exact hbefore g hg g ((hinside (List.mem_append_left _ (List.mem_append_left _ hg))).1 h) rfl
  have hnoneBehind : behind.filter (fun g => f.path.isPrefixOf g.path) = [] := by
    refine List.filter_eq_nil_iff.2 fun g hg h => ?_
    exact hbehind g (List.mem_append_right _ ((hinside (List.mem_append_right _ hg)).1 h)) g hg rfl
  rw [List.filter_append, List.filter_append, hnoneBefore, hnoneBehind, List.nil_append, List.append_nil]
  refine (List.filter_eq_self.2 fun g hg => ?_).symm
  exact (hinside (List.mem_append_left _ (List.mem_append_right _ hg))).2 hg

end Foci

mutual

/-- The nodes in focus are the nodes of the part. -/
theorem map_located_allFrom : ∀ (t : Tree) (above : List Frame) (start : Nat),
    (allFrom above start t).map located = Located.nodesFrom start t
  | .leaf .., _, _ => rfl
  | .node k cs, above, start => by
    rw [allFrom, List.map_cons, map_located_allOfRow, Located.nodesFrom]
    rfl

theorem map_located_allOfRow : ∀ (ts : List Tree) (above : List Frame) (k : Kind) (start : Nat) (left : List Tree)
    (offset : Nat), (allOfRow above k start left offset ts).map located = Located.nodesOfRow offset ts
  | [], _, _, _, _, _ => rfl
  | t :: ts, above, k, start, left, offset => by
    rw [allOfRow, List.map_append, map_located_allFrom, map_located_allOfRow, Located.nodesOfRow]

end

end Focus

end LuaTree
