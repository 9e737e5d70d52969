import LuaTree.Proofs.Placing
import LuaTree.Proofs.Shape
import LuaTree.Tree.Focus

/-!
# Proofs/Focus — what is around a node in focus

The frames around a node put leaves before it and behind it, whatever stands in its place
(`Frame.Around`), so the tree after a change at a node can be read off the leaves of the node alone.
-/

namespace LuaTree

open LuaTree.Tree

theorem Tree.sizeOfList_append (ts us : List Tree) :
    sizeOfList (ts ++ us) = sizeOfList ts + sizeOfList us := by
  induction ts with
  | nil => simp [sizeOfList]
  | cons t ts ih => rw [List.cons_append, sizeOfList, sizeOfList, ih, Nat.add_assoc]

/-- **What frames put around a tree**: the leaves `as` before it, which take the bytes up to `start`, and the
leaves `bs` behind it. -/
structure Frame.Around (above : List Frame) (start : Nat) (as bs : List (Kind × String)) : Prop where
  leaves : ∀ t : Tree, (above.foldl (fun t frame => frame.fill t) t).leaves = as ++ (t.leaves ++ bs)
  start : start = (textOfLeaves as).utf8ByteSize

/-- Whatever is put into the frames, its shape tells the shape of the whole. -/
theorem shape_foldl_fill {t u : Tree} (h : t.shape = u.shape) (above : List Frame) :
    (above.foldl (fun t frame => frame.fill t) t).shape = (above.foldl (fun t frame => frame.fill t) u).shape := by
  induction above generalizing t u with
  | nil => exact h
  | cons f above ih =>
    refine ih ?_
    simp only [Frame.fill, shape, shapeOfList_append, shapeOfList, h]

/-- A child takes its place between the children before it and those behind. -/
theorem Frame.Around.child {above : List Frame} {start : Nat} {as bs : List (Kind × String)}
    (h : Frame.Around above start as bs) (k : Kind) (left right : List Tree) :
    Frame.Around (⟨k, start, left, right⟩ :: above) (start + sizeOfList left.reverse)
      (as ++ leavesOfList left.reverse) (leavesOfList right ++ bs) := by
  refine ⟨fun t => ?_, ?_⟩
  · rw [List.foldl_cons, h.leaves, Frame.fill, Tree.leaves, leavesOfList_append, leavesOfList]
    simp only [List.append_assoc]
  · rw [h.start, textOfLeaves_append, String.utf8ByteSize_append, sizeOfList_eq]

mutual

theorem around_of_mem : ∀ {t : Tree} {above : List Frame} {start : Nat} {as bs : List (Kind × String)}
    {f : Focus}, Frame.Around above start as bs → f ∈ Focus.allFrom above start t →
    (∃ as' bs', Frame.Around f.above f.start as' bs') ∧
      f.replace f.tree = above.foldl (fun t frame => frame.fill t) t
  | .leaf .., _, _, _, _, _, _, hf => nomatch hf
  | .node k cs, above, start, as, bs, f, h, hf => by
    rcases List.mem_cons.1 hf with rfl | hf
    · exact ⟨⟨as, bs, h⟩, rfl⟩
    · exact around_of_mem_row h rfl hf

theorem around_of_mem_row : ∀ {ts : List Tree} {above : List Frame} {k : Kind} {start offset : Nat}
    {left : List Tree} {as bs : List (Kind × String)} {f : Focus}, Frame.Around above start as bs →
    offset = start + sizeOfList left.reverse → f ∈ Focus.allOfRow above k start left offset ts →
    (∃ as' bs', Frame.Around f.above f.start as' bs') ∧
      f.replace f.tree = above.foldl (fun t frame => frame.fill t) (.node k (left.reverse ++ ts))
  | [], _, _, _, _, _, _, _, _, _, _, hf => nomatch hf
  | t :: ts, above, k, start, offset, left, as, bs, f, h, hoffset, hf => by
    rcases List.mem_append.1 hf with hf | hf
    · have hchild := h.child k left ts
      rw [← hoffset] at hchild
      have haround := around_of_mem hchild hf
      exact haround
    · have hnext : offset + t.size = start + sizeOfList (t :: left).reverse := by
        rw [hoffset, List.reverse_cons, Tree.sizeOfList_append, sizeOfList, sizeOfList, Nat.add_zero,
          Nat.add_assoc]
      obtain ⟨haround, hreplace⟩ := around_of_mem_row h hnext hf
      exact ⟨haround, by rw [hreplace, List.reverse_cons, List.append_assoc, List.singleton_append]⟩

end

/-- **Every node of a tree is in focus somewhere**, and a focus gives the tree back. -/
theorem around_of_mem_foci {t : Tree} {f : Focus} (hf : f ∈ t.foci) :
    (∃ as bs, Frame.Around f.above f.start as bs) ∧ f.replace f.tree = t := by
  have hnone : Frame.Around [] 0 [] [] := ⟨fun u => (List.append_nil _).symm, rfl⟩
  have haround := around_of_mem hnone hf
  exact haround

end LuaTree
