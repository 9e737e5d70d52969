import LuaTree.Proofs.Draft

/-!
# Proofs/Linking — a finished record is balanced, and its links lead to the nodes around

The record of one tree opens and closes nodes in pairs (`Event.Paired.balanced`).  An opening that was linked to holds
the kind of a node, stands behind all that link to it, and only one does (`Branch.linked_events`).  Both
are read off the drafts, in which nothing is loose.
-/

namespace LuaTree

namespace Event

/-! ## Opening and closing in pairs -/

/-- Whether an event opens a node; a tombstone opens none. -/
def isOpening : Event → Bool
  | opening k _ => k != .tombstone
  | _ => false

def isClosing : Event → Bool
  | closing => true
  | _ => false

/-- The number of nodes that some events open. -/
def opened (es : List Event) : Nat := es.countP isOpening

/-- The number of nodes that some events close. -/
def closed (es : List Event) : Nat := es.countP isClosing

/-- **A balanced record**: the first node is open until the last event closes it. -/
structure Balanced (es : List Event) : Prop where
  open_before : ∀ n, 0 < n → n < es.length → closed (es.take n) < opened (es.take n)
  closed_after : closed es = opened es

/-- Events that close what they open, and never more. -/
structure Paired (es : List Event) : Prop where
  before : ∀ n, closed (es.take n) ≤ opened (es.take n)
  after : closed es = opened es

variable {es fs : List Event} {k : Kind} {link : Option Nat}

theorem Paired.nil : Paired [] := ⟨fun n => by simp [closed, opened], rfl⟩

theorem Paired.append (hes : Paired es) (hfs : Paired fs) : Paired (es ++ fs) where
  before n := by
    have h₁ := hes.before n
    have h₂ := hfs.before (n - es.length)
    rw [closed, opened] at *
    rw [List.take_append, List.countP_append, List.countP_append]
    omega
  after := by
    have h₁ := hes.after
    have h₂ := hfs.after
    rw [closed, opened] at *
    rw [List.countP_append, List.countP_append, h₁, h₂]

/-- An event that neither opens nor closes. -/
theorem Paired.singleton {e : Event} (ho : e.isOpening = false) (hc : e.isClosing = false) : Paired [e] where
  before n := by cases n <;> simp [closed, opened, hc]
  after := by simp [closed, opened, ho, hc]

/-- **A node around what is level is balanced.** -/
theorem Paired.balanced (h : Paired es) (hk : k ≠ .tombstone) : Balanced (opening k link :: (es ++ [closing])) where
  open_before
    | 0, hn, _ => absurd hn (Nat.lt_irrefl 0)
    | n + 1, _, hn => by
      have hle : n - es.length = 0 := by
        simp only [List.length_cons, List.length_append, List.length_nil] at hn
        omega
      have hbefore := h.before n
      rw [closed, opened] at *
      rw [List.take_succ_cons, List.take_append, hle, List.take_zero, List.append_nil,
        List.countP_cons_of_neg (by simp [isClosing]), List.countP_cons_of_pos (by simp [isOpening, hk])]
      omega
  closed_after := by
    have hafter := h.after
    rw [closed, opened] at *
    simp [List.countP_cons, isClosing, isOpening, hk, hafter]

theorem Balanced.paired (h : Balanced es) : Paired es where
  before n := by
    rcases Nat.eq_zero_or_pos n with rfl | hpos
    · simp [closed, opened]
    rcases Nat.lt_or_ge n es.length with hlt | hge
    · exact Nat.le_of_lt (h.open_before n hpos hlt)
    · rw [List.take_of_length_le hge]
      exact Nat.le_of_eq h.closed_after
  after := h.closed_after

end Event

open Event

mutual

theorem Branch.paired_events : ∀ (b : Branch) (link : Option Nat), b.Tied → Paired (b.events link)
  | .node _ ds, _, h => ((Draft.paired_eventsOfList ds h.2).balanced h.1).paired
  | .wrap b _ ds, _, h => (b.paired_events _ h.2.1).append ((Draft.paired_eventsOfList ds h.2.2).balanced h.1).paired

theorem Draft.paired_events : ∀ d : Draft, d.Tied → Paired d.events
  | .blank, _ => .singleton rfl rfl
  | .leaf .., _ => .singleton rfl rfl
  | .grown b, h => b.paired_events none h

/-- **Finished drafts close what they open.** -/
theorem Draft.paired_eventsOfList : ∀ ds : List Draft, Draft.TiedInList ds → Paired (Draft.eventsOfList ds)
  | [], _ => .nil
  | d :: ds, h => (d.paired_events h.1).append (Draft.paired_eventsOfList ds h.2)

end

/-! ## Links -/

namespace Event

/-- Some event links to the event with a number. -/
def Points (es : List Event) (t : Nat) : Prop :=
  ∃ n k d, es[n]? = some (opening k (some d)) ∧ n + d = t

/-- The event with a number is the opening of a node. -/
def OpensAt (es : List Event) (t : Nat) : Prop := ∃ k link, k ≠ .tombstone ∧ es[t]? = some (opening k link)

/-- **Links lead on to openings of nodes**, and no two of them to the same. -/
structure Linked (es : List Event) : Prop where
  later : ∀ n k d, es[n]? = some (opening k (some d)) → n < n + d ∧ OpensAt es (n + d)
  unique : ∀ n m k l d e, es[n]? = some (opening k (some d)) → es[m]? = some (opening l (some e)) →
    n + d = m + e → n = m

variable {es fs : List Event} {n t : Nat} {k : Kind} {link : Option Nat}

theorem OpensAt.lt (h : OpensAt es t) : t < es.length := by
  obtain ⟨k, link, -, h⟩ := h
  exact (List.getElem?_eq_some_iff.1 h).1

theorem Linked.points_bounds (h : Linked es) (ht : Points es t) : 0 < t ∧ t < es.length := by
  obtain ⟨n, k, d, hn, rfl⟩ := ht
  obtain ⟨hlt, hopens⟩ := h.later n k d hn
  exact ⟨by omega, hopens.lt⟩

theorem getElem?_append_add (n : Nat) : (es ++ fs)[es.length + n]? = fs[n]? := by
  rw [List.getElem?_append_right (Nat.le_add_right ..), Nat.add_sub_cancel_left]

/-- Links stay in their part of a record. -/
theorem points_append_left (ht : t < es.length) :
    Points (es ++ fs) t ↔ Points es t := by
  constructor
  · rintro ⟨n, k, d, hn, rfl⟩
    exact ⟨n, k, d, by rwa [List.getElem?_append_left (by omega)] at hn, rfl⟩
  · rintro ⟨n, k, d, hn, rfl⟩
    exact ⟨n, k, d, by rwa [List.getElem?_append_left (by omega)], rfl⟩

theorem points_append_right (hes : Linked es) : Points (es ++ fs) (es.length + t) ↔ Points fs t := by
  constructor
  · rintro ⟨n, k, d, hn, hd⟩
    rcases Nat.lt_or_ge n es.length with hlt | hge
    · rw [List.getElem?_append_left hlt] at hn
      have := (hes.later n k d hn).2.lt
      omega
    · obtain ⟨m, rfl⟩ := Nat.exists_eq_add_of_le hge
      rw [getElem?_append_add] at hn
      exact ⟨m, k, d, hn, by omega⟩
  · rintro ⟨n, k, d, hn, rfl⟩
    exact ⟨es.length + n, k, d, by rwa [getElem?_append_add], by omega⟩

theorem Linked.append (hes : Linked es) (hfs : Linked fs) : Linked (es ++ fs) := by
  -- a link of the whole is one of a part
  have hparts : ∀ n k d, (es ++ fs)[n]? = some (opening k (some d)) →
      (es[n]? = some (opening k (some d)) ∧ n + d < es.length) ∨
        ∃ m, n = es.length + m ∧ fs[m]? = some (opening k (some d)) := fun n k d hn => by
    rcases Nat.lt_or_ge n es.length with hlt | hge
    · rw [List.getElem?_append_left hlt] at hn
      exact .inl ⟨hn, (hes.later n k d hn).2.lt⟩
    · obtain ⟨m, rfl⟩ := Nat.exists_eq_add_of_le hge
      exact .inr ⟨m, rfl, by rwa [getElem?_append_add] at hn⟩
  refine ⟨fun n k d hn => ?_, fun n m k l d e hn hm heq => ?_⟩
  · rcases hparts n k d hn with ⟨hn, hlt⟩ | ⟨m, rfl, hm⟩
    · obtain ⟨hd, l, link, hl, ht⟩ := hes.later n k d hn
      exact ⟨hd, l, link, hl, by rwa [List.getElem?_append_left hlt]⟩
    · obtain ⟨hd, l, link, hl, ht⟩ := hfs.later m k d hm
      exact ⟨by omega, l, link, hl, by rwa [Nat.add_assoc, getElem?_append_add]⟩
  · rcases hparts n k d hn with ⟨hn₁, hlt⟩ | ⟨n', rfl, hn₁⟩ <;>
      rcases hparts m l e hm with ⟨hm₁, hlt'⟩ | ⟨m', rfl, hm₁⟩
    · exact hes.unique n m k l d e hn₁ hm₁ heq
    · omega
    · omega
    · have := hfs.unique n' m' k l d e hn₁ hm₁ (by omega)
      omega

/-- Events without links. -/
theorem linked_of_forall (h : ∀ e ∈ es, ∀ k d, e ≠ opening k (some d)) : Linked es := by
  refine ⟨fun n k d hn => ?_, fun n m k l d e hn => ?_⟩ <;>
    exact absurd rfl (h _ (List.mem_of_getElem? hn) k d)

/-- **A link to an opening that none leads to yet.** -/
theorem Linked.set {a d : Nat} (h : Linked es) (ha : es[a]? = some (opening k none)) (hd : 0 < d)
    (hopens : OpensAt es (a + d)) (hnew : ¬ Points es (a + d)) : Linked (es.set a (opening k (some d))) ∧
      ∀ t, Points (es.set a (opening k (some d))) t ↔ Points es t ∨ t = a + d := by
  have hlt := (List.getElem?_eq_some_iff.1 ha).1
  have hset : ∀ n, (es.set a (opening k (some d)))[n]? = if a = n then some (opening k (some d)) else es[n]? :=
    fun n => by
      rw [List.getElem?_set]
      split <;> simp
  -- a link of the new record is the new one or an old one
  have hlinks : ∀ n l e, (es.set a (opening k (some d)))[n]? = some (opening l (some e)) →
      n = a ∧ e = d ∨ n ≠ a ∧ es[n]? = some (opening l (some e)) := fun n l e hn => by
    rw [hset] at hn
    split at hn
    · rename_i hna
      cases hn
      exact .inl ⟨hna.symm, rfl⟩
    · rename_i hna
      exact .inr ⟨Ne.symm hna, hn⟩
  have hopens' : ∀ t, OpensAt es t → OpensAt (es.set a (opening k (some d))) t := by
    rintro t ⟨l, link, hl, ht⟩
    by_cases hat : a = t
    · subst hat
      obtain ⟨rfl, -⟩ : k = l ∧ none = link := by simpa [ha] using ht
      exact ⟨k, some d, hl, by rw [hset, if_pos rfl]⟩
    · exact ⟨l, link, hl, by rw [hset, if_neg hat, ht]⟩
  refine ⟨⟨fun n l e hn => ?_, fun n m l l' e e' hn hm heq => ?_⟩, fun t => ⟨?_, ?_⟩⟩
  · rcases hlinks n l e hn with ⟨rfl, rfl⟩ | ⟨-, hn⟩
    · exact ⟨by omega, hopens' _ hopens⟩
    · exact ⟨(h.later n l e hn).1, hopens' _ (h.later n l e hn).2⟩
  · rcases hlinks n l e hn with ⟨rfl, rfl⟩ | ⟨-, hn₁⟩ <;> rcases hlinks m l' e' hm with ⟨hm₁, he'⟩ | ⟨-, hm₁⟩
    · exact hm₁.symm
    · exact absurd ⟨m, l', e', hm₁, heq.symm⟩ hnew
    · exact absurd ⟨n, l, e, hn₁, by rw [heq, hm₁, he']⟩ hnew
    · exact h.unique n m l l' e e' hn₁ hm₁ heq
  · rintro ⟨n, l, e, hn, rfl⟩
    rcases hlinks n l e hn with ⟨rfl, rfl⟩ | ⟨-, hn⟩
    · exact .inr rfl
    · exact .inl ⟨n, l, e, hn, rfl⟩
  · rintro (⟨n, l, e, hn, rfl⟩ | rfl)
    · have hna : a ≠ n := by
        rintro rfl
        simp [ha] at hn
      exact ⟨n, l, e, by rw [hset, if_neg hna, hn], rfl⟩
    · exact ⟨a, k, d, by rw [hset, if_pos rfl], rfl⟩

/-- A node around linked events. -/
theorem Linked.node (h : Linked es) : Linked (opening k none :: (es ++ [closing])) := by
  have hopening : Linked [opening k none] := linked_of_forall (by simp)
  exact hopening.append (h.append (linked_of_forall (by simp)))

end Event

/-- The events of a branch differ in the link of the outermost opening only. -/
theorem Branch.events_set (b : Branch) : ∃ a, (b.events none)[a]? = some (.opening b.kind none) ∧
    a + b.width = (b.events none).length ∧
      ∀ link, b.events link = (b.events none).set a (.opening b.kind link) := by
  obtain ⟨A, B, hB, hev⟩ := b.exists_events_eq
  refine ⟨A.length, by simp [hev], by simp [hev]; omega, fun link => ?_⟩
  rw [hev, hev, List.set_append_right _ _ (Nat.le_refl _), Nat.sub_self, List.set_cons_zero]

theorem Branch.length_events (b : Branch) (link : Option Nat) : (b.events link).length = (b.events none).length := by
  obtain ⟨a, -, -, hset⟩ := b.events_set
  rw [hset, List.length_set]

theorem Branch.width_pos (b : Branch) : 0 < b.width := by cases b <;> simp [Branch.width]

/-- **A branch that is wrapped links to the node around it.** -/
theorem Branch.linked_wrap {b : Branch} {k : Kind} {es : List Event} (hb : Linked (b.events none))
    (hes : Linked es) (hk : k ≠ .tombstone) :
    Linked (b.events (some b.width) ++ .opening k none :: (es ++ [.closing])) ∧
      ∀ t, Points (b.events (some b.width) ++ .opening k none :: (es ++ [.closing])) t ↔
        Points (b.events none ++ .opening k none :: (es ++ [.closing])) t ∨ t = (b.events none).length := by
  obtain ⟨a, ha, hwidth, hset⟩ := b.events_set
  have hlt := (List.getElem?_eq_some_iff.1 ha).1
  have hnode : Linked (.opening k none :: (es ++ [.closing])) := hes.node
  have hwhole := (hb.append hnode).set (a := a) (d := b.width) (k := b.kind)
    (by rw [List.getElem?_append_left hlt, ha]) b.width_pos
    ⟨k, none, hk, by rw [hwidth, List.getElem?_append_right (Nat.le_refl _), Nat.sub_self]; rfl⟩ (fun h => ?_)
  · rw [List.set_append_left _ _ hlt, ← hset, hwidth] at hwhole
    exact hwhole
  · rw [hwidth, ← Nat.add_zero (b.events none).length, points_append_right hb] at h
    exact absurd (hnode.points_bounds h).1 (Nat.lt_irrefl 0)

mutual

/-- **The links of a finished branch lead to the nodes around.** -/
theorem Branch.linked_events : ∀ b : Branch, b.Tied → Linked (b.events none)
  | .node _ ds, h => (Draft.linked_eventsOfList ds h.2).node
  | .wrap b _ ds, h => (Branch.linked_wrap (b.linked_events h.2.1) (Draft.linked_eventsOfList ds h.2.2) h.1).1

theorem Draft.linked_events : ∀ d : Draft, d.Tied → Linked d.events
  | .blank, _ => linked_of_forall (by simp [Draft.events, Event.blank])
  | .leaf .., _ => linked_of_forall (by simp [Draft.events])
  | .grown b, h => b.linked_events h

theorem Draft.linked_eventsOfList : ∀ ds : List Draft, Draft.TiedInList ds → Linked (Draft.eventsOfList ds)
  | [], _ => linked_of_forall (by simp [Draft.eventsOfList])
  | d :: ds, h => (d.linked_events h.1).append (Draft.linked_eventsOfList ds h.2)

end

end LuaTree
