import LuaTree.Proofs.Inclusion
import LuaTree.Proofs.Skeleton
import LuaTree.Tree.Focus

/-!
# Proofs/Herald — what a declared name stands behind

A name is declared behind `for`, `local`, `function`, a comma or an opening parenthesis: one of these
**heralds** is the last token before it that stays in the skeleton.  In a list of names and in the name of a
function the first name stands at the beginning, so the herald is found before the node
(`production_le_leads`).
-/

namespace LuaTree

open Grammar Computability

/-- The tokens that a name is declared behind. -/
def heraldKinds : List Kind := [.kwFor, .kwLocal, .kwFunction, .comma, .parenOpen]

namespace Tree

/-- Whether a tree is a herald. -/
def isHerald : Tree → Bool
  | leaf k _ => k ∈ heraldKinds
  | node .. => false

/-- Whether a tree begins with a declared name, if it holds any. -/
def declares : Tree → Bool
  | leaf .. => false
  | node k _ => k ∈ [.name, .nameList, .functionName]

/-- Whether the last tree of a row that stays is a herald; `before` tells what stands before the row. -/
def heralded (before : Bool) : List Tree → Bool
  | [] => before
  | t :: ts => heralded (if t.isStray then before else t.isHerald) ts

/-- **Whether what begins with a name stands behind a herald**, everywhere in a row; `before` tells whether
one stands before the row. -/
def Announced (before : Bool) : List Tree → Prop
  | [] => True
  | t :: ts => (t.isStray = false → t.declares = true → before = true) ∧
      Announced (if t.isStray then before else t.isHerald) ts

variable {ts us : List Tree} {t : Tree}

theorem announced_append {before : Bool} :
    Announced before (ts ++ us) ↔ Announced before ts ∧ Announced (heralded before ts) us := by
  induction ts generalizing before with
  | nil => simp [Announced, heralded]
  | cons t ts ih => simp only [List.cons_append, Announced, heralded, ih, and_assoc]

theorem heralded_append {before : Bool} :
    heralded before (ts ++ us) = heralded (heralded before ts) us := by
  induction ts generalizing before with
  | nil => rfl
  | cons t ts ih => exact ih

/-- A herald before the row does no harm. -/
theorem Announced.mono {before : Bool} (h : Announced before ts) : Announced true ts := by
  induction ts generalizing before with
  | nil => trivial
  | cons t ts ih =>
    refine ⟨fun _ _ => rfl, ?_⟩
    have hts := h.2
    split
    · exact ih hts
    · rename_i ht
      rwa [if_neg ht] at hts

theorem heralded_mono {before : Bool} (h : heralded before ts = true) : heralded true ts = true := by
  induction ts generalizing before with
  | nil => rfl
  | cons t ts ih =>
    rw [heralded] at h ⊢
    split
    · exact ih h
    · rename_i ht
      rwa [if_neg ht] at h

/-- What the grammar sees of a row is what is no stray. -/
theorem clear_withoutTriviaInList (t : Tree) (ts : List Tree) : clear (withoutTriviaInList (t :: ts)) =
    if t.isStray then clear (withoutTriviaInList ts) else t.withoutTrivia :: clear (withoutTriviaInList ts) := by
  cases t with
  | leaf k s =>
    by_cases hk : k.isTrivia
    · simp [withoutTriviaInList, isTrivia, isStray, hk]
    · simp [withoutTriviaInList, isTrivia, isStray, hk, clear, withoutTrivia, isError]
  | node k cs =>
    by_cases hk : k = .error
    · simp [withoutTriviaInList, isTrivia, isStray, hk, clear, withoutTrivia, isError]
    · simp [withoutTriviaInList, isTrivia, isStray, hk, clear, withoutTrivia, isError_node hk]

/-- Strays do not come between. -/
theorem announced_clear {before : Bool} :
    Announced before (clear (withoutTriviaInList ts)) ↔ Announced before ts := by
  induction ts generalizing before with
  | nil => rfl
  | cons t ts ih =>
    rw [clear_withoutTriviaInList, Announced]
    cases hstray : t.isStray with
    | true => simp [ih]
    | false =>
      have hsame : t.withoutTrivia.declares = t.declares ∧ t.withoutTrivia.isHerald = t.isHerald := by
        cases t <;> exact ⟨rfl, rfl⟩
      rw [if_neg Bool.false_ne_true, Announced, isStray_withoutTrivia, hstray, hsame.1, hsame.2,
        if_neg Bool.false_ne_true, ih]

end Tree

namespace Grammar

open LuaTree.Tree

/-! ## Rows without names -/

/-- Rows in which nothing begins with a declared name. -/
def plain : Language Tree := {ts | ∀ t ∈ ts, t.declares = false}

variable {gaps : Bool} {L M : Language Tree} {k : Kind}

theorem one_le_plain : 1 ≤ plain := by
  rintro _ rfl
  exact fun _ ht => absurd ht List.not_mem_nil

theorem mul_le_plain (hL : L ≤ plain) (hM : M ≤ plain) : L * M ≤ plain := by
  rintro _ ⟨ts, hts, us, hus, rfl⟩ t ht
  exact (List.mem_append.1 ht).elim (hL hts t) (hM hus t)

theorem kstar_le_plain (hL : L ≤ plain) : L∗ ≤ plain := by
  intro ts hts t ht
  obtain ⟨rows, rfl, hrows⟩ := Language.mem_kstar.1 hts
  obtain ⟨row, hrow, ht⟩ := List.mem_flatten.1 ht
  exact hL (hrows row hrow) t ht

theorem hole_le_plain (hL : L ≤ plain) : hole gaps L ≤ plain := by
  cases gaps with
  | false => exact hL
  | true => exact add_le one_le_plain hL

theorem extra_le_plain (hL : L ≤ plain) : extra gaps L ≤ plain := by
  cases gaps with
  | false => exact one_le_plain
  | true => exact add_le one_le_plain hL

theorem gaps_le_plain (hL : L ≤ plain) : (if gaps then L else 0) ≤ plain := by
  cases gaps with
  | false => exact bot_le
  | true => exact hL

theorem leaf_le_plain (hL : ∀ ts ∈ L, ∃ k s, ts = [.leaf k s]) : L ≤ plain := by
  intro ts hts t ht
  obtain ⟨k, s, rfl⟩ := hL ts hts
  rw [List.mem_singleton.1 ht]
  rfl

theorem token_le_plain : token k ≤ plain := leaf_le_plain fun _ ⟨s, h⟩ => ⟨k, s, h⟩

theorem tokenOf_le_plain {set : KindSet} : tokenOf set ≤ plain :=
  leaf_le_plain fun _ ⟨k, _, s, h⟩ => ⟨k, s, h⟩

theorem tokenOutside_le_plain {set : KindSet} : tokenOutside set ≤ plain :=
  leaf_le_plain fun _ ⟨k, _, s, h⟩ => ⟨k, s, h⟩

theorem nodes_le_plain (ks : List Kind) (hks : ∀ k ∈ ks, k ∉ [.name, .nameList, .functionName])
    (hL : ∀ ts ∈ L, ∃ k ∈ ks, ∃ cs, ts = [.node k cs]) : L ≤ plain := by
  intro ts hts t ht
  obtain ⟨k, hk, cs, rfl⟩ := hL ts hts
  rw [List.mem_singleton.1 ht]
  exact decide_eq_false (hks k hk)

theorem node_le_plain (hk : k ∉ [.name, .nameList, .functionName]) : node k ≤ plain :=
  nodes_le_plain [k] (by simpa using hk) fun _ ⟨cs, h⟩ => ⟨k, List.mem_singleton_self k, cs, h⟩

theorem nodeOf_le_plain {ks : List Kind} (hks : ∀ k ∈ ks, k ∉ [.name, .nameList, .functionName]) :
    nodeOf ks ≤ plain :=
  nodes_le_plain ks hks fun _ h => h

theorem operand_le_plain {rank : Nat} : operand gaps rank ≤ plain :=
  nodes_le_plain expressionKinds (by decide) fun _ ⟨k, hk, cs, h, _⟩ => ⟨k, hk, cs, h⟩

theorem chain_le_plain : Grammar.chain gaps ≤ plain :=
  nodes_le_plain chainKinds (by decide) fun _ ⟨k, hk, cs, h, _⟩ => ⟨k, hk, cs, h⟩

theorem target_le_plain : target gaps ≤ plain := fun _ h => chain_le_plain h.1

theorem operatorOf_le_plain : operatorOf k ≤ plain := by
  rintro _ ⟨cs, rfl, -⟩ t ht
  rw [List.mem_singleton.1 ht]
  rfl

theorem binary_le_plain : binary gaps ≤ plain := by
  rintro ts ⟨k, -, hts⟩
  exact mul_le_plain (mul_le_plain operand_le_plain operatorOf_le_plain) (hole_le_plain operand_le_plain) hts

theorem statement_le_plain : statement gaps ≤ plain := by
  cases gaps with
  | false => exact nodeOf_le_plain (by decide)
  | true => exact nodeOf_le_plain (by decide)

/-- **Few nodes have names among their children.** -/
theorem production_le_plain (hk : k ∉ [.simpleForStatement, .rangeForStatement, .nameList,
    .functionDefinitionStatement, .functionName, .localFunctionStatement, .localNameStatement,
    .parameterList]) : production gaps k ≤ plain := by
  cases k
  case simpleForStatement | rangeForStatement | nameList | functionDefinitionStatement | functionName |
    localFunctionStatement | localNameStatement | parameterList => exact absurd hk (by decide)
  all_goals repeat first
    | exact bot_le
    | exact one_le_plain
    | exact node_le_plain (by decide)
    | exact nodeOf_le_plain (by decide)
    | exact statement_le_plain
    | exact operand_le_plain
    | exact chain_le_plain
    | exact target_le_plain
    | exact binary_le_plain
    | exact token_le_plain
    | exact tokenOf_le_plain
    | exact tokenOutside_le_plain
    | refine hole_le_plain ?_
    | refine extra_le_plain ?_
    | refine gaps_le_plain ?_
    | refine mul_le_plain ?_ ?_
    | refine kstar_le_plain ?_
    | refine add_le ?_ ?_

/-! ## Rows with names -/

/-- Rows in which every name is announced, if a herald stands before them or `a` is false; `b` asks for a
herald at the end. -/
def leads (a b : Bool) : Language Tree := {ts | Announced a ts ∧ (b = true → heralded a ts = true)}

variable {a b c : Bool}

theorem one_le_leads (h : b = true → a = true) : 1 ≤ leads a b := by
  rintro _ rfl
  exact ⟨trivial, h⟩

theorem mul_le_leads (b : Bool) (hL : L ≤ leads a b) (hM : M ≤ leads b c) : L * M ≤ leads a c := by
  rintro _ ⟨ts, hts, us, hus, rfl⟩
  obtain ⟨hts, hb⟩ := hL hts
  obtain ⟨hus, hc⟩ := hM hus
  change Announced a (ts ++ us) ∧ (c = true → heralded a (ts ++ us) = true)
  rw [announced_append, heralded_append]
  cases b with
  | true =>
    rw [hb rfl]
    exact ⟨⟨hts, hus⟩, hc⟩
  | false =>
    cases hherald : heralded a ts with
    | false => exact ⟨⟨hts, hus⟩, hc⟩
    | true => exact ⟨⟨hts, hus.mono⟩, fun h => heralded_mono (hc h)⟩

theorem kstar_le_leads (hL : L ≤ leads a a) : L∗ ≤ leads a a := by
  intro ts hts
  obtain ⟨rows, rfl, hrows⟩ := Language.mem_kstar.1 hts
  clear hts
  induction rows with
  | nil => exact one_le_leads id rfl
  | cons row rows ih =>
    obtain ⟨hrow, hrows⟩ := List.forall_mem_cons.1 hrows
    exact mul_le_leads a hL (le_refl _) ⟨row, hrow, _, ih hrows, rfl⟩

theorem hole_le_leads (hL : L ≤ leads a false) : hole gaps L ≤ leads a false := by
  cases gaps with
  | false => exact hL
  | true => exact add_le (one_le_leads nofun) hL

theorem plain_le_leads (hL : L ≤ plain) : L ≤ leads a false := by
  intro ts hts
  refine ⟨?_, nofun⟩
  have hplain := hL hts
  clear hts
  induction ts generalizing a with
  | nil => trivial
  | cons t ts ih =>
    obtain ⟨ht, hts⟩ := List.forall_mem_cons.1 hplain
    exact ⟨fun _ h => absurd h (by simp [ht]), ih hts⟩

theorem herald_le_leads (hk : k ∈ heraldKinds) : token k ≤ leads a true := by
  have hstray : ∀ k ∈ heraldKinds, k.isTrivia = false := by decide
  rintro _ ⟨s, rfl⟩
  refine ⟨⟨fun _ h => (by cases h), trivial⟩, fun _ => ?_⟩
  simp [heralded, isStray, hstray k hk, isHerald, hk]

theorem node_le_leads : node k ≤ leads true false := by
  rintro _ ⟨cs, rfl⟩
  exact ⟨⟨fun _ _ => rfl, trivial⟩, nofun⟩

theorem someNames_le_leads : someNames ≤ leads true false :=
  mul_le_leads false node_le_leads
    (kstar_le_leads (mul_le_leads true (herald_le_leads (by decide)) node_le_leads))

/-- **Every declared name is announced.** -/
theorem production_le_leads (k : Kind) :
    production gaps k ≤ leads (decide (k ∈ [.nameList, .functionName])) false := by
  have hkeyword {l : Kind} (hl : l ∈ heraldKinds) {L : Language Tree} (hL : L ≤ leads true false) :
      token l * L ≤ leads false false :=
    mul_le_leads true (herald_le_leads hl) hL
  have hrest {L M : Language Tree} (hL : L ≤ leads false false) (hM : M ≤ plain) : L * M ≤ leads false false :=
    mul_le_leads false hL (plain_le_leads hM)
  have htoken {l : Kind} : hole gaps (token l) ≤ plain := hole_le_plain token_le_plain
  have hexpression : hole gaps (expression gaps) ≤ plain := hole_le_plain operand_le_plain
  have hblock : node .block ≤ plain := node_le_plain (by decide)
  by_cases hk : k ∉ [.simpleForStatement, .rangeForStatement, .nameList, .functionDefinitionStatement,
    .functionName, .localFunctionStatement, .localNameStatement, .parameterList]
  · exact plain_le_leads (production_le_plain hk)
  simp only [List.mem_cons, List.not_mem_nil, or_false, not_not] at hk
  rcases hk with rfl | rfl | rfl | rfl | rfl | rfl | rfl | rfl
  · exact hrest (hrest (hrest (hrest (hrest (hrest (hrest (hrest (hkeyword (by decide) (hole_le_leads
      (mul_le_leads false node_le_leads (plain_le_leads (extra_le_plain token_le_plain)))))
      htoken) hexpression) htoken) hexpression)
      (add_le one_le_plain (mul_le_plain token_le_plain hexpression))) htoken) hblock) htoken
  · exact hrest (hrest (hrest (hrest (hrest (hkeyword (by decide) node_le_leads) htoken)
      (hole_le_plain (node_le_plain (by decide)))) htoken) hblock) htoken
  · exact hole_le_leads (mul_le_leads false someNames_le_leads (plain_le_leads (extra_le_plain token_le_plain)))
  · exact hrest (hkeyword (by decide) node_le_leads) (node_le_plain (by decide))
  · refine hole_le_leads (add_le node_le_leads (plain_le_leads (mul_le_plain (node_le_plain (by decide)) ?_)))
    have hname : hole gaps (token .ident) ≤ plain := hole_le_plain token_le_plain
    exact add_le (mul_le_plain (mul_le_plain (mul_le_plain token_le_plain hname)
      (kstar_le_plain (mul_le_plain token_le_plain hname)))
      (add_le one_le_plain (mul_le_plain token_le_plain hname))) (mul_le_plain token_le_plain hname)
  · refine hrest (mul_le_leads true ?_ (hole_le_leads node_le_leads)) (node_le_plain (by decide))
    exact mul_le_leads true (herald_le_leads (by decide)) (herald_le_leads (by decide))
  · refine hrest (hkeyword (by decide) node_le_leads) (add_le one_le_plain (mul_le_plain token_le_plain ?_))
    exact hole_le_plain (node_le_plain (by decide))
  · refine hole_le_leads (hrest (hkeyword (by decide) (add_le (add_le ?_ ?_) ?_)) htoken)
    · exact plain_le_leads one_le_plain
    · exact plain_le_leads token_le_plain
    · refine mul_le_leads false someNames_le_leads (plain_le_leads (add_le ?_ (extra_le_plain token_le_plain)))
      exact mul_le_plain token_le_plain token_le_plain

end Grammar

/-! ## Names in a tree -/

namespace Tree

/-- What names in a tree rely on: they are announced, and none stands in an Error node. -/
structure Announces (k : Kind) (cs : List Tree) : Prop where
  announced : Announced (decide (k ∈ [.nameList, .functionName])) cs
  stray : k = .error → ∀ c ∈ cs, c.isLeaf = false → c.kind = .error

mutual

theorem everywhere_withoutTrivia {P : Kind → List Tree → Prop} : ∀ t : Tree,
    t.withoutTrivia.Everywhere P ↔ t.Everywhere fun k cs => P k (withoutTriviaInList cs)
  | leaf .. => Iff.rfl
  | node _ cs => and_congr Iff.rfl (everywhere_withoutTriviaInList cs)

theorem everywhere_withoutTriviaInList {P : Kind → List Tree → Prop} : ∀ ts : List Tree,
    EverywhereInList P (withoutTriviaInList ts) ↔
      EverywhereInList (fun k cs => P k (withoutTriviaInList cs)) ts
  | [] => Iff.rfl
  | t :: ts => by
    rw [withoutTriviaInList, EverywhereInList, ← everywhere_withoutTriviaInList ts]
    split
    · cases t with
      | leaf => exact (and_iff_right trivial).symm
      | node => contradiction
    · exact and_congr (everywhere_withoutTrivia t) Iff.rfl

end

theorem node_mem_clear {k : Kind} {cs ts : List Tree} (h : node k cs ∈ ts) (hk : k ≠ .error) :
    node k (withoutTriviaInList cs) ∈ clear (withoutTriviaInList ts) := by
  refine List.mem_filter.2 ⟨?_, by simp [isError_node hk]⟩
  induction ts with
  | nil => cases h
  | cons t ts ih =>
    rw [withoutTriviaInList]
    rcases List.mem_cons.1 h with rfl | h
    · exact List.mem_cons_self
    · split
      · exact ih h
      · exact List.mem_cons_of_mem _ (ih h)

theorem announces_of_conforms {gaps : Bool} {t : Tree} (h : t.withoutTrivia.Conforms gaps) :
    t.Everywhere Announces := by
  refine Everywhere.mono (fun k cs hcs => ⟨announced_clear.1 (production_le_leads k hcs).1, ?_⟩) t
    ((everywhere_withoutTrivia t).1 h)
  rintro rfl c hc hleaf
  cases c with
  | leaf => cases hleaf
  | node k ds =>
    by_contra hk
    have hmem := node_mem_clear hc hk
    cases gaps with
    | false => exact hcs.elim
    | true =>
      obtain ⟨rows, hrows, hall⟩ := Language.mem_kstar.1 (show _ ∈ (tokenOutside .empty)∗ from hcs)
      rw [hrows] at hmem
      obtain ⟨row, hrow, hmem⟩ := List.mem_flatten.1 hmem
      obtain ⟨l, -, s, rfl⟩ := hall row hrow
      cases List.mem_singleton.1 hmem

/-! ## Names in focus -/

mutual

/-- In an Error node are Error nodes only. -/
theorem kind_of_mem_error : ∀ {t : Tree} {above : List Frame} {start : Nat} {f : Focus},
    t.Everywhere Announces → t.kind = .error → f ∈ Focus.allFrom above start t → f.kind = .error
  | leaf .., _, _, _, _, _, hf => nomatch hf
  | node k cs, above, start, f, h, hk, hf => by
    rcases List.mem_cons.1 hf with rfl | hf
    · exact hk
    · exact kind_of_mem_errors h.2 (h.1.stray hk) hf

theorem kind_of_mem_errors : ∀ {ts : List Tree} {above : List Frame} {k : Kind} {start offset : Nat}
    {left : List Tree} {f : Focus}, EverywhereInList Announces ts →
    (∀ t ∈ ts, t.isLeaf = false → t.kind = .error) →
    f ∈ Focus.allOfRow above k start left offset ts → f.kind = .error
  | [], _, _, _, _, _, _, _, _, hf => nomatch hf
  | t :: ts, above, k, start, offset, left, f, h, hkind, hf => by
    obtain ⟨ht, hts⟩ := List.forall_mem_cons.1 hkind
    rcases List.mem_append.1 hf with hf | hf
    · cases t with
      | leaf => cases hf
      | node => exact kind_of_mem_error h.1 (ht rfl) hf
    · exact kind_of_mem_errors h.2 hts hf

end

/-- The last of some tokens is a herald. -/
def Heralds (X : List Token) : Prop := ∃ t, X.getLast? = some t ∧ t.kind ∈ heraldKinds

/-- **What stands before a name and behind it**: it is one of the nodes of a row, and a herald is the last
token before it that stays. -/
def Behind (X : List Token) (f : Focus) : Prop :=
  ∃ Y Z, X = Y ++ (f.tree.standingFrom f.start ++ Z) ∧ Heralds Y

mutual

theorem behind_of_mem : ∀ {t : Tree} {above : List Frame} {start : Nat} {X : List Token} {f : Focus},
    t.Everywhere Announces → t.isStray = false → (t.declares = true → Heralds X) →
    f ∈ Focus.allFrom above start t → f.kind = .name → Behind (X ++ t.standingFrom start) f
  | leaf .., _, _, _, _, _, _, _, hf, _ => nomatch hf
  | node k cs, above, start, X, f, h, hstray, hX, hf, hname => by
    rcases List.mem_cons.1 hf with rfl | hf
    · obtain rfl : k = .name := hname
      exact ⟨X, [], by rw [List.append_nil], hX rfl⟩
    · refine behind_of_mem_row h.2 h.1.announced (fun hbefore => hX ?_) hf hname
      have hk : k ∈ [.nameList, .functionName] := of_decide_eq_true hbefore
      exact decide_eq_true (List.mem_cons_of_mem _ hk)

theorem behind_of_mem_row : ∀ {ts : List Tree} {above : List Frame} {k : Kind} {start offset : Nat}
    {left : List Tree} {X : List Token} {f : Focus} {before : Bool}, EverywhereInList Announces ts →
    Announced before ts → (before = true → Heralds X) →
    f ∈ Focus.allOfRow above k start left offset ts → f.kind = .name →
    Behind (X ++ standingOfRow offset ts) f
  | [], _, _, _, _, _, _, _, _, _, _, _, hf, _ => nomatch hf
  | t :: ts, above, k, start, offset, left, X, f, before, h, hannounced, hX, hf, hname => by
    rw [standingOfRow]
    cases hstray : t.isStray with
    | true =>
      have hts := hannounced.2
      rw [hstray, if_pos rfl] at hts
      rw [if_pos rfl, List.nil_append]
      rcases List.mem_append.1 hf with hf | hf
      · cases t with
        | leaf => cases hf
        | node l ds =>
          have herror := kind_of_mem_error h.1 (of_decide_eq_true hstray) hf
          rw [hname] at herror
          cases herror
      · exact behind_of_mem_row h.2 hts hX hf hname
    | false =>
      have hts := hannounced.2
      rw [hstray, if_neg Bool.false_ne_true] at hts
      rw [if_neg Bool.false_ne_true, ← List.append_assoc]
      rcases List.mem_append.1 hf with hf | hf
      · obtain ⟨Y, Z, hYZ, hY⟩ := behind_of_mem h.1 hstray (fun hd => hX (hannounced.1 hstray hd)) hf hname
        exact ⟨Y, Z ++ standingOfRow (offset + t.size) ts, by simp only [hYZ, List.append_assoc], hY⟩
      · refine behind_of_mem_row h.2 hts (fun hherald => ?_) hf hname
        cases t with
        | leaf l s => exact ⟨⟨l, offset, s⟩, by simp [standingFrom], of_decide_eq_true hherald⟩
        | node => cases hherald

end

end Tree

end LuaTree
