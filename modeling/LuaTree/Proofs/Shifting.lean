import LuaTree.Proofs.Shape
import LuaTree.Proofs.Splitting

/-!
# Proofs/Shifting — a run behind other tokens

Behind some other tokens the tokens of a source have other numbers and other places.  That is all that a run
which begins there can tell: what it reports is the same at places moved by the bytes before it, and the
drafts that it records grow into the same trees (`Bond.shifted`).
-/

namespace LuaTree

open LuaTree.Parser

/-! ## Moving -/

/-- The span, moved by some bytes. -/
def Span.shift (n : Nat) (x : Span) : Span := ⟨n + x.start, n + x.stop, Nat.add_le_add_left x.start_le_stop n⟩

/-- The note, moved by some bytes. -/
def Note.shift (n : Nat) (m : Note) : Note := { m with span := m.span.shift n }

/-- The diagnostic, moved by some bytes with all that it notes. -/
def Diagnostic.shift (n : Nat) (d : Diagnostic) : Diagnostic :=
  { d with span := d.span.shift n, notes := d.notes.map (.shift n) }

section

variable {n : Nat} {d e : Diagnostic}

theorem Token.span_shift (n : Nat) (t : Token) : (t.shift n).span = t.span.shift n := by
  simp [Token.span, Span.ofLength, Span.shift, Nat.add_assoc]

theorem Diagnostic.Alike.eq_shift (h : d.Alike (fun x y => y = x.shift n) e) : e = d.shift n := by
  obtain ⟨problem, span, detail, notes⟩ := d
  obtain ⟨problem', span', detail', notes'⟩ := e
  obtain ⟨hproblem, hspan, hdetail, hnotes⟩ := h
  dsimp only at hproblem hspan hdetail hnotes
  subst hproblem hspan hdetail
  rw [Diagnostic.shift, Diagnostic.mk.injEq]
  refine ⟨rfl, rfl, rfl, ?_⟩
  dsimp only
  rw [← List.forall₂_eq_eq_eq, List.forall₂_map_right_iff]
  refine hnotes.flip.imp fun m' m ⟨hm, hmessage⟩ => ?_
  rw [Note.shift, ← hm, hmessage]

end

/-! ## Outlooks behind other tokens -/

/-- A token with its number, moved by some bytes and some numbers. -/
def Token.moved (n c : Nat) (l : Token × Nat) : Token × Nat := (l.1.shift n, c + l.2)

theorem solidFrom_shift (n c m : Nat) (ts : List Token) :
    solidFrom (c + m) (ts.map (Token.shift n)) = (solidFrom m ts).map (Token.moved n c) := by
  induction ts generalizing m with
  | nil => rfl
  | cons t ts ih =>
    rw [List.map_cons, solidFrom, solidFrom, Token.shift_kind, Nat.add_assoc, ih]
    split <;> rfl

namespace Outlook

variable {n c size limit : Nat} {a : Outlook} {d : Diagnostic} {t : Token} {ls : List (Token × Nat)}

/-- The outlook, moved by some bytes and some numbers. -/
def shift (n c : Nat) (a : Outlook) : Outlook :=
  ⟨a.ahead.map (Token.moved n c), a.diagnostics.map (.shift n), a.lastReported.map (n + ·), a.limitReached⟩

theorem significant_shift : (a.shift n c).significant = a.significant.map (Token.shift n) := by
  rw [significant, significant, shift, List.map_map, List.filter_map, List.filter_map, List.map_map]
  rfl

theorem span_shift : (a.shift n c).span (n + size) = (a.span size).shift n := by
  rw [span, span, significant_shift, List.head?_map]
  cases a.significant.head? with
  | none => rfl
  | some t => exact t.span_shift n

theorem told_shift : (a.shift n c).told (d.shift n) = (a.told d).shift n c := by
  have hlast : (a.lastReported.map (n + ·) == some (n + d.span.start)) = (a.lastReported == some d.span.start) := by
    cases a.lastReported with
    | none => rfl
    | some m => simp
  rw [told, told]
  change (if (a.limitReached || a.lastReported.map (n + ·) == some (n + d.span.start)) = true then _ else _) = _
  rw [hlast]
  split
  · rfl
  · simp [shift, Diagnostic.shift, Span.shift]

/-- The report of a token. -/
theorem told_token_shift (p : Problem) : (a.shift n c).told ⟨p, (t.shift n).span, none, []⟩ =
    (a.told ⟨p, t.span, none, []⟩).shift n c := by
  rw [Token.span_shift]
  exact told_shift (d := ⟨p, t.span, none, []⟩)

theorem passed_shift : (a.shift n c).passed (ls.map (Token.moved n c)) = (a.passed ls).shift n c := by
  induction ls generalizing a with
  | nil => rfl
  | cons l ls ih =>
    rw [List.map_cons, passed, passed]
    change (if l.1.kind = .invalidChar then _ else _) = _
    split
    · rw [← ih]
      exact congrArg (passed · _) (told_token_shift .unexpectedCharacter)
    · rfl

theorem settle_shift : (a.shift n c).settle = a.settle.shift n c := passed_shift

theorem unquoted_shift : (a.shift n c).unquoted (t.shift n) (ls.map (Token.moved n c)) =
    (a.unquoted t ls).shift n c := by
  rw [unquoted, unquoted]
  change (if Token.closesString? t.kind t.text.toList = some false then _ else _) = _
  split
  · exact told_token_shift (a := { a with ahead := ls }) .unfinishedString
  · rfl

theorem advance_shift : (a.shift n c).advance = a.advance.shift n c := by
  have hahead : (a.shift n c).ahead = a.ahead.map (Token.moved n c) := rfl
  rw [advance, advance, hahead]
  cases a.ahead with
  | nil => rfl
  | cons l ls =>
    rw [List.map_cons]
    exact (congrArg settle unquoted_shift).trans settle_shift

theorem bail_shift : (a.shift n c).bail limit (n + size) = (a.bail limit size).shift n c := by
  rw [bail, bail]
  change (if a.limitReached = true then _ else _) = _
  split
  · rfl
  · rw [span_shift]
    simp [shift, Diagnostic.shift, Span.shift, Span.ofLength]
    omega

end Outlook

/-! ## A run behind other tokens -/

theorem trees_unknownNodes_moved (n c : Nat) (ls : List (Token × Nat)) :
    Draft.treesOfList (unknownNodes (ls.map (Token.moved n c))) = Draft.treesOfList (unknownNodes ls) := by
  induction ls with
  | nil => rfl
  | cons l ls ih =>
    rw [List.map_cons, unknownNodes, unknownNodes]
    change Draft.treesOfList (if l.1.kind = .invalidChar then _ else _) = _
    split
    · rw [Draft.treesOfList, Draft.treesOfList, ih]
      rfl
    · rfl

theorem trees_aside_shift (n c : Nat) (a : Outlook) :
    Draft.treesOfList (a.shift n c).aside = Draft.treesOfList a.aside := by
  rw [Outlook.aside, Outlook.aside]
  change Draft.treesOfList (if a.limitReached = true then _ else _) = _
  split
  · rfl
  · have hrow : Draft.treesOfList (Draft.row (a.shift n c).ahead) = Draft.treesOfList (Draft.row a.ahead) := by
      rw [Draft.treesOfList_row, Draft.treesOfList_row, Outlook.shift, List.map_map]
      rfl
    simp only [Draft.treesOfList, Draft.trees, Branch.tree, hrow]

/-- What two runs have read and built, one behind other tokens. -/
structure Outlook.Shifted (n c : Nat) (a₀ b₀ a b : Outlook) (F G : List Draft) : Prop where
  before : b₀.ahead = a₀.ahead.map (Token.moved n c)
  now : b = a.shift n c
  trees : Draft.treesOfList G = Draft.treesOfList F

section

variable {n c size : Nat} {a₀ b₀ a b : Outlook} {F G : List Draft} {x y : Span}

theorem Outlook.Shifted.refl (a : Outlook) : Shifted n c a (a.shift n c) a (a.shift n c) [] [] := ⟨rfl, rfl, rfl⟩

/-- The same tokens were read. -/
theorem Outlook.Shifted.leaves (h : Shifted n c a₀ b₀ a b F G) (ha : a₀.ahead = Draft.leavesOfList F ++ a.ahead)
    (hb : b₀.ahead = Draft.leavesOfList G ++ b.ahead) :
    Draft.leavesOfList G = (Draft.leavesOfList F).map (Token.moved n c) := by
  have hahead : b.ahead = a.ahead.map (Token.moved n c) := by rw [h.now]; rfl
  have hbefore := h.before
  rw [ha, hb, List.map_append, hahead] at hbefore
  exact List.append_cancel_right hbefore

theorem shift_of_spanOf {ls : List (Token × Nat)} (hx : SpanOf a size ls x)
    (hy : SpanOf (a.shift n c) (n + size) (ls.map (Token.moved n c)) y) : y = x.shift n := by
  rcases hx with ⟨l, m, hl, hm, hstart, hstop⟩ | ⟨rfl, rfl⟩
  · rcases hy with ⟨l', m', hl', hm', hstart', hstop'⟩ | ⟨hnil, -⟩
    · rw [List.head?_map, hl] at hl'
      rw [List.getLast?_map, hm] at hm'
      obtain rfl := Option.some.inj hl'
      obtain rfl := Option.some.inj hm'
      obtain ⟨start, stop, hle⟩ := x
      obtain ⟨start', stop', hle'⟩ := y
      dsimp only at hstart hstop hstart' hstop'
      subst hstart hstop hstart' hstop'
      simp [Span.shift, Token.moved, Token.stop, Nat.add_assoc]
    · rw [List.map_eq_nil_iff.1 hnil] at hl
      cases hl
  · rcases hy with ⟨l', -, hl', -⟩ | ⟨-, rfl⟩
    · cases hl'
    · rw [Outlook.span_shift]
      rfl

end

/-- **Other tokens in front do not matter to a run**, but for the places of what it reports. -/
def Parser.Bond.shifted {i j : Input} {n : Nat} (hsettings : i.settings = j.settings) (hsize : j.size = n + i.size)
    (c : Nat) : Bond i j where
  Holds := Outlook.Shifted n c
  Spans x y := y = x.shift n
  settings := hsettings
  now h := h.now ▸ .refl _
  trans h h' := by
    refine ⟨h.before, h'.now, ?_⟩
    rw [Draft.treesOfList_append, Draft.treesOfList_append, h.trees, h'.trees]
  blank_left := ⟨fun h => ⟨h.before, h.now, h.trees⟩, fun h => ⟨h.before, h.now, h.trees⟩⟩
  blank_right := ⟨fun h => ⟨h.before, h.now, h.trees⟩, fun h => ⟨h.before, h.now, h.trees⟩⟩
  wrapping h := ⟨h.before, h.now, h.trees⟩
  close h hd he _ _ := by
    refine ⟨h.before, h.now, ?_⟩
    simp only [Draft.treesOfList, Draft.trees, Draft.tree_close hd, Draft.tree_close he]
    exact congrArg (fun ts => [Tree.node _ ts] ++ []) h.trees
  kinds h := by
    rw [h.now, Outlook.significant_shift, List.map_map]
    rfl
  span h _ _ := by rw [h.now, hsize, Outlook.span_shift]
  spanOf h _ _ _ _ hF hG hx hy := by
    rw [h.leaves hF hG, h.now, hsize] at hy
    exact shift_of_spanOf hx hy
  told h _ _ hd _ _ _ := by
    refine ⟨h.before, ?_, h.trees⟩
    rw [h.now, hd.eq_shift, Outlook.told_shift]
  settle {a b} h _ _ := by
    rw [h.now]
    exact ⟨rfl, Outlook.settle_shift, trees_unknownNodes_moved n c a.ahead⟩
  advance {a b l m ls ms} h _ _ hl hm := by
    rw [h.before, hl, List.map_cons, List.cons.injEq] at hm
    obtain ⟨rfl, rfl⟩ := hm
    refine ⟨h.before, ?_, ?_⟩
    · rw [h.now, Outlook.advance_shift]
    · simp only [Draft.treesOfList, Draft.trees, trees_unknownNodes_moved]
      rfl
  bail {a b} limit h _ _ := by
    rw [h.now, hsize]
    exact ⟨rfl, Outlook.bail_shift, trees_aside_shift n c a⟩

/-! ## Trivia behind and in front of other tokens -/

section Dress

variable {tokens front behind : List Token} {n : Nat}

theorem map_tree_shift (n : Nat) (ts : List Token) : (ts.map (Token.shift n)).map Token.tree = ts.map Token.tree := by
  rw [List.map_map]
  rfl

theorem drop_shift (n c : Nat) : (front ++ tokens.map (Token.shift n)).drop (front.length + c) =
    (tokens.drop c).map (Token.shift n) := by
  rw [← List.drop_drop, List.drop_left, List.map_drop]

theorem triviaFrom_shift (n c : Nat) : triviaFrom (front ++ tokens.map (Token.shift n)) (front.length + c) =
    (triviaFrom tokens c).map (Token.shift n) := by
  rw [triviaFrom, drop_shift, List.takeWhile_map]
  rfl

namespace Tree

mutual

theorem dress_shift : ∀ (t : Tree) (c : Nat), t.dress (front ++ tokens.map (Token.shift n)) (front.length + c) =
    ((t.dress tokens c).1, front.length + (t.dress tokens c).2)
  | leaf .., c => by
    rw [dress, dress, triviaFrom_shift, drop_shift, List.length_map, ← List.map_take, map_tree_shift, Nat.add_assoc]
  | node k cs, c => by
    simp only [dress, triviaFrom_shift, map_tree_shift, List.length_map, Nat.add_assoc, dressList_shift cs]

/-- **Behind other tokens trivia goes where it went.** -/
theorem dressList_shift : ∀ (ts : List Tree) (c : Nat),
    dressList (front ++ tokens.map (Token.shift n)) (front.length + c) ts =
      ((dressList tokens c ts).1, front.length + (dressList tokens c ts).2)
  | [], _ => rfl
  | t :: ts, c => by simp only [dressList, dress_shift t, dressList_shift ts]

end

end Tree

theorem le_length_of_solidAfter {c : Nat} (h : solidAfter tokens c ≠ []) : c ≤ tokens.length := by
  by_contra hlt
  exact h (by rw [solidAfter, List.drop_eq_nil_of_le (by omega)]; rfl)

/-- A token that is no trivia keeps apart what follows. -/
theorem triviaFrom_extend {c : Nat} (h : solidAfter tokens c ≠ []) (behind : List Token) :
    triviaFrom (tokens ++ behind) c = triviaFrom tokens c := by
  obtain ⟨l, R, hl⟩ := List.exists_cons_of_ne_nil h
  obtain ⟨trivia, us, hdrop, htrivia, ht, -⟩ := eq_append_of_solidFrom hl
  have hstops (us : List Token) : (trivia ++ l.1 :: us).takeWhile (·.kind.isTrivia) = trivia := by
    rw [List.takeWhile_append_of_pos htrivia, List.takeWhile_cons_of_neg (by simp [ht]), List.append_nil]
  rw [triviaFrom, triviaFrom, List.drop_append_of_le_length (le_length_of_solidAfter h), hdrop, List.append_assoc,
    List.cons_append, hstops, hstops]

namespace Tree

/-- A leaf takes its token. -/
theorem dress_leaf_extend {l : Token × Nat} {R : List (Token × Nat)} {c : Nat} (h : solidAfter tokens c = l :: R)
    (behind : List Token) (k : Kind) (x : String) :
    (leaf k x).dress (tokens ++ behind) c = (leaf k x).dress tokens c ∧
      solidAfter tokens ((leaf k x).dress tokens c).2 = R := by
  have hne : solidAfter tokens c ≠ [] := h ▸ List.cons_ne_nil l R
  obtain ⟨hk, htake, -, -, hR⟩ := take_of_solidAfter h
  have hn : l.2 + 1 - c = (triviaFrom tokens c).length + 1 := by omega
  have hlength := congrArg List.length htake
  rw [hn, List.length_take, List.length_append, List.length_singleton] at hlength
  constructor
  · rw [dress, dress, triviaFrom_extend hne, List.drop_append_of_le_length (le_length_of_solidAfter hne),
      List.take_append_of_le_length (by omega)]
  · rw [dress, ← Nat.add_assoc, ← hk, hR]

mutual

theorem dress_extend (behind : List Token) : ∀ (t : Tree) (c : Nat) {L R : List (Token × Nat)},
    solidAfter tokens c = L ++ R → L.length = t.leaves.length → R ≠ [] →
    t.dress (tokens ++ behind) c = t.dress tokens c ∧ solidAfter tokens (t.dress tokens c).2 = R
  | leaf k x, c, L, R, h, hL, _ => by
    obtain ⟨l, rfl⟩ := List.length_eq_one_iff.1 (show L.length = 1 from hL)
    exact dress_leaf_extend h behind k x
  | node k cs, c, L, R, h, hL, hR => by
    have htrivia := triviaFrom_extend (h ▸ List.append_ne_nil_of_right_ne_nil L hR) behind
    rw [← solidAfter_triviaFrom] at h
    obtain ⟨hdress, hafter⟩ := dressList_extend behind cs _ h hL hR
    simp only [dress, htrivia, hdress]
    exact ⟨trivial, hafter⟩

/-- **In front of other tokens trivia goes where it went**, while something of one's own is left. -/
theorem dressList_extend (behind : List Token) : ∀ (ts : List Tree) (c : Nat) {L R : List (Token × Nat)},
    solidAfter tokens c = L ++ R → L.length = (leavesOfList ts).length → R ≠ [] →
    dressList (tokens ++ behind) c ts = dressList tokens c ts ∧ solidAfter tokens (dressList tokens c ts).2 = R
  | [], _, L, R, h, hL, _ => by
    obtain rfl := List.length_eq_zero_iff.1 (show L.length = 0 from hL)
    exact ⟨rfl, h⟩
  | t :: ts, c, L, R, h, hL, hR => by
    rw [leavesOfList, List.length_append] at hL
    rw [← List.take_append_drop t.leaves.length L, List.append_assoc] at h
    obtain ⟨hdress, hafter⟩ := dress_extend behind t c h (by rw [List.length_take]; omega)
      (List.append_ne_nil_of_right_ne_nil _ hR)
    obtain ⟨hdressList, hafter'⟩ := dressList_extend behind ts _ hafter (by rw [List.length_drop]; omega) hR
    simp only [dressList, hdress, hdressList]
    exact ⟨trivial, hafter'⟩

end

end Tree

end Dress

end LuaTree
