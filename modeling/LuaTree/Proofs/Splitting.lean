import LuaTree.Proofs.Lexemes
import LuaTree.Proofs.Placing

/-!
# Proofs/Splitting — a source can be cut between its tokens

No rule reaches from a token into what follows it, so none reaches into less of it: the text up to the end
of a token has the tokens that stand there, and what follows has the others (`exists_cut`).  Places come
back by counting bytes, so the tokens of a source are those of its first part and, moved, those of the
second (`lex_append`).
-/

namespace LuaTree

namespace Token

/-- The token, moved by some bytes. -/
def shift (n : Nat) (t : Token) : Token := { t with start := n + t.start }

@[simp] theorem shift_kind (n : Nat) (t : Token) : (t.shift n).kind = t.kind := rfl

@[simp] theorem shift_start (n : Nat) (t : Token) : (t.shift n).start = n + t.start := rfl

@[simp] theorem shift_text (n : Nat) (t : Token) : (t.shift n).text = t.text := rfl

theorem map_shift_placeFrom (n m : Nat) (ls : List (Kind × String)) :
    (placeFrom m ls).map (shift n) = placeFrom (n + m) ls := by
  induction ls generalizing m with
  | nil => rfl
  | cons l ls ih => exact congrArg (_ :: ·) ((ih _).trans (by rw [Nat.add_assoc]))

variable {cs as bs : List Char} {l : Kind × String} {L R : List (Kind × String)}

/-! ## Cutting a text -/

/-- **Between two of its lexemes a text can be cut**: both parts keep theirs. -/
theorem exists_cut (h : lexemes cs = L ++ R) : ∃ as bs, cs = as ++ bs ∧ lexemes as = L ∧ lexemes bs = R := by
  induction L generalizing cs with
  | nil => exact ⟨[], cs, rfl, rfl, h⟩
  | cons l L ih =>
    obtain ⟨u, rfl, hw, hhead, hu⟩ := exists_of_lexemes_cons h
    obtain ⟨as, bs, rfl, has, hbs⟩ := ih hu
    refine ⟨l.2.toList ++ as, bs, (List.append_assoc ..).symm, ?_, hbs⟩
    have hstops : Stops l.2.toList as := fun r hr y hy =>
      stops_of_head hhead r hr y (hy.trans (List.prefix_append as bs))
    have hresumes : Resumes l.1 (as ++ bs) as := by
      cases as with
      | nil => exact .inl rfl
      | cons c as => exact .inr (.inl ⟨c, as ++ bs, as, rfl, rfl⟩)
    rw [lexemes_append hw (head_append hhead hstops hresumes), has, String.ofList_toList]

/-- The text of a lexeme has no other one. -/
theorem lexemes_of_mem (h : lexemes cs = L ++ l :: R) : lexemes l.2.toList = [l] := by
  obtain ⟨as, bs, rfl, -, hbs⟩ := exists_cut h
  obtain ⟨cs, ds, rfl, hcs, -⟩ := exists_cut (L := [l]) hbs
  have htext := textOfLeaves_lexemes hcs
  rw [Tree.textOfLeaves, Tree.textOfLeaves, String.append_empty] at htext
  rw [htext, hcs]

/-! ## Cutting a source -/

/-- The tokens of a source are its lexemes, placed. -/
theorem lex_eq_placeFrom (source : String) : lex source = placeFrom 0 (lexemes source.toList) :=
  (tiles_lex source).adjacent.placeFrom.symm

/-- Where the lexemes of two texts are those of both together, so are the tokens. -/
theorem lex_append (h : lexemes (as ++ bs) = lexemes as ++ lexemes bs) :
    lex (String.ofList (as ++ bs)) =
      lex (String.ofList as) ++ (lex (String.ofList bs)).map (shift (byteLength as)) := by
  have htext := textOfLeaves_lexemes (rfl : lexemes as = lexemes as)
  have hsize : (Tree.textOfLeaves (lexemes as)).utf8ByteSize = byteLength as := by
    rw [← String.ofList_toList (s := Tree.textOfLeaves (lexemes as)), htext, utf8ByteSize_ofList]
  simp only [lex_eq_placeFrom, String.toList_ofList, h]
  rw [Tree.placeFrom_append, hsize, map_shift_placeFrom, Nat.zero_add, Nat.add_zero]

end Token

variable {source : String} {t : Token} {ts us : List Token} {p : Nat}

/-- **Wherever the tokens of a source are cut in two, the source can be cut**: the second part starts behind
the first one, and with it the tokens that start there. -/
theorem exists_parts_of_lex (h : lex source = ts ++ us) : ∃ before after,
    takeBytes? source.toList (Token.sizeOfList ts) = some before ∧
    dropBytes? source.toList (Token.sizeOfList ts) = some after ∧
    lex (String.ofList before) = ts ∧
    (lex (String.ofList after)).map (Token.shift (Token.sizeOfList ts)) = us := by
  have hlexemes : Token.lexemes source.toList = ts.map Token.leaf ++ us.map Token.leaf := by
    rw [← List.map_append, ← h]
    rfl
  obtain ⟨before, after, hsource, hbefore, hafter⟩ := Token.exists_cut hlexemes
  have happend : lex source = lex (String.ofList before) ++
      (lex (String.ofList after)).map (Token.shift (byteLength before)) := by
    rw [← Token.lex_append (by rw [← hsource, hlexemes, hbefore, hafter]), ← hsource, String.ofList_toList]
  have hlength : (lex (String.ofList before)).length = ts.length := by
    have hlength := congrArg List.length hbefore
    rwa [Token.lexemes, List.length_map, List.length_map, ← String.toList_ofList (l := before)] at hlength
  obtain ⟨hts, hus⟩ := List.append_inj (happend.symm.trans h) hlength
  have hsize : Token.sizeOfList ts = byteLength before := by
    rw [← hts, Token.sizeOfList, (tiles_lex _).text, Token.utf8ByteSize_ofList]
  rw [hsize, hsource]
  exact ⟨before, after, takeBytes?_append before after, dropBytes?_append before after, hts, hus⟩

/-- The tokens behind others are those that start there or later. -/
theorem filter_of_lex (h : lex source = ts ++ us) :
    (lex source).filter (Token.sizeOfList ts ≤ ·.start) = us := by
  have htiles := tiles_lex source
  have hadjacent := htiles.adjacent
  rw [h] at hadjacent ⊢
  have hbefore : ts.filter (Token.sizeOfList ts ≤ ·.start) = [] := by
    refine List.filter_eq_nil_iff.2 fun t ht hle => ?_
    have hstop := (hadjacent.left.bounds ht).2
    have hfilled : t.text.utf8ByteSize ≠ 0 :=
      mt String.utf8ByteSize_eq_zero_iff.1 (htiles.filled t (h ▸ List.mem_append_left us ht))
    have hle' := of_decide_eq_true hle
    rw [Token.stop] at hstop
    omega
  have hbehind : us.filter (Token.sizeOfList ts ≤ ·.start) = us := by
    refine List.filter_eq_self.2 fun t ht => decide_eq_true ?_
    have hstart := (hadjacent.append.bounds ht).1
    rwa [Nat.zero_add] at hstart
  rw [List.filter_append, hbefore, hbehind, List.nil_append]

/-- **The tokens of a source split at each of their ends**: cut at a place where a token starts or ends, the
first part has the tokens up to there and the second one, moved, those from there on; and the text of a
token alone has this token. -/
theorem lex_splits (ht : t ∈ lex source) (hp : p = t.start ∨ p = t.stop) :
    lex t.text = [⟨t.kind, 0, t.text⟩] ∧ ∃ before after,
      takeBytes? source.toList p = some before ∧ dropBytes? source.toList p = some after ∧
      lex source = lex (String.ofList before) ++ (lex (String.ofList after)).map (Token.shift p) ∧
      (lex (String.ofList after)).map (Token.shift p) = (lex source).filter (p ≤ ·.start) := by
  obtain ⟨ts, us, h⟩ := List.append_of_mem ht
  have hstart : t.start = Token.sizeOfList ts := by
    have hadjacent := (tiles_lex source).adjacent
    rw [h] at hadjacent
    rw [hadjacent.append.1, Nat.zero_add]
  have hstop : t.stop = Token.sizeOfList (ts ++ [t]) := by
    rw [Token.sizeOfList_append, Token.sizeOfList_cons, Token.stop, hstart]
    rfl
  obtain ⟨ts', us', h', rfl⟩ : ∃ ts' us', lex source = ts' ++ us' ∧ p = Token.sizeOfList ts' := by
    rcases hp with rfl | rfl
    · exact ⟨ts, t :: us, h, hstart⟩
    · exact ⟨ts ++ [t], us, by rw [h, List.append_assoc, List.singleton_append], hstop⟩
  obtain ⟨before, after, hbefore, hafter, hts, hus⟩ := exists_parts_of_lex h'
  refine ⟨?_, before, after, hbefore, hafter, by rw [hts, hus, h'], by rw [hus, filter_of_lex h']⟩
  have hlexemes : Token.lexemes source.toList = ts.map Token.leaf ++ t.leaf :: us.map Token.leaf := by
    rw [← List.map_cons, ← List.map_append, ← h]
    rfl
  have halone : Token.lexemes t.text.toList = [t.leaf] := Token.lexemes_of_mem hlexemes
  rw [Token.lex_eq_placeFrom, halone]
  rfl

/-- In front of the equals signs of a bracket that does not open. -/
theorem lex_splits_of_bracket : ⟨.equalsEquals, 3, "=="⟩ ∈ lex "x=[==y" ∧
    lex "x=[==y" = lex "x=[" ++ (lex "==y").map (Token.shift 3) := by
  have hmem : ⟨.equalsEquals, 3, "=="⟩ ∈ lex "x=[==y" := by decide +kernel
  obtain ⟨-, before, after, hbefore, hafter, hlex, -⟩ := lex_splits hmem (.inl rfl)
  obtain rfl : ['x', '=', '['] = before := Option.some.inj hbefore
  obtain rfl : ['=', '=', 'y'] = after := Option.some.inj hafter
  exact ⟨hmem, hlex⟩

end LuaTree
