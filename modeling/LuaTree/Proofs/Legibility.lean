import LuaTree.Command.Output
import LuaTree.Proofs.Parse
import LuaTree.Proofs.Unquoting

/-!
# Proofs/Legibility — listings lose nothing

A line of a listing shows how deep a row is, its kind, and the text of a leaf, and it is the only line that does
(`Row.read_line`, `cut_lines`).  The rows stand in preorder: by the paths that lead to them, in the order of the
dictionary (`Tree.pairwise_tour`).  So the tree can be read back, from the last row to the first: a node takes the
deeper ones just behind it as its children (`Tree.gather_rows`).
-/

namespace LuaTree

/-! ## What a line shows -/

/-- What a line shows of a row whether or not spans are asked for. -/
structure Row.Sight where
  depth : Nat
  kind : Kind
  text : Option String

namespace Row

def sight (r : Row) : Sight := ⟨r.depth, r.kind, r.text⟩

def Sight.isShown (trivia : Bool) (r : Sight) : Bool := trivia || r.text.isNone || !r.kind.isTrivia

/-- Reads a line: two blanks for each level, the label, and the text if there is one. -/
def read? (line : List Char) : Option Sight :=
  let behind := line.dropWhile (· = ' ')
  (Kind.ofLabel? (String.ofList (behind.takeWhile Char.isAlpha))).map fun k =>
    ⟨(line.takeWhile (· = ' ')).length / 2, k, (Quoted.read? behind).map String.ofList⟩

theorem ofLabel_label : ∀ k ∈ Kind.all, Kind.ofLabel? k.label = some k := by decide +kernel

theorem isAlpha_label (k : Kind) : k.label.toList ≠ [] ∧ ∀ c ∈ k.label.toList, c.isAlpha = true := by
  have hall : ∀ k ∈ Kind.all, k.label.toList ≠ [] ∧ k.label.toList.all Char.isAlpha = true := by decide +kernel
  exact (hall k (Kind.mem_all k)).imp_right List.all_eq_true.1

theorem ne_of_isAlpha {c d : Char} (hc : c.isAlpha = true) (hd : d.isAlpha = false) : c ≠ d :=
  fun h => by simp [h, hd] at hc

theorem isDigit_repr {n : Nat} {c : Char} (h : c ∈ n.repr.toList) : c.isDigit = true := by
  rw [Nat.repr_eq_ofList_toDigits, String.toList_ofList] at h
  exact Nat.isDigit_of_mem_toDigits (by decide) (by decide) h

/-- A span is written with nothing that is used for the text or the line. -/
theorem mem_spanColumn {spans : Bool} {s : Span} {c : Char} (h : c ∈ (spanColumn spans s).toList) :
    c ≠ '\x22' ∧ c ≠ '\n' := by
  have hdigit : c.isDigit = true → c ≠ '\x22' ∧ c ≠ '\n' := fun hc =>
    ⟨fun h => by rw [h] at hc; exact absurd hc (by decide), fun h => by rw [h] at hc; exact absurd hc (by decide)⟩
  have hmarks : ∀ s ∈ [" [", "..", "]"], s.toList.all (fun c => c ≠ '\x22' && c ≠ '\n') = true := by decide
  have hmark {s : String} (hs : s ∈ [" [", "..", "]"]) (hc : c ∈ s.toList) : c ≠ '\x22' ∧ c ≠ '\n' := by
    simpa using List.all_eq_true.1 (hmarks s hs) c hc
  cases spans with
  | false => simp [spanColumn] at h
  | true =>
    simp only [spanColumn, if_true, Span.describe, String.toList_append, List.mem_append] at h
    rcases h with (h | (h | h) | h) | h
    · exact hmark (by simp) h
    · exact hdigit (isDigit_repr h)
    · exact hmark (by simp) h
    · exact hdigit (isDigit_repr h)
    · exact hmark (by simp) h

/-- A span does not go on with the label. -/
theorem takeWhile_spanColumn (spans : Bool) (s : Span) {cs : List Char} (h : cs.takeWhile Char.isAlpha = []) :
    ((spanColumn spans s).toList ++ cs).takeWhile Char.isAlpha = [] := by
  cases spans with
  | false => simpa [spanColumn] using h
  | true => simp [spanColumn]

/-- What stands behind the span. -/
def tail (r : Row) : List Char :=
  match r.text with
  | some s => ' ' :: ((Quoted.write s).toList ++ ['\n'])
  | none => ['\n']

theorem toList_line (spans : Bool) (r : Row) : (r.line spans).toList =
    List.replicate (2 * r.depth) ' ' ++ (r.kind.label.toList ++ ((spanColumn spans r.span).toList ++ r.tail)) := by
  rw [line, tail]
  cases r.text <;> simp

theorem takeWhile_tail (r : Row) : r.tail.takeWhile Char.isAlpha = [] := by
  rw [tail]
  split <;> rfl

/-- The text is read behind anything without a quote. -/
theorem read_tail (r : Row) {as : List Char} (has : '\x22' ∉ as) :
    (Quoted.read? (as ++ r.tail)).map String.ofList = r.text := by
  rw [tail]
  cases r.text with
  | some s =>
    have hblank : '\x22' ∉ as ++ [' '] := by simp [has]
    have hread := Quoted.read_write hblank s ['\n']
    rw [List.append_assoc, List.append_assoc] at hread
    rw [show ∀ l : List Char, as ++ ' ' :: l = as ++ ([' '] ++ l) from fun _ => rfl, hread, Option.map_some,
      String.ofList_toList]
  | none => rw [Quoted.read_none (by simp [has]), Option.map_none]

/-- **The indentation is two blanks for each level.** -/
theorem takeWhile_line (spans : Bool) (r : Row) :
    (r.line spans).toList.takeWhile (· = ' ') = List.replicate (2 * r.depth) ' ' := by
  obtain ⟨hne, halpha⟩ := isAlpha_label r.kind
  obtain ⟨c, cs, hlabel⟩ := List.exists_cons_of_ne_nil hne
  have hc : c ≠ ' ' := ne_of_isAlpha (halpha c (hlabel ▸ List.mem_cons_self)) (by decide)
  rw [toList_line, List.takeWhile_append_of_pos (by simp), hlabel, List.cons_append,
    List.takeWhile_cons_of_neg (by simpa using hc), List.append_nil]

theorem dropWhile_line (spans : Bool) (r : Row) : (r.line spans).toList.dropWhile (· = ' ') =
    r.kind.label.toList ++ ((spanColumn spans r.span).toList ++ r.tail) := by
  have hsplit := @List.takeWhile_append_dropWhile _ (· = ' ') (r.line spans).toList
  rw [takeWhile_line] at hsplit
  exact List.append_cancel_left (hsplit.trans (toList_line spans r))

/-- **A line can be read back.** -/
theorem read_line (spans : Bool) (r : Row) : read? (r.line spans).toList = some r.sight := by
  have hlabel : ∀ c ∈ r.kind.label.toList, c.isAlpha = true := (isAlpha_label r.kind).2
  have hquote : '\x22' ∉ r.kind.label.toList ++ (spanColumn spans r.span).toList := fun h =>
    (List.mem_append.1 h).elim (fun h => ne_of_isAlpha (hlabel _ h) (by decide) rfl)
      fun h => (mem_spanColumn h).1 rfl
  have htext := r.read_tail hquote
  rw [List.append_assoc] at htext
  rw [read?, takeWhile_line, dropWhile_line, List.takeWhile_append_of_pos hlabel,
    takeWhile_spanColumn _ _ r.takeWhile_tail, List.append_nil, String.ofList_toList,
    ofLabel_label _ (Kind.mem_all _), Option.map_some, htext, List.length_replicate,
    Nat.mul_div_cancel_left _ (by decide)]
  rfl

/-- A line has one line feed, at its end. -/
theorem line_ends (spans : Bool) (r : Row) : ∃ l, '\n' ∉ l ∧ (r.line spans).toList = l ++ ['\n'] := by
  have hlabel : '\n' ∉ r.kind.label.toList := fun h =>
    ne_of_isAlpha ((isAlpha_label r.kind).2 _ h) (by decide) rfl
  have hspan : '\n' ∉ (spanColumn spans r.span).toList := fun h => (mem_spanColumn h).2 rfl
  obtain ⟨t, ht, htail⟩ : ∃ t, '\n' ∉ t ∧ r.tail = t ++ ['\n'] := by
    rw [tail]
    cases r.text with
    | some s => exact ⟨' ' :: (Quoted.write s).toList, by simp [Quoted.lineFeed_notMem_write], by simp⟩
    | none => exact ⟨[], by simp, rfl⟩
  refine ⟨List.replicate (2 * r.depth) ' ' ++ (r.kind.label.toList ++ ((spanColumn spans r.span).toList ++ t)), ?_, ?_⟩
  · simp [hlabel, hspan, ht]
  · simp [toList_line, htail]

end Row

/-! ## Lines -/

theorem Line.cut_append {l : List Char} (h : '\n' ∉ l) (cs : List Char) :
    Line.cut (l ++ '\n' :: cs) = (l ++ ['\n']) :: Line.cut cs := by
  induction l with
  | nil => simp [Line.cut]
  | cons c l ih =>
    obtain ⟨hc, hl⟩ := not_or.1 (mt List.mem_cons.2 h)
    rw [List.cons_append, Line.cut, if_neg (Ne.symm hc), ih hl]
    rfl

/-- **Each row has a line of its own**, and there are no other lines. -/
theorem cut_lines (spans : Bool) (rs : List Row) :
    Line.cut (String.join (rs.map (Row.line spans))).toList = rs.map fun r => (r.line spans).toList := by
  induction rs with
  | nil => rfl
  | cons r rs ih =>
    obtain ⟨l, hl, hline⟩ := r.line_ends spans
    rw [List.map_cons, String.join_cons, String.toList_append, hline, List.append_assoc, List.singleton_append,
      Line.cut_append hl, ih, ← hline]
    rfl

/-- The rows of a listing, read line by line. -/
def readRows (dump : String) : List (Option Row.Sight) := (Line.cut dump.toList).map Row.read?

theorem readRows_lines (spans : Bool) (rs : List Row) :
    readRows (String.join (rs.map (Row.line spans))) = rs.map fun r => some r.sight := by
  rw [readRows, cut_lines, List.map_map]
  exact List.map_congr_left fun r _ => by rw [Function.comp_apply, Row.read_line]

/-! ## The parts of a tree in preorder -/

namespace Tree

/-- The text of a leaf. -/
def ownText? : Tree → Option String
  | leaf _ s => some s
  | node .. => none

/-- The part that a path leads to, which names a child at each step. -/
def at? : List Nat → Tree → Option Tree
  | [], t => some t
  | _ :: _, leaf .. => none
  | n :: path, node _ cs => cs[n]?.bind (at? path)

mutual

/-- The nodes and leaves in preorder, each with the path that leads to it. -/
def tour : Tree → List (List Nat × Tree)
  | leaf k s => [([], leaf k s)]
  | node k cs => ([], node k cs) :: tourOfList 0 cs

/-- The parts of the children from the `n`-th on. -/
def tourOfList (n : Nat) : List Tree → List (List Nat × Tree)
  | [] => []
  | t :: ts => t.tour.map (fun x => (n :: x.1, x.2)) ++ tourOfList (n + 1) ts

end

mutual

/-- **The parts are what paths lead to.** -/
theorem mem_tour : ∀ {t : Tree} {path : List Nat} {u : Tree}, (path, u) ∈ t.tour ↔ t.at? path = some u
  | leaf k s, [], u => by simp [tour, at?, eq_comm]
  | leaf k s, n :: path, u => by simp [tour, at?]
  | node k cs, [], u => by
    have hpath : ∀ x ∈ tourOfList 0 cs, x.1 ≠ [] := fun x hx h => by
      obtain ⟨m, q, hq, -⟩ := mem_tourOfList.1 hx
      exact List.cons_ne_nil _ _ (hq.symm.trans h)
    have hmem : ([], u) ∉ tourOfList 0 cs := fun h => hpath _ h rfl
    simp [tour, at?, hmem, eq_comm]
  | node k cs, n :: path, u => by
    rw [tour, List.mem_cons, mem_tourOfList, at?, Option.bind_eq_some_iff]
    constructor
    · rintro (h | ⟨m, q, hq, t, ht, hu⟩)
      · cases h
      · obtain ⟨rfl, rfl⟩ := List.cons.inj hq
        exact ⟨t, by simpa using ht, hu⟩
    · rintro ⟨t, ht, hu⟩
      exact .inr ⟨n, path, by simp, t, ht, hu⟩

theorem mem_tourOfList : ∀ {ts : List Tree} {n : Nat} {x : List Nat × Tree}, x ∈ tourOfList n ts ↔
    ∃ m path, x.1 = (n + m) :: path ∧ ∃ t, ts[m]? = some t ∧ t.at? path = some x.2
  | [], n, x => by simp [tourOfList]
  | t :: ts, n, x => by
    rw [tourOfList, List.mem_append, List.mem_map, mem_tourOfList]
    constructor
    · rintro (⟨y, hy, rfl⟩ | ⟨m, path, hpath, u, hu, hx⟩)
      · exact ⟨0, y.1, rfl, t, rfl, mem_tour.1 hy⟩
      · exact ⟨m + 1, path, by rw [hpath]; congr 1; omega, u, hu, hx⟩
    · rintro ⟨_ | m, path, hpath, u, hu, hx⟩
      · obtain rfl := Option.some.inj hu
        exact .inl ⟨(path, x.2), mem_tour.2 hx, Prod.ext hpath.symm rfl⟩
      · exact .inr ⟨m, path, by rw [hpath]; congr 1; omega, u, hu, hx⟩

end

mutual

/-- **The paths stand in the order of the dictionary**: what encloses comes before what it encloses, and what is on
the left before what is on the right. -/
theorem pairwise_tour : ∀ t : Tree, t.tour.Pairwise fun x y => x.1 < y.1
  | leaf .. => List.pairwise_singleton ..
  | node k cs => by
    refine List.pairwise_cons.2 ⟨fun x hx => ?_, pairwise_tourOfList 0 cs⟩
    obtain ⟨m, path, hpath, -⟩ := mem_tourOfList.1 hx
    rw [hpath]
    exact List.nil_lt_cons ..

theorem pairwise_tourOfList : ∀ (n : Nat) (ts : List Tree), (tourOfList n ts).Pairwise fun x y => x.1 < y.1
  | _, [] => .nil
  | n, t :: ts => by
    refine List.pairwise_append.2 ⟨?_, pairwise_tourOfList (n + 1) ts, ?_⟩
    · exact List.pairwise_map.2 ((pairwise_tour t).imp fun h => List.cons_lt_cons_iff.2 (.inr ⟨rfl, h⟩))
    · intro x hx y hy
      obtain ⟨z, -, rfl⟩ := List.mem_map.1 hx
      obtain ⟨m, path, hpath, -⟩ := mem_tourOfList.1 hy
      rw [hpath]
      exact List.cons_lt_cons_iff.2 (.inl (by omega))

end

/-- The row of a part. -/
def sightAt (depth : Nat) (x : List Nat × Tree) : Row.Sight := ⟨depth + x.1.length, x.2.kind, x.2.ownText?⟩

mutual

/-- **The rows of a tree are those of its parts**, at the depth of their paths. -/
theorem sight_rowsFrom : ∀ (depth start : Nat) (t : Tree),
    (rowsFrom depth start t).map Row.sight = t.tour.map (sightAt depth)
  | _, _, leaf .. => rfl
  | depth, start, node k cs => by
    rw [rowsFrom, List.map_cons, sight_rowsOfList depth start 0 cs, tour, List.map_cons]
    rfl

theorem sight_rowsOfList : ∀ (depth start n : Nat) (ts : List Tree),
    (rowsOfList (depth + 1) start ts).map Row.sight = (tourOfList n ts).map (sightAt depth)
  | _, _, _, [] => rfl
  | depth, start, n, t :: ts => by
    rw [rowsOfList, List.map_append, sight_rowsFrom (depth + 1) start t,
      sight_rowsOfList depth (start + t.size) (n + 1) ts, tourOfList, List.map_append, List.map_map]
    refine congrArg (· ++ _) (List.map_congr_left fun x _ => ?_)
    simp only [sightAt, Function.comp_apply, List.length_cons, Nat.add_assoc, Nat.add_comm 1]

end

/-! ## Reading a tree back -/

/-- The tree as a listing shows it. -/
def shown (trivia : Bool) (t : Tree) : Tree := if trivia then t else t.withoutTrivia

def shownInList (trivia : Bool) (ts : List Tree) : List Tree := if trivia then ts else withoutTriviaInList ts

section Shown

variable {trivia : Bool}

@[simp] theorem shownInList_nil : shownInList trivia [] = [] := by cases trivia <;> rfl

theorem shownInList_cons (t : Tree) (ts : List Tree) :
    shownInList trivia (t :: ts) = shownInList trivia [t] ++ shownInList trivia ts := by
  cases trivia with
  | false => exact withoutTriviaInList_append [t] ts
  | true => rfl

theorem shownInList_node (k : Kind) (cs : List Tree) :
    shownInList trivia [node k cs] = [node k (shownInList trivia cs)] := by cases trivia <;> rfl

theorem shownInList_leaf (k : Kind) (s : String) :
    shownInList trivia [leaf k s] = if trivia || !k.isTrivia then [leaf k s] else [] := by
  cases trivia with
  | false => cases h : k.isTrivia <;> simp [shownInList, withoutTriviaInList, isTrivia, withoutTrivia, h]
  | true => rfl

end Shown

/-- Puts a row in front of the trees behind it: a node takes the deeper ones that come first as its children. -/
def gather (r : Row.Sight) (ts : List (Nat × Tree)) : List (Nat × Tree) :=
  match r.text with
  | some s => (r.depth, leaf r.kind s) :: ts
  | none =>
    (r.depth, node r.kind ((ts.takeWhile (r.depth < ·.1)).map Prod.snd)) :: ts.dropWhile (r.depth < ·.1)

/-- The tree of some rows, built from the last row to the first. -/
def ofSights? (rs : List Row.Sight) : Option Tree :=
  match rs.foldr gather [] with
  | [x] => some x.2
  | _ => none

/-- **Reads a listing.** -/
def read? (dump : String) : Option Tree := ((readRows dump).mapM id).bind ofSights?

theorem gather_node {depth : Nat} {k : Kind} {cs : List Tree} {us : List (Nat × Tree)}
    (h : ∀ u ∈ us.head?, u.1 ≤ depth) :
    gather ⟨depth, k, none⟩ (cs.map (depth + 1, ·) ++ us) = (depth, node k cs) :: us := by
  have hdeep : ∀ x ∈ cs.map (depth + 1, ·), decide (depth < x.1) = true := fun x hx => by
    obtain ⟨t, -, rfl⟩ := List.mem_map.1 hx
    simp
  have hrest : us.takeWhile (depth < ·.1) = [] ∧ us.dropWhile (depth < ·.1) = us := by
    cases us with
    | nil => exact ⟨rfl, rfl⟩
    | cons u us =>
      have hu : ¬ depth < u.1 := Nat.not_lt.2 (h u rfl)
      exact ⟨List.takeWhile_cons_of_neg (by simpa using hu), List.dropWhile_cons_of_neg (by simpa using hu)⟩
  simp only [gather, List.takeWhile_append_of_pos hdeep, List.dropWhile_append_of_pos hdeep, hrest.1, hrest.2,
    List.append_nil, List.map_map]
  exact congrArg (fun cs => (depth, node k cs) :: us) (List.map_id' cs)

/-- Trees at one depth, and before them the rows of one more. -/
theorem head_shown {depth : Nat} {ts : List Tree} {us : List (Nat × Tree)}
    (h : ∀ u ∈ us.head?, u.1 ≤ depth) : ∀ u ∈ (ts.map (depth, ·) ++ us).head?, u.1 ≤ depth := by
  cases ts with
  | nil => exact h
  | cons t ts =>
    rintro u ⟨⟩
    exact Nat.le_refl _

mutual

/-- **The rows that are shown gather to the tree as it is shown.** -/
theorem gather_rows (trivia : Bool) : ∀ (depth start : Nat) (t : Tree) {us : List (Nat × Tree)},
    (∀ u ∈ us.head?, u.1 ≤ depth) →
      (((rowsFrom depth start t).filter (Row.isShown trivia)).map Row.sight).foldr gather us =
        (shownInList trivia [t]).map (depth, ·) ++ us
  | depth, start, leaf k s, us, _ => by
    rw [rowsFrom, shownInList_leaf, List.filter_singleton]
    cases h : trivia || !k.isTrivia <;> simp [Row.isShown, Row.sight, gather, h]
  | depth, start, node k cs, us, hus => by
    have hrow : Row.isShown trivia ⟨depth, k, Span.ofLength start (sizeOfList cs), none⟩ = true := by
      simp [Row.isShown]
    rw [rowsFrom, List.filter_cons_of_pos hrow, List.map_cons, List.foldr_cons,
      gather_rowsOfList trivia (depth + 1) start cs (fun u hu => Nat.le_succ_of_le (hus u hu)), shownInList_node]
    exact gather_node hus

theorem gather_rowsOfList (trivia : Bool) : ∀ (depth start : Nat) (ts : List Tree) {us : List (Nat × Tree)},
    (∀ u ∈ us.head?, u.1 ≤ depth) →
      (((rowsOfList depth start ts).filter (Row.isShown trivia)).map Row.sight).foldr gather us =
        (shownInList trivia ts).map (depth, ·) ++ us
  | _, _, [], _, _ => by simp [rowsOfList]
  | depth, start, t :: ts, us, hus => by
    rw [rowsOfList, List.filter_append, List.map_append, List.foldr_append,
      gather_rowsOfList trivia depth (start + t.size) ts hus,
      gather_rows trivia depth start t (head_shown hus), shownInList_cons t ts, List.map_append,
      List.append_assoc]

end

/-- **A listing can be read back**: the tree with its trivia, or without it. -/
theorem read_listing (trivia spans : Bool) (k : Kind) (cs : List Tree) :
    read? ((node k cs).listing trivia spans) = some ((node k cs).shown trivia) := by
  have hnone : ∀ u ∈ ([] : List (Nat × Tree)).head?, u.1 ≤ 0 := nofun
  have hrows := gather_rows trivia 0 0 (node k cs) hnone
  have hroot : (node k cs).shown trivia = node k (shownInList trivia cs) := by cases trivia <;> rfl
  rw [shownInList_node] at hrows
  rw [read?, listing, readRows_lines, hroot]
  have hall : ∀ rs : List Row, (rs.map fun r => some r.sight).mapM id = some (rs.map Row.sight) := fun rs => by
    induction rs with
    | nil => rfl
    | cons r rs ih => simp [ih]
  rw [hall, Option.bind_some, ofSights?, rows, hrows]
  rfl

/-- **What a listing tells of a tree**: one line for each part that is shown, in preorder and indented by its depth,
and from all the lines the tree itself. -/
structure Legible (trivia : Bool) (t : Tree) (dump : String) : Prop where
  lines : ∃ parts : List (List Nat × Tree), parts.Pairwise (fun x y => x.1 < y.1) ∧
    (∀ path u, (path, u) ∈ parts ↔ t.at? path = some u ∧ (trivia || !u.isTrivia)) ∧
    List.Forall₂ (fun line x => line.takeWhile (· = ' ') = List.replicate (2 * x.1.length) ' ' ∧
      Row.read? line = some ⟨x.1.length, x.2.kind, x.2.ownText?⟩) (Line.cut dump.toList) parts
  whole : read? dump = some (t.shown trivia)

/-- The rows that are shown are those of the parts that are. -/
theorem sight_shown (trivia : Bool) (t : Tree) : (t.rows.filter (Row.isShown trivia)).map Row.sight =
    (t.tour.filter fun x => trivia || !x.2.isTrivia).map (sightAt 0) := by
  have hrow : Row.isShown trivia = Row.Sight.isShown trivia ∘ Row.sight := rfl
  have hpart : (fun x : List Nat × Tree => trivia || !x.2.isTrivia) = Row.Sight.isShown trivia ∘ sightAt 0 := by
    funext ⟨path, u⟩
    cases u <;> simp [Row.Sight.isShown, sightAt, ownText?, isTrivia, Tree.kind]
  rw [hrow, hpart, ← List.filter_map, ← List.filter_map, rows, sight_rowsFrom]

theorem legible_listing (trivia spans : Bool) (k : Kind) (cs : List Tree) :
    (node k cs).Legible trivia ((node k cs).listing trivia spans) := by
  refine ⟨⟨(node k cs).tour.filter fun x => trivia || !x.2.isTrivia, (pairwise_tour _).filter _, fun path u => ?_,
    ?_⟩, read_listing trivia spans k cs⟩
  · rw [List.mem_filter, mem_tour]
  · have hrows := sight_shown trivia (node k cs)
    rw [← List.forall₂_eq_eq_eq, List.forall₂_map_left_iff, List.forall₂_map_right_iff] at hrows
    rw [listing, cut_lines, List.forall₂_map_left_iff]
    refine hrows.imp fun r x hrx => ?_
    have hdepth : r.depth = x.1.length := (congrArg Row.Sight.depth hrx).trans (Nat.zero_add _)
    rw [Row.takeWhile_line, Row.read_line, hrx, sightAt, Nat.zero_add, hdepth]
    exact ⟨rfl, rfl⟩

end Tree

/-! ## The listings of a source -/

/-- The text of a source, from the rows that list its tokens. -/
def textOfSights (rs : List (Option Row.Sight)) : String :=
  String.join (rs.map fun r => (r.bind Row.Sight.text).getD "")

/-- **The tokens of a source are read back from their listing.** -/
theorem readRows_tokensText (spans : Bool) (source : String) :
    readRows (tokensText spans source) = (lex source).map fun t => some ⟨0, t.kind, some t.text⟩ := by
  have hlist : tokensText spans source = String.join (((lex source).map Token.row).map (Row.line spans)) := by
    rw [tokensText, List.map_map]
    rfl
  rw [hlist, readRows_lines, List.map_map]
  rfl

theorem textOfSights_tokensText (spans : Bool) (source : String) :
    textOfSights (readRows (tokensText spans source)) = source := by
  have hjoin : ∀ ts : List Token, String.join (ts.map Token.text) = Token.textOfList ts := fun ts => by
    induction ts with
    | nil => rfl
    | cons t ts ih => rw [List.map_cons, String.join_cons, ih, Token.textOfList]
  rw [readRows_tokensText, textOfSights, List.map_map]
  exact (hjoin (lex source)).trans (tiles_lex source).text

/-- The tree of a source is a node over its text. -/
theorem node_of_parse (source : String) : ∃ p k cs, parse source .standard = .ok p ∧ p.tree = .node k cs ∧
    p.tree.text = source := by
  obtain ⟨p, hp, hleaves, hkind, -⟩ := parseTokens_conforms (tiles_lex source) (fun t => isToken_of_mem_lex)
    (fun t => dashed_of_mem_lex) .standard
  have htext := (Tree.tokens_and_text_of_leaves (tiles_lex source) hleaves).2
  cases htree : p.tree with
  | node k cs => exact ⟨p, k, cs, hp, htree, htext⟩
  | leaf k s =>
    rw [htree] at hleaves hkind
    have hmem : (k, s) ∈ (lex source).map Token.leaf := by
      rw [← hleaves]
      exact List.mem_singleton_self _
    obtain ⟨t, ht, hleaf⟩ := List.mem_map.1 hmem
    have htoken := isToken_of_mem_lex ht
    rw [show t.kind = k from congrArg Prod.fst hleaf, show k = .chunk from hkind] at htoken
    exact absurd htoken (by decide)

theorem treeText_eq {source : String} {p : Parse} (hp : parse source .standard = .ok p) (trivia spans : Bool) :
    treeText trivia spans source = .ok (p.tree.listing trivia spans) := by
  rw [treeText, hp]
  rfl

/-- **Listings lose nothing.**  Two sources differ in the listings of their trees with trivia, and in those of their
tokens, and every listing of a tree is legible. -/
theorem listings_legible : (∀ spans, Function.Injective (treeText true spans)) ∧
    (∀ spans, Function.Injective (tokensText spans)) ∧
    ∀ source trivia spans, ∃ p dump, parse source .standard = .ok p ∧ p.tree.text = source ∧
      treeText trivia spans source = .ok dump ∧ p.tree.Legible trivia dump := by
  have hlegible : ∀ source trivia spans, ∃ p dump, parse source .standard = .ok p ∧ p.tree.text = source ∧
      treeText trivia spans source = .ok dump ∧ p.tree.Legible trivia dump := fun source trivia spans => by
    obtain ⟨p, k, cs, hp, htree, htext⟩ := node_of_parse source
    exact ⟨p, _, hp, htext, treeText_eq hp trivia spans, htree ▸ Tree.legible_listing trivia spans k cs⟩
  refine ⟨fun spans a b hab => ?_, fun spans a b hab => ?_, hlegible⟩
  · obtain ⟨p, dump, -, hp, hdump, hread⟩ := hlegible a true spans
    obtain ⟨q, dump', -, hq, hdump', hread'⟩ := hlegible b true spans
    obtain rfl : dump = dump' := Except.ok.inj (hdump.symm.trans (hab.trans hdump'))
    have htree : p.tree = q.tree := Option.some.inj (hread.whole.symm.trans hread'.whole)
    rw [← hp, ← hq, htree]
  · rw [← textOfSights_tokensText spans a, ← textOfSights_tokensText spans b, hab]

end LuaTree
