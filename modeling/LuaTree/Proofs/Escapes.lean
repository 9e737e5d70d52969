import LuaTree.Proofs.Literals

/-!
# Proofs/Escapes — which escapes a text has

`Escape.Extent` says how far an escape reaches in front of what follows it, and `Escape.Known` which texts are escapes
of the language, for any number of digits.  A text is then a row of plain pieces without a backslash and of escapes
between them (`Escape.Laid`); everything about the escapes of a text is read off this row (`escapes_of_text`).
-/

namespace LuaTree

/-! ## Pieces of a text -/

section Bytes

variable {x y z u : List Char}

theorem dropBytes?_append_add (x y : List Char) (n : Nat) :
    dropBytes? (x ++ y) (byteLength x + n) = dropBytes? y n := by
  induction x with
  | nil => rw [List.nil_append, byteLength_nil, Nat.zero_add]
  | cons c x ih =>
    have hpos := c.utf8Size_pos
    obtain ⟨k, hk⟩ : ∃ k, byteLength (c :: x) + n = k + 1 :=
      ⟨byteLength (c :: x) + n - 1, by rw [byteLength_cons]; omega⟩
    rw [byteLength_cons] at hk
    rw [byteLength_cons, hk, List.cons_append, dropBytes?, if_pos (by omega), ← ih]
    congr 1
    omega

/-- What is cut out of the second part of a text. -/
theorem sliceBytes?_append {x : List Char} (y : List Char) {a b : Nat} (ha : byteLength x ≤ a)
    (hb : byteLength x ≤ b) :
    sliceBytes? (x ++ y) a b = sliceBytes? y (a - byteLength x) (b - byteLength x) := by
  obtain ⟨a, rfl⟩ := Nat.exists_eq_add_of_le ha
  obtain ⟨b, rfl⟩ := Nat.exists_eq_add_of_le hb
  simp only [sliceBytes?, dropBytes?_append_add, Nat.add_sub_add_left, Nat.add_lt_add_iff_left,
    Nat.add_sub_cancel_left]

/-- The piece between two others. -/
theorem sliceBytes?_middle (x y z : List Char) :
    sliceBytes? (x ++ (y ++ z)) (byteLength x) (byteLength (x ++ y)) = some y := by
  simp [sliceBytes?, dropBytes?_append, takeBytes?_append]

/-- A character of two joined texts is in the first or in the second one. -/
theorem exists_of_append_eq {c : Char} (h : x ++ y = z ++ c :: u) :
    (∃ v, x = z ++ c :: v) ∨ ∃ v, z = x ++ v ∧ y = v ++ c :: u := by
  rcases List.append_eq_append_iff.1 h with ⟨v, rfl, hy⟩ | ⟨_ | ⟨d, v⟩, rfl, hy⟩
  · exact .inr ⟨v, rfl, hy⟩
  · exact .inr ⟨[], by simp, hy.symm⟩
  · obtain ⟨rfl, -⟩ := List.cons.inj hy
    exact .inl ⟨v, rfl⟩

end Bytes

namespace Escape

/-! ## Known escapes -/

/-- **What follows the backslash of a known escape.** -/
inductive Known : List Char → Prop
  /-- A character that stands for a fixed one, and `z`. -/
  | simple {c : Char} :
    c ∈ ['a', 'b', 'f', 'n', 'r', 't', 'v', '\x5c', '\x22', '\x27', 'z'] → Known [c]
  | lineBreak {w : List Char} : w ∈ [['\n'], ['\r'], ['\r', '\n'], ['\n', '\r']] → Known w
  | byte {c d : Char} : isHex c = true → isHex d = true → Known ['x', c, d]
  | decimal {ds : List Char} : ds ≠ [] → ds.length ≤ 3 → (∀ d ∈ ds, isDecimal d = true) →
    digitsValue 10 ds ≤ 255 → Known ds
  /-- Any number of digits, and with them any number of zeros in front. -/
  | code {ds : List Char} : ds ≠ [] → (∀ d ∈ ds, isHex d = true) → digitsValue 16 ds ≤ 0x7FFFFFFF →
    Known ('u' :: '\x7b' :: (ds ++ ['\x7d']))

variable {c : Char} {ds w after cs : List Char}

theorem isDecimal_of_isSimple (h : isSimple c = true) : isDecimal c = false := by
  have hnone : ['a', 'b', 'f', 'n', 'r', 't', 'v', '\x5c', '\x22', '\x27', 'z'].all (!isDecimal ·) = true := by
    decide
  simpa using List.all_eq_true.1 hnone c (List.contains_iff_mem.1 h)

theorem known_byte_iff (h : ∀ d ∈ ds, isHex d = true) : Known ('x' :: ds) ↔ ds.length = 2 := by
  constructor
  · intro hknown
    cases hknown with
    | simple hc => exact absurd hc (by decide)
    | lineBreak hw => simp at hw
    | byte => rfl
    | decimal _ _ hd => exact absurd (hd 'x' List.mem_cons_self) (by decide)
  · intro hlength
    match ds, hlength with
    | [d, e], _ => exact .byte (h d (by simp)) (h e (by simp))

theorem known_decimal_iff (hne : ds ≠ []) (hlength : ds.length ≤ 3) (h : ∀ d ∈ ds, isDecimal d = true) :
    Known ds ↔ digitsValue 10 ds ≤ 255 := by
  refine ⟨fun hknown => ?_, .decimal hne hlength h⟩
  cases hknown with
  | @simple c hc =>
    have hnone := isDecimal_of_isSimple (List.contains_iff_mem.2 hc)
    exact absurd (h c (List.mem_singleton_self c)) (by simp [hnone])
  | lineBreak hw =>
    simp only [List.mem_cons, List.not_mem_nil, or_false] at hw
    rcases hw with rfl | rfl | rfl | rfl <;> simp [isDecimal] at h
  | byte => exact absurd (h 'x' List.mem_cons_self) (by decide)
  | decimal _ _ _ hvalue => exact hvalue
  | code => exact absurd (h 'u' List.mem_cons_self) (by decide)

theorem not_known_u (h : '\x7d' ∉ ds) : ¬ Known ('u' :: ds) := by
  intro hknown
  cases hknown with
  | simple hc => exact absurd hc (by decide)
  | lineBreak hw => simp at hw
  | decimal _ _ hd => exact absurd (hd 'u' List.mem_cons_self) (by decide)
  | code => simp at h

theorem known_code_iff (h : ∀ d ∈ ds, isHex d = true) :
    Known ('u' :: '\x7b' :: (ds ++ ['\x7d'])) ↔ ds ≠ [] ∧ digitsValue 16 ds ≤ 0x7FFFFFFF := by
  refine ⟨fun hknown => ?_, fun hvalue => .code hvalue.1 h hvalue.2⟩
  generalize hw : 'u' :: '\x7b' :: (ds ++ ['\x7d']) = w at hknown
  cases hknown with
  | simple => simp at hw
  | lineBreak hbreak =>
    subst hw
    simp at hbreak
  | byte => simp at hw
  | decimal _ _ hd =>
    subst hw
    exact absurd (hd 'u' List.mem_cons_self) (by decide)
  | code hne _ hvalue =>
    simp only [List.cons.injEq, true_and] at hw
    obtain rfl := List.append_cancel_right hw
    exact ⟨hne, hvalue⟩

theorem known_single_iff (hx : c ≠ '\n') (hcr : c ≠ '\r') (hdecimal : isDecimal c = false) :
    Known [c] ↔ isSimple c = true := by
  rw [isSimple, List.contains_iff_mem]
  refine ⟨fun hknown => ?_, .simple⟩
  cases hknown with
  | simple hc => exact hc
  | lineBreak hw => simp [hx, hcr] at hw
  | decimal _ _ hd => simp [hdecimal] at hd

/-! ## How far an escape reaches -/

/-- **A run of characters of a class**, which is as long as it can be in front of a text. -/
structure Run (p : Char → Bool) (most : Option Nat) (ds after : List Char) : Prop where
  of_class : ∀ d ∈ ds, p d = true
  le : ∀ n ∈ most, ds.length ≤ n
  maximal : ds.length ∈ most ∨ ∀ c ∈ after.head?, p c = false

/-- **What belongs to an escape behind its backslash**, in front of a text. -/
inductive Extent : List Char → List Char → Prop
  /-- The text ends with the backslash. -/
  | nothing : Extent [] []
  | lineBreak {c : Char} {after : List Char} : c = '\n' ∨ c = '\r' →
    (∀ d ∈ after.head?, d = '\n' ∨ d = '\r' → d = c) → Extent [c] after
  | pair {w after : List Char} : w = ['\r', '\n'] ∨ w = ['\n', '\r'] → Extent w after
  | byte {ds after : List Char} : Run isHex (some 2) ds after → Extent ('x' :: ds) after
  | decimal {ds after : List Char} : ds ≠ [] → Run isDecimal (some 3) ds after → Extent ds after
  | code {ds after : List Char} : (∀ d ∈ ds, isHex d = true) →
    Extent ('u' :: '\x7b' :: (ds ++ ['\x7d'])) after
  /-- The closing brace is missing. -/
  | unclosed {ds after : List Char} : Run isHex none ds after → after.head? ≠ some '\x7d' →
    Extent ('u' :: '\x7b' :: ds) after
  | single {c : Char} {after : List Char} : c ≠ '\n' → c ≠ '\r' → c ≠ 'x' → isDecimal c = false →
    (c = 'u' → after.head? ≠ some '\x7b') → Extent [c] after

theorem run_takeWhile (p : Char → Bool) (cs : List Char) : Run p none (cs.takeWhile p) (cs.dropWhile p) where
  of_class := List.all_eq_true.1 List.all_takeWhile
  le := nofun
  maximal := .inr fun c hc => by
    have hnot := List.head?_dropWhile_not p cs
    rw [Option.mem_def.1 hc] at hnot
    simpa using hnot

/-- The first characters of a class, up to a number. -/
theorem run_take_takeWhile (p : Char → Bool) (n : Nat) (cs : List Char) :
    ∃ after, cs = (cs.take n).takeWhile p ++ after ∧ Run p (some n) ((cs.take n).takeWhile p) after := by
  induction n generalizing cs with
  | zero => exact ⟨cs, by simp, by simp, by simp, .inl (by simp)⟩
  | succ n ih =>
    cases cs with
    | nil => exact ⟨[], by simp, by simp, by simp, .inr nofun⟩
    | cons c cs =>
      rw [List.take_succ_cons, List.takeWhile_cons]
      cases hc : p c with
      | false => exact ⟨c :: cs, by simp, by simp, by simp, .inr (by simpa using hc)⟩
      | true =>
        obtain ⟨after, hcs, hrun⟩ := ih cs
        refine ⟨after, by simpa using hcs, List.forall_mem_cons.2 ⟨hc, hrun.of_class⟩, ?_, ?_⟩
        · rintro _ ⟨⟩
          exact Nat.succ_le_succ (hrun.le n rfl)
        · exact hrun.maximal.imp_left fun hlength => by simpa using hlength

theorem not_known_nil : ¬ Known [] := by
  intro h
  cases h with
  | lineBreak hw => simp at hw
  | decimal hne => exact hne rfl

theorem extent_measureCode (cs : List Char) : ∃ w after, cs = w ++ after ∧ (measureCode cs).1 = w.length ∧
    Extent ('u' :: '\x7b' :: w) after ∧ ((measureCode cs).2 = true ↔ Known ('u' :: '\x7b' :: w)) := by
  have hrun := run_takeWhile isHex cs
  unfold measureCode
  dsimp only
  split
  · rename_i after hbrace
    refine ⟨cs.takeWhile isHex ++ ['\x7d'], after, ?_, by simp, .code hrun.of_class, ?_⟩
    · rw [List.append_assoc, List.singleton_append, ← hbrace, List.takeWhile_append_dropWhile]
    · rw [known_code_iff hrun.of_class, Bool.and_eq_true, decide_eq_true_eq, Bool.not_eq_true',
        List.isEmpty_eq_false_iff]
      rfl
  · rename_i hbrace
    refine ⟨cs.takeWhile isHex, cs.dropWhile isHex, List.takeWhile_append_dropWhile.symm, rfl,
      .unclosed hrun fun hhead => ?_, iff_of_false (by simp) (not_known_u ?_)⟩
    · obtain ⟨after, hafter⟩ := List.head?_eq_some_iff.1 hhead
      exact hbrace after hafter
    · rintro (_ | ⟨_, hmem⟩)
      exact absurd (hrun.of_class _ hmem) (by decide)

/-- Two different line breaks in a row count as one. -/
theorem extent_lineBreak {c d : Char} (hc : c = '\n' ∧ d = '\r' ∨ c = '\r' ∧ d = '\n') (ds : List Char) :
    ∃ w after, c :: ds = w ++ after ∧ (if ds.head? = some d then 2 else 1) = w.length ∧ Extent w after ∧ Known w := by
  by_cases hhead : ds.head? = some d
  · obtain ⟨es, rfl⟩ := List.head?_eq_some_iff.1 hhead
    refine ⟨[c, d], es, rfl, if_pos rfl, ?_⟩
    rcases hc with ⟨rfl, rfl⟩ | ⟨rfl, rfl⟩
    · exact ⟨.pair (.inr rfl), .lineBreak (by simp)⟩
    · exact ⟨.pair (.inl rfl), .lineBreak (by simp)⟩
  · refine ⟨[c], ds, rfl, if_neg hhead, ?_⟩
    have hother {e : Char} (he : e ∈ ds.head?) : e ≠ d := fun h => hhead (h ▸ he)
    rcases hc with ⟨rfl, rfl⟩ | ⟨rfl, rfl⟩
    · exact ⟨.lineBreak (.inl rfl) fun _ he h => h.resolve_right (hother he), .lineBreak (by simp)⟩
    · exact ⟨.lineBreak (.inr rfl) fun _ he h => h.resolve_left (hother he), .lineBreak (by simp)⟩

/-- Up to three decimal digits. -/
theorem extent_decimal {c : Char} (hc : isDecimal c = true) (ds : List Char) : ∃ w after, c :: ds = w ++ after ∧
    w = ((c :: ds).take 3).takeWhile isDecimal ∧ Extent w after ∧ (digitsValue 10 w ≤ maxByte ↔ Known w) := by
  obtain ⟨after, hds, hrun⟩ := run_take_takeWhile isDecimal 3 (c :: ds)
  have hne : ((c :: ds).take 3).takeWhile isDecimal ≠ [] := by simp [hc]
  exact ⟨_, after, hds, rfl, .decimal hne hrun, (known_decimal_iff hne (hrun.le 3 rfl) hrun.of_class).symm⟩

/-- **How much of a text is an escape, and whether it is known.** -/
theorem extent_measure (cs : List Char) : ∃ w after, cs = w ++ after ∧ (measure cs).1 = w.length ∧
    Extent w after ∧ ((measure cs).2 = true ↔ Known w) := by
  unfold measure
  split
  · exact ⟨[], [], rfl, rfl, .nothing, iff_of_false (by decide) not_known_nil⟩
  · rename_i ds
    obtain ⟨w, after, hds, hlength, hextent, hknown⟩ := extent_lineBreak (.inl ⟨rfl, rfl⟩) ds
    exact ⟨w, after, hds, hlength, hextent, iff_of_true rfl hknown⟩
  · rename_i ds
    obtain ⟨w, after, hds, hlength, hextent, hknown⟩ := extent_lineBreak (.inr ⟨rfl, rfl⟩) ds
    exact ⟨w, after, hds, hlength, hextent, iff_of_true rfl hknown⟩
  · rename_i ds
    obtain ⟨after, hds, hrun⟩ := run_take_takeWhile isHex 2 ds
    refine ⟨'x' :: (ds.take 2).takeWhile isHex, after, ?_, rfl, .byte hrun, ?_⟩
    · rw [List.cons_append, ← hds]
    · rw [known_byte_iff hrun.of_class, beq_iff_eq]
  · rename_i ds
    obtain ⟨w, after, rfl, hlength, hextent, hknown⟩ := extent_measureCode ds
    exact ⟨'u' :: '\x7b' :: w, after, rfl, by rw [hlength]; rfl, hextent, hknown⟩
  · rename_i c ds hlf hcr hx hu
    have hsingle (hdecimal : isDecimal c = false) : Extent [c] ds :=
      .single hlf hcr hx hdecimal fun hc hhead => by
        obtain ⟨es, hes⟩ := List.head?_eq_some_iff.1 hhead
        exact hu es hc hes
    split
    · rename_i hsimple
      have hdecimal : isDecimal c = false := isDecimal_of_isSimple hsimple
      exact ⟨[c], ds, rfl, rfl, hsingle hdecimal, iff_of_true rfl ((known_single_iff hlf hcr hdecimal).2 hsimple)⟩
    · rename_i hsimple
      split
      · rename_i hdecimal
        obtain ⟨w, after, hds, rfl, hextent, hknown⟩ := extent_decimal hdecimal ds
        exact ⟨_, after, hds, rfl, hextent, decide_eq_true_iff.trans hknown⟩
      · rename_i hdecimal
        replace hdecimal := Bool.eq_false_iff.2 hdecimal
        exact ⟨[c], ds, rfl, rfl, hsingle hdecimal,
          iff_of_false Bool.false_ne_true (mt (known_single_iff hlf hcr hdecimal).1 hsimple)⟩

/-! ## The escapes of a text -/

/-- **A text that begins at byte `n` and its escapes**: between them stand plain pieces, which may be empty. -/
inductive Laid : Nat → List Char → List Escape → Prop
  | plain {n : Nat} {gap : List Char} : '\x5c' ∉ gap → Laid n gap []
  | escape {n : Nat} {gap w rest : List Char} {valid : Bool} {es : List Escape} : '\x5c' ∉ gap →
    Extent w rest → (valid = true ↔ Known w) → Laid (n + byteLength (gap ++ '\x5c' :: w)) rest es →
    Laid n (gap ++ '\x5c' :: (w ++ rest)) (⟨n + byteLength gap, n + byteLength (gap ++ '\x5c' :: w), valid⟩ :: es)

variable {n : Nat} {text before : List Char} {es : List Escape} {e : Escape}

/-- A plain piece goes on in front. -/
theorem Laid.cons (hc : c ≠ '\x5c') (h : Laid (n + c.utf8Size) text es) : Laid n (c :: text) es := by
  cases h with
  | plain hgap => exact .plain (by simp [hgap, hc.symm])
  | @escape _ gap w rest valid es hgap hextent hknown hrest =>
    have hlaid := @Laid.escape n (c :: gap) w rest valid es (by simp [hgap, hc.symm]) hextent hknown
      (by rwa [List.cons_append, byteLength_cons, ← Nat.add_assoc])
    rwa [List.cons_append, List.cons_append, byteLength_cons, byteLength_cons, ← Nat.add_assoc,
      ← Nat.add_assoc] at hlaid

/-- **Reading a text from left to right lays its escapes out**, behind the characters that are skipped. -/
theorem laid_allFrom (text : List Char) : ∀ n skip : Nat,
    Laid (n + byteLength (text.take skip)) (text.drop skip) (allFrom n skip text) := by
  induction text with
  | nil => exact fun n skip => by simpa [allFrom] using @Laid.plain n [] (by simp)
  | cons c cs ih =>
    rintro n (_ | skip)
    · rw [allFrom]
      by_cases hc : c = '\x5c'
      · subst hc
        obtain ⟨w, after, rfl, hlength, hextent, hknown⟩ := extent_measure cs
        have hrest := ih (n + Char.utf8Size '\x5c') w.length
        rw [List.take_left, List.drop_left, Nat.add_assoc] at hrest
        have hlaid := @Laid.escape n [] w after _ _ (by simp) hextent hknown hrest
        rw [if_pos rfl, hlength, List.take_left, Nat.add_assoc]
        exact hlaid
      · rw [if_neg hc]
        exact (ih (n + c.utf8Size) 0).cons hc
    · have hrest := ih (n + c.utf8Size) skip
      rwa [List.take_succ_cons, List.drop_succ_cons, byteLength_cons, ← Nat.add_assoc]

theorem laid_all (text : List Char) : Laid 0 text (all text) := laid_allFrom text 0 0

namespace Laid

theorem bounds (h : Laid n text es) : ∀ e ∈ es, n ≤ e.start ∧ e.start < e.stop ∧ e.stop ≤ n + byteLength text := by
  induction h with
  | plain => exact nofun
  | escape _ _ _ _ ih =>
    have hpos := Char.utf8Size_pos '\x5c'
    simp only [byteLength_append, byteLength_cons, List.forall_mem_cons] at ih ⊢
    refine ⟨by omega, fun e he => ?_⟩
    have := ih e he
    omega

theorem pairwise (h : Laid n text es) : es.Pairwise fun e f => e.stop ≤ f.start := by
  induction h with
  | plain => exact .nil
  | escape _ _ _ hrest ih => exact List.pairwise_cons.2 ⟨fun f hf => (hrest.bounds f hf).1, ih⟩

/-- Each escape stands in the text. -/
theorem placed (h : Laid n text es) : ∀ e ∈ es, ∃ before w after, text = before ++ ('\x5c' :: w ++ after) ∧
    e.start = n + byteLength before ∧ e.stop = n + byteLength (before ++ '\x5c' :: w) ∧ Extent w after ∧
    (e.valid = true ↔ Known w) := by
  induction h with
  | plain => exact nofun
  | @escape n gap w rest valid es _ hextent hknown _ ih =>
    refine List.forall_mem_cons.2 ⟨⟨gap, w, rest, rfl, rfl, rfl, hextent, hknown⟩, fun e he => ?_⟩
    obtain ⟨before, w', after, rfl, hstart, hstop, h⟩ := ih e he
    refine ⟨gap ++ '\x5c' :: (w ++ before), w', after, by simp, ?_, ?_, h⟩
    · rw [hstart]
      simp [Nat.add_assoc]
    · rw [hstop]
      simp [Nat.add_assoc]

/-- **Every backslash is in an escape.** -/
theorem cover (h : Laid n text es) : ∀ before after, text = before ++ '\x5c' :: after →
    Cover es (n + byteLength before) := by
  induction h with
  | plain hgap => exact fun before after htext => absurd (by simp [htext]) hgap
  | @escape n gap w rest valid es hgap _ _ _ ih =>
    intro before after htext
    rw [← List.cons_append, ← List.append_assoc] at htext
    rcases exists_of_append_eq htext with ⟨v, hfirst⟩ | ⟨v, rfl, hrest⟩
    · -- in front of the rest there is no backslash but in the escape
      refine ⟨_, List.mem_cons_self, ?_, ?_⟩
      · rcases exists_of_append_eq hfirst with ⟨v, rfl⟩ | ⟨v, rfl, -⟩
        · exact absurd (by simp) hgap
        · simp
      · have hpos := Char.utf8Size_pos '\x5c'
        rw [hfirst]
        simp only [byteLength_append, byteLength_cons]
        omega
    · rw [byteLength_append _ v, ← Nat.add_assoc]
      exact (ih v after hrest).cons

end Laid

/-- **The escapes of a text**, as a reader of the text sees them. -/
structure Found (text : List Char) (es : List Escape) : Prop where
  ordered : es.Pairwise fun e f => e.stop ≤ f.start
  /-- Each stands between two places of the text, begins with a backslash and reaches as far as it can. -/
  placed : ∀ e ∈ es, ∃ before w after, text = before ++ ('\x5c' :: w ++ after) ∧ e.start = byteLength before ∧
    e.stop = byteLength (before ++ '\x5c' :: w) ∧ sliceBytes? text e.start e.stop = some ('\x5c' :: w) ∧
    Extent w after ∧ (e.valid = true ↔ Known w)
  /-- Each backslash is in one of them. -/
  complete : ∀ before after, text = before ++ '\x5c' :: after →
    ∃! e, e ∈ es ∧ e.start ≤ byteLength before ∧ byteLength before < e.stop

end Escape

open Escape in
/-- **Escapes are found and classified**: they stand in the text in order and apart from each other, each begins with a
backslash and reaches over as many digits as there may be, every backslash is in exactly one of them, and those that
are valid are the ones that the language knows. -/
theorem escapes_of_text (text : List Char) : Found text (all text) := by
  have hlaid := laid_all text
  refine ⟨hlaid.pairwise, fun e he => ?_, fun before after htext => ?_⟩
  · obtain ⟨before, w, after, htext, hstart, hstop, hextent, hknown⟩ := hlaid.placed e he
    rw [Nat.zero_add] at hstart hstop
    refine ⟨before, w, after, htext, hstart, hstop, ?_, hextent, hknown⟩
    rw [htext, hstart, hstop, sliceBytes?_middle]
  · obtain ⟨e, he, hcover⟩ := hlaid.cover before after htext
    rw [Nat.zero_add] at hcover
    refine ⟨e, ⟨he, hcover⟩, fun f ⟨hf, hcover'⟩ => ?_⟩
    -- two escapes that are apart have no byte in common
    have hsame : ∀ ⦃f⦄, f ∈ all text → ∀ ⦃g⦄, g ∈ all text → f.start ≤ byteLength before ∧ byteLength before < f.stop →
        g.start ≤ byteLength before ∧ byteLength before < g.stop → f = g :=
      List.Pairwise.forall_of_forall_of_flip (fun _ _ _ _ => rfl) (hlaid.pairwise.imp fun _ _ _ => by omega)
        (hlaid.pairwise.imp fun _ _ _ => by omega)
    exact hsame hf he hcover' hcover

end LuaTree
