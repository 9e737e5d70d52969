import LuaTree.Text.Digit
import LuaTree.Text.Quoted
import Mathlib.Tactic.SplitIfs

/-!
# Proofs/Unquoting — texts between quotes can be read back

Every character that is written between quotes is written so that it can be told where it ends: by itself, by a
short escape, or by its code in braces.  A reader that goes from left to right therefore finds the text
again, and where it ends (`read_write`); and whatever the text is, it stays in one line (`lineFeed_notMem_write`).
-/

namespace LuaTree.Quoted

/-! ## Reading -/

/-- The character that a letter behind a backslash stands for. -/
def unescape (c : Char) : Char :=
  if c = '0' then '\x00' else if c = 't' then '\t' else if c = 'n' then '\n' else if c = 'r' then '\r' else c

/-- Puts a character in front of what was read. -/
def push (c : Char) (r : List Char × List Char) : List Char × List Char := (c :: r.1, r.2)

/-- The text up to the closing quote and what stands behind it, read from inside a code if the value of its digits
so far is given. -/
def readFrom : Option Nat → List Char → Option (List Char × List Char)
  | _, [] => none
  | some n, c :: cs =>
    if c = '\x7d' then (readFrom none cs).map (push (Char.ofNat n)) else readFrom (some (n * 16 + digitValue c)) cs
  | none, c :: cs =>
    if c = '\x22' then some ([], cs)
    else if c = '\x5c' then
      match cs with
      | 'u' :: '\x7b' :: ds => readFrom (some 0) ds
      | d :: ds => (readFrom none ds).map (push (unescape d))
      | [] => none
    else (readFrom none cs).map (push c)

/-- The text between the first quote and the one that closes it. -/
def read? (cs : List Char) : Option (List Char) :=
  match cs.dropWhile (· ≠ '\x22') with
  | [] => none
  | _ :: cs => (readFrom none cs).map Prod.fst

theorem readFrom_quote (cs : List Char) : readFrom none ('\x22' :: cs) = some ([], cs) := by
  rw [readFrom.eq_def]
  rfl

theorem readFrom_plain {c : Char} (hquote : c ≠ '\x22') (hback : c ≠ '\x5c') (cs : List Char) :
    readFrom none (c :: cs) = (readFrom none cs).map (push c) := by
  rw [readFrom.eq_def]
  simp only [if_neg hquote, if_neg hback]

/-! ## Codes -/

theorem digitValue_digitChar : ∀ d < 16, digitValue d.digitChar = d := by decide

theorem digitChar_plain : ∀ d < 16, d.digitChar ≠ '\x7d' ∧ d.digitChar ≠ '\n' := by decide

/-- What holds of each digit holds of each character of a code. -/
theorem mem_toDigits {P : Char → Prop} (h : ∀ d < 16, P d.digitChar) (n : Nat) : ∀ c ∈ Nat.toDigits 16 n, P c := by
  induction n using Nat.strongRecOn with
  | ind n ih =>
    rw [Nat.toDigits_eq_if (by decide)]
    split
    · rename_i hn
      simpa using h n hn
    · intro c hc
      rcases List.mem_append.1 hc with hc | hc
      · exact ih (n / 16) (by omega) c hc
      · rw [List.mem_singleton.1 hc]
        exact h _ (Nat.mod_lt _ (by decide))

theorem digitsValue_toDigits (n : Nat) : digitsValue 16 (Nat.toDigits 16 n) = n := by
  induction n using Nat.strongRecOn with
  | ind n ih =>
    rw [Nat.toDigits_eq_if (by decide)]
    split
    · rename_i hn
      simp [digitsValue, digitValue_digitChar n hn]
    · have hn := ih (n / 16) (by omega)
      have hd := digitValue_digitChar (n % 16) (Nat.mod_lt _ (by decide))
      rw [digitsValue] at hn ⊢
      rw [List.foldl_append, hn, List.foldl_cons, List.foldl_nil, hd]
      omega

theorem readFrom_digits (cs : List Char) : ∀ (ds : List Char) (n : Nat), (∀ d ∈ ds, d ≠ '\x7d') →
    readFrom (some n) (ds ++ '\x7d' :: cs) =
      (readFrom none cs).map (push (Char.ofNat (ds.foldl (fun n c => n * 16 + digitValue c) n)))
  | [], n, _ => by simp [readFrom]
  | d :: ds, n, h => by
    rw [List.cons_append, readFrom, if_neg (h d List.mem_cons_self),
      readFrom_digits cs ds _ fun c hc => h c (List.mem_cons_of_mem _ hc), List.foldl_cons]

theorem readFrom_code (c : Char) (cs : List Char) :
    readFrom (some 0) (Nat.toDigits 16 c.toNat ++ '\x7d' :: cs) = (readFrom none cs).map (push c) := by
  rw [readFrom_digits cs _ 0 (mem_toDigits (fun d hd => (digitChar_plain d hd).1) _)]
  have hcode := digitsValue_toDigits c.toNat
  rw [digitsValue] at hcode
  rw [hcode, Char.ofNat_toNat]

/-! ## Characters and texts -/

/-- **A character can be read back**, whatever follows it. -/
theorem readFrom_writeChar (c : Char) (cs : List Char) :
    readFrom none ((writeChar c).toList ++ cs) = (readFrom none cs).map (push c) := by
  unfold writeChar
  split_ifs with h0 ht hn hr hquote hback hhidden
  · subst h0; simp [readFrom, unescape]
  · subst ht; simp [readFrom, unescape]
  · subst hn; simp [readFrom, unescape]
  · subst hr; simp [readFrom, unescape]
  · subst hquote; simp [readFrom, unescape]
  · subst hback; simp [readFrom, unescape]
  · have hcode : ("\\u\x7b" ++ hexCode c.toNat ++ "\x7d").toList ++ cs =
        '\x5c' :: 'u' :: '\x7b' :: (Nat.toDigits 16 c.toNat ++ '\x7d' :: cs) := by
      simp [hexCode]
    rw [hcode, readFrom, if_neg (by decide), if_pos rfl, readFrom_code]
  · simpa using readFrom_plain hquote hback cs

theorem readFrom_write (cs : List Char) : ∀ s : List Char,
    readFrom none (s.flatMap (fun c => (writeChar c).toList) ++ '\x22' :: cs) = some (s, cs)
  | [] => readFrom_quote cs
  | c :: s => by
    rw [List.flatMap_cons, List.append_assoc, readFrom_writeChar, readFrom_write cs s, Option.map_some, push]

theorem toList_write (s : String) :
    (write s).toList = '\x22' :: (s.toList.flatMap (fun c => (writeChar c).toList) ++ ['\x22']) := by
  simp [write, String.toList_join, List.flatMap_map]

theorem dropWhile_quote {as : List Char} (has : '\x22' ∉ as) (bs : List Char) :
    (as ++ bs).dropWhile (· ≠ '\x22') = bs.dropWhile (· ≠ '\x22') :=
  List.dropWhile_append_of_pos fun c hc => by simpa using fun h : c = '\x22' => has (h ▸ hc)

/-- **A text between quotes can be read back**, with anything but a quote before it and anything behind it. -/
theorem read_write {as : List Char} (has : '\x22' ∉ as) (s : String) (bs : List Char) :
    read? (as ++ (write s).toList ++ bs) = some s.toList := by
  rw [read?, List.append_assoc, dropWhile_quote has, toList_write, List.cons_append, List.append_assoc,
    List.dropWhile_cons_of_neg (by decide), List.singleton_append]
  dsimp only
  rw [readFrom_write, Option.map_some]

/-- Where there is no quote there is no text. -/
theorem read_none {as : List Char} (has : '\x22' ∉ as) : read? as = none := by
  rw [read?, ← List.append_nil as, dropWhile_quote has]
  rfl

theorem lineFeed_notMem_writeChar (c : Char) : '\n' ∉ (writeChar c).toList := by
  unfold writeChar
  split_ifs with h0 ht hn hr hquote hback hhidden
  iterate 6 simp
  · have hdigits := mem_toDigits (P := (· ≠ '\n')) (fun d hd => (digitChar_plain d hd).2) c.toNat
    simpa [hexCode] using fun h => hdigits _ h rfl
  · simpa using Ne.symm hn

/-- **A text between quotes stays in one line.** -/
theorem lineFeed_notMem_write (s : String) : '\n' ∉ (write s).toList := by
  simp [toList_write, lineFeed_notMem_writeChar]

end LuaTree.Quoted
