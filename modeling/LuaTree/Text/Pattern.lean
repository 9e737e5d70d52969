/-!
# Text/Pattern — regular patterns and the longest piece of a text that they match

A pattern denotes a set of texts, `Pattern.Matches`. Reading one character turns it into its
derivative, the pattern of what may follow, so `longest?` walks along the text and remembers the
last place where the derivative accepts the empty text. `deriv` keeps patterns small by dropping
`never` and `nil`, and the walk stops as soon as `never` is left.
-/

namespace LuaTree

/-- A regular pattern over characters. -/
inductive Pattern where
  /-- Matches no text. -/
  | never
  /-- Matches the empty text. -/
  | nil
  /-- Matches one character of a class. -/
  | char (accepts : Char → Bool)
  /-- Matches a text of the first pattern followed by one of the second. -/
  | seq (p q : Pattern)
  /-- Matches the texts of both patterns. -/
  | alt (p q : Pattern)
  /-- Matches any number of texts of the pattern, one after the other. -/
  | star (p : Pattern)

namespace Pattern

/-- **The texts of a pattern.** -/
inductive Matches : Pattern → List Char → Prop where
  | nil : Matches nil []
  | char {f : Char → Bool} {c : Char} : f c = true → Matches (char f) [c]
  | seq {p q : Pattern} {s t : List Char} : Matches p s → Matches q t → Matches (seq p q) (s ++ t)
  | altLeft {p q : Pattern} {s : List Char} : Matches p s → Matches (alt p q) s
  | altRight {p q : Pattern} {s : List Char} : Matches q s → Matches (alt p q) s
  | starNil {p : Pattern} : Matches (star p) []
  | starCons {p : Pattern} {s t : List Char} :
      Matches p s → Matches (star p) t → Matches (star p) (s ++ t)

/-! ## Building patterns -/

/-- One given text. -/
def literal : List Char → Pattern
  | [] => nil
  | c :: cs => seq (char (· == c)) (literal cs)

/-- One of some characters. -/
def oneOf (cs : List Char) : Pattern := char cs.contains

/-- One or more texts of a pattern. -/
def many (p : Pattern) : Pattern := seq p (star p)

/-- A text of a pattern, or nothing. -/
def optional (p : Pattern) : Pattern := alt p nil

/-- Patterns one after the other. -/
def seqs : List Pattern → Pattern
  | [] => nil
  | p :: ps => seq p (seqs ps)

/-- Any of some patterns. -/
def anyOf : List Pattern → Pattern
  | [] => never
  | p :: ps => alt p (anyOf ps)

/-! ## Derivatives -/

def isNever : Pattern → Bool
  | never => true
  | _ => false

/-- Whether the empty text is matched. -/
def acceptsNil : Pattern → Bool
  | never | char _ => false
  | nil | star _ => true
  | seq p q => p.acceptsNil && q.acceptsNil
  | alt p q => p.acceptsNil || q.acceptsNil

/-- `seq`, with `never` and `nil` dropped. -/
def andThen : Pattern → Pattern → Pattern
  | never, _ => never
  | nil, q => q
  | p, q => seq p q

/-- `alt`, with `never` dropped. -/
def orElse : Pattern → Pattern → Pattern
  | never, q => q
  | p, never => p
  | p, q => alt p q

/-- What may follow a first character. -/
def deriv (c : Char) : Pattern → Pattern
  | never | nil => never
  | char f => if f c then nil else never
  | seq p q =>
    if p.acceptsNil then ((p.deriv c).andThen q).orElse (q.deriv c) else (p.deriv c).andThen q
  | alt p q => (p.deriv c).orElse (q.deriv c)
  | star p => (p.deriv c).andThen (star p)

/-- The length of the longest piece that a pattern matches at the head of a text. -/
def longest? : Pattern → List Char → Option Nat
  | p, [] => if p.acceptsNil then some 0 else none
  | p, c :: cs =>
    if p.isNever then none
    else match longest? (p.deriv c) cs with
      | some n => some (n + 1)
      | none => if p.acceptsNil then some 0 else none

/-! ## The walk finds the longest match -/

theorem not_matches_never {s : List Char} : ¬ Matches never s := nofun

theorem matches_nil_iff {s : List Char} : Matches nil s ↔ s = [] :=
  ⟨fun h => by cases h; rfl, fun h => h ▸ .nil⟩

theorem matches_seq_iff {p q : Pattern} {s : List Char} :
    Matches (seq p q) s ↔ ∃ t u, s = t ++ u ∧ Matches p t ∧ Matches q u :=
  ⟨fun h => by cases h with | seq hp hq => exact ⟨_, _, rfl, hp, hq⟩,
   fun ⟨_, _, h, hp, hq⟩ => h ▸ .seq hp hq⟩

theorem matches_alt_iff {p q : Pattern} {s : List Char} :
    Matches (alt p q) s ↔ Matches p s ∨ Matches q s :=
  ⟨fun h => by cases h with | altLeft h => exact .inl h | altRight h => exact .inr h,
   fun h => h.elim .altLeft .altRight⟩

theorem acceptsNil_iff {p : Pattern} : p.acceptsNil = true ↔ Matches p [] := by
  induction p with
  | never => simp [acceptsNil, not_matches_never]
  | nil => simp [acceptsNil, matches_nil_iff]
  | char f => exact ⟨nofun, nofun⟩
  | seq p q ihp ihq =>
    rw [acceptsNil, Bool.and_eq_true, ihp, ihq, matches_seq_iff]
    constructor
    · exact fun ⟨hp, hq⟩ => ⟨[], [], rfl, hp, hq⟩
    · rintro ⟨t, u, h, hp, hq⟩
      obtain ⟨rfl, rfl⟩ := List.append_eq_nil_iff.1 h.symm
      exact ⟨hp, hq⟩
  | alt p q ihp ihq => rw [acceptsNil, Bool.or_eq_true, ihp, ihq, matches_alt_iff]
  | star p => exact ⟨fun _ => .starNil, fun _ => rfl⟩

theorem matches_andThen_iff {p q : Pattern} {s : List Char} :
    Matches (p.andThen q) s ↔ Matches (seq p q) s := by
  unfold andThen
  split
  · simp [matches_seq_iff, not_matches_never]
  · rw [matches_seq_iff]
    exact ⟨fun h => ⟨[], s, rfl, .nil, h⟩, fun ⟨t, u, h, ht, hu⟩ => by
      rw [h, matches_nil_iff.1 ht]
      exact hu⟩
  · rfl

theorem matches_orElse_iff {p q : Pattern} {s : List Char} :
    Matches (p.orElse q) s ↔ Matches (alt p q) s := by
  unfold orElse
  split <;> simp [matches_alt_iff, not_matches_never]

theorem matches_star_cons_iff {p : Pattern} {c : Char} {s : List Char} :
    Matches (star p) (c :: s) ↔
      ∃ t u, s = t ++ u ∧ Matches p (c :: t) ∧ Matches (star p) u := by
  constructor
  · intro h
    generalize hr : star p = r at h
    generalize hw : c :: s = w at h
    induction h with
    | starNil => simp at hw
    | @starCons p' t u hp hs _ ih =>
      obtain rfl : p = p' := by simpa using hr
      cases t with
      | nil => exact ih rfl hw
      | cons d t =>
        obtain ⟨rfl, rfl⟩ := List.cons.inj hw
        exact ⟨t, u, rfl, hp, hs⟩
    | _ => simp at hr
  · rintro ⟨t, u, rfl, hp, hs⟩
    exact .starCons hp hs

/-- **The derivative matches what may follow the character.** -/
theorem matches_deriv_iff {p : Pattern} {c : Char} {s : List Char} :
    Matches (p.deriv c) s ↔ Matches p (c :: s) := by
  induction p generalizing s with
  | never => exact ⟨nofun, nofun⟩
  | nil => exact ⟨nofun, nofun⟩
  | char f =>
    unfold deriv
    split
    · rename_i hf
      rw [matches_nil_iff]
      exact ⟨fun h => h ▸ .char hf, fun h => by cases h; rfl⟩
    · rename_i hf
      exact ⟨nofun, fun h => by cases h; contradiction⟩
  | seq p q ihp ihq =>
    have hleft : Matches ((p.deriv c).andThen q) s ↔
        ∃ t u, s = t ++ u ∧ Matches p (c :: t) ∧ Matches q u := by
      simp only [matches_andThen_iff, matches_seq_iff, ihp]
    have hright : Matches (seq p q) (c :: s) ↔
        (∃ t u, s = t ++ u ∧ Matches p (c :: t) ∧ Matches q u) ∨
          (Matches p [] ∧ Matches q (c :: s)) := by
      rw [matches_seq_iff]
      constructor
      · rintro ⟨t, u, h, hp, hq⟩
        cases t with
        | nil => exact .inr ⟨hp, by rw [h]; exact hq⟩
        | cons d t =>
          obtain ⟨rfl, rfl⟩ := List.cons.inj h
          exact .inl ⟨t, u, rfl, hp, hq⟩
      · rintro (⟨t, u, rfl, hp, hq⟩ | ⟨hp, hq⟩)
        · exact ⟨c :: t, u, rfl, hp, hq⟩
        · exact ⟨[], c :: s, rfl, hp, hq⟩
    rw [deriv, hright]
    split
    · rename_i h
      rw [matches_orElse_iff, matches_alt_iff, hleft, ihq, and_iff_right (acceptsNil_iff.1 h)]
    · rename_i h
      rw [hleft, or_iff_left fun hp => h (acceptsNil_iff.2 hp.1)]
  | alt p q ihp ihq => rw [deriv, matches_orElse_iff, matches_alt_iff, matches_alt_iff, ihp, ihq]
  | star p ihp =>
    simp only [deriv, matches_andThen_iff, matches_seq_iff, matches_star_cons_iff, ihp]

theorem not_matches_of_isNever {p : Pattern} (h : p.isNever = true) {s : List Char} :
    ¬ Matches p s := by
  cases p <;> simp [isNever] at h
  exact not_matches_never

theorem matches_take_succ_iff {p : Pattern} {c : Char} {s : List Char} {m : Nat} :
    Matches p ((c :: s).take (m + 1)) ↔ Matches (p.deriv c) (s.take m) := by
  rw [List.take_succ_cons, matches_deriv_iff]

theorem matches_of_longest? {p : Pattern} {s : List Char} {n : Nat} (h : longest? p s = some n) :
    n ≤ s.length ∧ Matches p (s.take n) := by
  induction s generalizing p n with
  | nil =>
    rw [longest?] at h
    split at h
    · obtain rfl := Option.some.inj h
      exact ⟨Nat.le_refl _, acceptsNil_iff.1 ‹_›⟩
    · simp at h
  | cons c s ih =>
    rw [longest?] at h
    split at h
    · simp at h
    split at h
    · obtain rfl := Option.some.inj h
      have := ih ‹_›
      exact ⟨by simpa using this.1, matches_take_succ_iff.2 this.2⟩
    split at h
    · obtain rfl := Option.some.inj h
      exact ⟨Nat.zero_le _, acceptsNil_iff.1 ‹_›⟩
    · simp at h

theorem not_matches_of_longest?_eq_none {p : Pattern} {s : List Char} (h : longest? p s = none)
    {m : Nat} (hm : m ≤ s.length) : ¬ Matches p (s.take m) := by
  induction s generalizing p m with
  | nil =>
    rw [longest?] at h
    split at h
    · simp at h
    · rw [List.take_nil, ← acceptsNil_iff]
      assumption
  | cons c s ih =>
    rw [longest?] at h
    split at h
    · exact not_matches_of_isNever ‹_›
    split at h
    · simp at h
    split at h
    · simp at h
    cases m with
    | zero =>
      rw [List.take_zero, ← acceptsNil_iff]
      assumption
    | succ m =>
      rw [matches_take_succ_iff]
      exact ih ‹_› (by simpa using hm)

theorem le_of_longest? {p : Pattern} {s : List Char} {n : Nat} (h : longest? p s = some n)
    {m : Nat} (hm : m ≤ s.length) (hp : Matches p (s.take m)) : m ≤ n := by
  induction s generalizing p m n with
  | nil => simp at hm; omega
  | cons c s ih =>
    cases m with
    | zero => exact Nat.zero_le _
    | succ m =>
      have hm' : m ≤ s.length := by simpa using hm
      have hp' := matches_take_succ_iff.1 hp
      rw [longest?] at h
      split at h
      · simp at h
      split at h
      · obtain rfl := Option.some.inj h
        exact Nat.succ_le_succ (ih ‹_› hm' hp')
      · exact absurd hp' (not_matches_of_longest?_eq_none ‹_› hm')

/-- **A length is found exactly when the piece of that length matches and no longer one does.** -/
theorem longest?_eq_some_iff {p : Pattern} {s : List Char} {n : Nat} :
    longest? p s = some n ↔
      n ≤ s.length ∧ Matches p (s.take n) ∧ ∀ m ≤ s.length, Matches p (s.take m) → m ≤ n := by
  constructor
  · intro h
    exact ⟨(matches_of_longest? h).1, (matches_of_longest? h).2, fun m hm => le_of_longest? h hm⟩
  · rintro ⟨hn, hp, hmax⟩
    match h : longest? p s with
    | none => exact absurd hp (not_matches_of_longest?_eq_none h hn)
    | some k =>
      have h1 := hmax k (matches_of_longest? h).1 (matches_of_longest? h).2
      have h2 := le_of_longest? h hn hp
      rw [show k = n by omega]

/-! ## The characters of a pattern -/

/-- All characters that a pattern can match are of a class. -/
def Within (f : Char → Prop) : Pattern → Prop
  | never | nil => True
  | char g => ∀ c, g c = true → f c
  | seq p q | alt p q => p.Within f ∧ q.Within f
  | star p => p.Within f

/-- The first character of a match is of a class. -/
def Begins (f : Char → Prop) : Pattern → Prop
  | never | nil => True
  | char g => ∀ c, g c = true → f c
  | seq p q => p.Begins f ∧ (p.acceptsNil = true → q.Begins f)
  | alt p q => p.Begins f ∧ q.Begins f
  | star p => p.Begins f

variable {p : Pattern} {f : Char → Prop} {s : List Char}

theorem Matches.within (h : p.Matches s) (hp : p.Within f) : ∀ c ∈ s, f c := by
  induction h with
  | nil => simp
  | char hc => simpa using hp _ hc
  | seq _ _ ihp ihq => exact List.forall_mem_append.2 ⟨ihp hp.1, ihq hp.2⟩
  | altLeft _ ih => exact ih hp.1
  | altRight _ ih => exact ih hp.2
  | starNil => simp
  | starCons _ _ ih ih' => exact List.forall_mem_append.2 ⟨ih hp, ih' hp⟩

theorem matches_star_char_iff {g : Char → Bool} : (star (char g)).Matches s ↔ ∀ c ∈ s, g c = true := by
  refine ⟨fun h => h.within fun c hc => hc, fun h => ?_⟩
  induction s with
  | nil => exact .starNil
  | cons c s ih =>
    obtain ⟨hc, hs⟩ := List.forall_mem_cons.1 h
    exact .starCons (.char hc) (ih hs)

theorem Matches.begins (h : p.Matches s) (hp : p.Begins f) : ∀ c ∈ s.head?, f c := by
  induction h with
  | nil => simp
  | char hc => simpa using hp _ hc
  | @seq p q s t hs _ ihp ihq =>
    cases s with
    | nil => exact ihq (hp.2 (acceptsNil_iff.2 hs))
    | cons d s => exact ihp hp.1
  | altLeft _ ih => exact ih hp.1
  | altRight _ ih => exact ih hp.2
  | starNil => simp
  | @starCons p s t _ _ ih ih' =>
    cases s with
    | nil => exact ih' hp
    | cons d s => exact ih hp

theorem within_literal {cs : List Char} : (literal cs).Within f ↔ ∀ c ∈ cs, f c := by
  induction cs with
  | nil => exact iff_of_true trivial nofun
  | cons c cs ih =>
    have hfirst : (∀ d, (d == c) = true → f d) ↔ f c :=
      ⟨fun h => h c (beq_self_eq_true c), fun h d hd => beq_iff_eq.1 hd ▸ h⟩
    rw [List.forall_mem_cons]
    exact and_congr hfirst ih

theorem within_oneOf {cs : List Char} : (oneOf cs).Within f ↔ ∀ c ∈ cs, f c :=
  forall_congr' fun _ => imp_congr_left List.contains_iff_mem

theorem within_many : (many p).Within f ↔ p.Within f := ⟨fun h => h.1, fun h => ⟨h, h⟩⟩

theorem within_optional : (optional p).Within f ↔ p.Within f := ⟨fun h => h.1, fun h => ⟨h, trivial⟩⟩

theorem within_seqs {ps : List Pattern} : (seqs ps).Within f ↔ ∀ p ∈ ps, p.Within f := by
  induction ps with
  | nil => exact iff_of_true trivial nofun
  | cons p ps ih =>
    rw [List.forall_mem_cons]
    exact and_congr_right fun _ => ih

theorem within_anyOf {ps : List Pattern} : (anyOf ps).Within f ↔ ∀ p ∈ ps, p.Within f := by
  induction ps with
  | nil => exact iff_of_true trivial nofun
  | cons p ps ih =>
    rw [List.forall_mem_cons]
    exact and_congr_right fun _ => ih

end Pattern

end LuaTree
