import LuaTree.Parse

/-!
# Proofs/Composition — what all computations made of the same words have in common

Some relations between computations follow from those of their parts and ask nothing of the grammar.
Such a relation holds between each production and itself, and so for whole sources, once it holds of the
words of `Parser/Basic` and is kept by composition (`Congruence`).  The two computations may have
remembered different things for giving back what they read, so a production is compared with itself at
answers that are alike (`Answer`).  A property of one computation is such a relation as well
(`Compositional`).

Two things that a word answers are known only together with what was done before or is done next, so
they count as one word: giving back a name that no `=` follows, and the span that a report is about.
-/

namespace LuaTree

open LuaTree.Parser

/-! ## Answers -/

/-- What computations may answer, and which answers differ at most in what they remember for giving back
what was read. -/
class Answer (α : Type) where
  Alike : α → α → Prop
  refl : ∀ a, Alike a a

/-- Answers that remember nothing. -/
class Plain (α : Type) [Answer α] : Prop where
  eq : ∀ {a b : α}, Answer.Alike a b → a = b

namespace Answer

/-- Equal answers. -/
@[reducible]
def plain (α : Type) : Answer α := ⟨Eq, fun _ => rfl⟩

instance : Answer Unit := plain Unit
instance : Answer Bool := plain Bool
instance : Answer Nat := plain Nat
instance : Answer Kind := plain Kind
instance : Answer Span := plain Span
instance : Answer (Option Kind) := plain (Option Kind)

instance : Plain Unit := ⟨id⟩
instance : Plain Bool := ⟨id⟩
instance : Plain Nat := ⟨id⟩
instance : Plain Kind := ⟨id⟩
instance : Plain Span := ⟨id⟩
instance : Plain (Option Kind) := ⟨id⟩

instance : Answer Opening := ⟨fun o o' => o.event = o'.event, fun _ => rfl⟩

instance : Answer Closed := ⟨fun c c' => c.event = c'.event ∧ c.kind = c'.kind, fun _ => ⟨rfl, rfl⟩⟩

instance : Answer (Option Closed) where
  Alike := Option.Rel Alike
  refl
    | none => .none
    | some c => .some (refl c)

/-- The answer of `tryName`. -/
instance : Answer (Opening × Kind × Bool) where
  Alike a b := Alike a.1 b.1 ∧ a.2 = b.2
  refl _ := ⟨rfl, rfl⟩

end Answer

export Answer (Alike)

/-- Rounds that decide the same. -/
inductive Parser.Round.Alike {σ α : Type} [Answer σ] [Answer α] : Round σ α → Round σ α → Prop
  | again {x y : σ} (h : Answer.Alike x y) : Round.Alike (.again x) (.again y)
  | done {a b : α} (h : Answer.Alike a b) : Round.Alike (.done a) (.done b)

instance {σ α : Type} [Answer σ] [Answer α] : Answer (Round σ α) where
  Alike := Round.Alike
  refl
    | .again x => .again (Answer.refl x)
    | .done a => .done (Answer.refl a)

/-- Entries to the same counted production. -/
inductive Entry.Alike : Entry → Entry → Prop
  | operation (levels : List Level) {o o' : Option Closed} (h : Answer.Alike o o') :
    Entry.Alike (.operation levels o) (.operation levels o')
  | unary : Entry.Alike .unary .unary
  | statements : Entry.Alike .statements .statements

theorem Entry.Alike.refl : ∀ e : Entry, Entry.Alike e e
  | .operation levels _ => .operation levels (Answer.refl _)
  | .unary => .unary
  | .statements => .statements

/-! ## Words that count as one -/

/-- Opens a node and consumes a name and the `=` behind it; without a `=` the name is given back.  The
answer has the kind of the next token, and tells whether both were consumed. -/
def Parser.tryName : Parser (Opening × Kind × Bool) := do
  let o ← start
  let k ← peek
  if k = .ident then
    bump
    if ← eat .equals then return (o, k, true)
    rollback o
  return (o, k, false)

/-- The kind of the token behind the next one, if that is a name. -/
def Parser.peekBehindName : Parser (Option Kind) := do
  if ← isAt .ident then return some (← peekAt 1)
  return none

/-- Reports a problem with all that was read since a moment. -/
def Parser.reportSince (p : Problem) (old : Snapshot) : Parser Unit := do
  report ⟨p, ← spanSince old, none, []⟩

/-- **A relation between computations that the words respect and that composition keeps.** -/
structure Congruence (R : (α : Type) → [Answer α] → Parser α → Parser α → Prop) : Prop where
  pure : ∀ {α : Type} [Answer α] {a b : α}, Alike a b → R α (Pure.pure a) (Pure.pure b)
  seq : ∀ {α β : Type} [Answer α] [Answer β] {p q : Parser α} {f g : α → Parser β}, R α p q →
    (∀ a b, Alike a b → R β (f a) (g b)) → R β (p >>= f) (q >>= g)
  fault : ∀ {α : Type} [Answer α] (e : Fault) (q : Parser α), R α (throw e) q
  loop : ∀ {σ α : Type} [Answer σ] [Answer α] {f g : σ → Parser (Round σ α)} {x y : σ},
    (∀ x y, Alike x y → R (Round σ α) (f x) (g y)) → Alike x y → R α (loop x f) (loop y g)
  peek : R Kind peek peek
  peekBehindName : R (Option Kind) peekBehindName peekBehindName
  currentSpan : R Span currentSpan currentSpan
  report : ∀ d : Diagnostic, d.problem ∉ [.recursionLimitExceeded, .unfinishedComment] →
    R Unit (report d) (report d)
  reportSince : ∀ p old old', p ∉ [.recursionLimitExceeded, .unfinishedComment] →
    R Unit (reportSince p old) (reportSince p old')
  start : R Opening start start
  complete : ∀ {o o' : Opening} (kind : Kind), Alike o o' → R Closed (complete o kind) (complete o' kind)
  abandon : ∀ {o o' : Opening}, Alike o o' → R Unit (abandon o) (abandon o')
  precede : ∀ {c c' : Closed}, Alike c c' → R Opening (precede c) (precede c')
  bump : R Unit bump bump
  nested : ∀ {p q : Parser (Option Closed)}, R (Option Closed) p q →
    R (Option Closed) (nested p) (nested q)
  tryName : R (Opening × Kind × Bool) tryName tryName

namespace Congruence

/-- Counted productions that are related wherever they are entered. -/
def Enters (R : (α : Type) → [Answer α] → Parser α → Parser α → Prop) (enter enter' : Enter) : Prop :=
  ∀ ⦃e e'⦄, Entry.Alike e e' → R (Option Closed) (enter e) (enter' e')

variable {R : (α : Type) → [Answer α] → Parser α → Parser α → Prop} (h : Congruence R)
include h

/-! ## Words made of others -/

section

variable {α β : Type} [Answer α] [Answer β]

theorem answer (a : α) : R α (Pure.pure a) (Pure.pure a) := h.pure (Answer.refl a)

theorem bind [Plain α] {p q : Parser α} {f g : α → Parser β} (hp : R α p q) (hf : ∀ a, R β (f a) (g a)) :
    R β (p >>= f) (q >>= g) :=
  h.seq hp fun a b hab => by
    obtain rfl := Plain.eq hab
    exact hf a

end

theorem isAt (k : Kind) : R Bool (isAt k) (isAt k) := h.bind h.peek fun _ => h.answer _

theorem isAtOneOf (set : KindSet) : R Bool (isAtOneOf set) (isAtOneOf set) :=
  h.bind h.peek fun _ => h.answer _

theorem isAtEnd : R Bool isAtEnd isAtEnd := h.isAt _

theorem problem {p : Problem} (hp : p ∉ [.recursionLimitExceeded, .unfinishedComment]) (detail : Option String) :
    R Unit (problem p detail) (problem p detail) :=
  h.bind h.currentSpan fun _ => h.report _ hp

theorem eat (k : Kind) : R Bool (eat k) (eat k) := by
  refine h.bind (h.isAt k) fun b => ?_
  split
  · exact h.bind h.bump fun _ => h.answer _
  · exact h.answer _

theorem expect (k : Kind) : R Bool (expect k) (expect k) := by
  refine h.bind (h.eat k) fun b => ?_
  split
  · exact h.answer _
  · exact h.bind (h.problem (by decide) _) fun _ => h.answer _

theorem expectClosing (k : Kind) (note : String) (span : Span) :
    R Bool (expectClosing k note span) (expectClosing k note span) := by
  refine h.bind (h.eat k) fun b => ?_
  split
  · exact h.answer _
  · exact h.bind h.currentSpan fun _ => h.bind (h.report _ (by simp)) fun _ => h.answer _

theorem require (k : Kind) : R Unit (require k) (require k) := by
  refine h.bind h.peek fun found => ?_
  split
  · exact h.fault _ _
  · exact h.answer _

end Congruence

/-! ## Properties of one computation -/

/-- A property that composition keeps. -/
structure Composes (P : (α : Type) → Parser α → Prop) : Prop where
  pure : ∀ {α : Type} (a : α), P α (Pure.pure a)
  bind : ∀ {α β : Type} {p : Parser α} {f : α → Parser β}, P α p → (∀ a, P β (f a)) → P β (p >>= f)

theorem Composes.eat {P : (α : Type) → Parser α → Prop} (h : Composes P) (hpeek : P Kind peek)
    (hbump : P Unit bump) (k : Kind) : P Bool (eat k) := by
  refine h.bind (h.bind hpeek fun _ => h.pure _) fun b => ?_
  split
  · exact h.bind hbump fun _ => h.pure _
  · exact h.pure _

/-- Such a property that what changes the events has. -/
structure Recording (P : (α : Type) → Parser α → Prop) : Prop extends Composes P where
  record : ∀ e, P Unit (record e)
  start : P Opening start
  amend : ∀ event change, P Unit (amend event change)

namespace Recording

variable {P : (α : Type) → Parser α → Prop} (h : Recording P)
include h

theorem complete (o : Opening) (kind : Kind) : P Closed (complete o kind) :=
  h.bind (h.amend _ _) fun _ => h.bind (h.record _) fun _ => h.pure _

theorem precede (c : Closed) : P Opening (precede c) :=
  h.bind h.start fun _ => h.bind (h.amend _ _) fun _ => h.pure _

end Recording

/-- **A property of all steps that the words are made of**, which composition keeps. -/
structure Stepwise (P : (α : Type) → Parser α → Prop) : Prop extends Recording P where
  fault : ∀ {α : Type} (e : Fault), P α (throw e)
  spanSince : ∀ old, P Span (spanSince old)
  report : ∀ d : Diagnostic, d.problem ∉ [.recursionLimitExceeded, .unfinishedComment] → P Unit (report d)
  move : ∀ position rest, P Unit (modify fun s => { s with position, rest })

namespace Stepwise

variable {P : (α : Type) → Parser α → Prop} (h : Stepwise P)
include h

theorem wrapUnknownFrom : ∀ (ts : List Token) (index : Nat), P Unit (wrapUnknownFrom index ts)
  | [], _ => h.pure _
  | t :: ts, index => by
    have ih := wrapUnknownFrom ts (index + 1)
    rw [Parser.wrapUnknownFrom]
    split
    · exact ih
    split
    · exact h.bind h.start fun o => h.bind (h.record _) fun _ => h.bind (h.move _ _) fun _ =>
        h.bind (h.spanSince _) fun _ => h.bind (h.report _ (by simp)) fun _ => h.bind (h.complete o _) fun _ => ih
    · exact h.pure _

theorem reportUnfinished (t : Token) : P Unit (reportUnfinished t) := by
  rw [Parser.reportUnfinished]
  split
  · split
    · exact h.pure _
    · exact h.report _ (by simp)
    · exact h.fault _
  · exact h.pure _

end Stepwise

/-- **A property that the words have and that composition keeps.** -/
structure Compositional (P : (α : Type) → Parser α → Prop) : Prop where
  pure : ∀ {α : Type} (a : α), P α (Pure.pure a)
  bind : ∀ {α β : Type} {p : Parser α} {f : α → Parser β}, P α p → (∀ a, P β (f a)) → P β (p >>= f)
  fault : ∀ {α : Type} (e : Fault), P α (throw e)
  bound : ∀ {α : Type} {f : Nat → Parser α}, (∀ n, P α (f n)) → P α (do f (← read).bound)
  peekAt : ∀ n, P Kind (peekAt n)
  currentSpan : P Span currentSpan
  spanSince : ∀ old, P Span (spanSince old)
  report : ∀ d : Diagnostic, d.problem ∉ [.recursionLimitExceeded, .unfinishedComment] → P Unit (report d)
  start : P Opening start
  complete : ∀ o kind, P Closed (complete o kind)
  abandon : ∀ o, P Unit (abandon o)
  precede : ∀ c, P Opening (precede c)
  wrapUnknown : P Unit wrapUnknown
  bump : P Unit bump
  nested : ∀ {p : Parser (Option Closed)}, P (Option Closed) p → P (Option Closed) (nested p)
  tryName : P (Opening × Kind × Bool) tryName

namespace Compositional

variable {P : (α : Type) → Parser α → Prop} (h : Compositional P)
include h

theorem rounds {σ α : Type} {round : σ → Parser (Round σ α)} (hround : ∀ x, P (Round σ α) (round x))
    (n : Nat) : ∀ x, P α (rounds round n x) := by
  induction n with
  | zero => exact fun _ => h.fault _
  | succ n ih =>
    intro x
    refine h.bind (hround x) fun r => ?_
    cases r with
    | again y => exact ih y
    | done a => exact h.pure a

theorem and {P' : (α : Type) → Parser α → Prop} (h' : Compositional P') :
    Compositional fun α p => P α p ∧ P' α p where
  pure a := ⟨h.pure a, h'.pure a⟩
  bind hp hf := ⟨h.bind hp.1 fun a => (hf a).1, h'.bind hp.2 fun a => (hf a).2⟩
  fault e := ⟨h.fault e, h'.fault e⟩
  bound hf := ⟨h.bound fun n => (hf n).1, h'.bound fun n => (hf n).2⟩
  peekAt n := ⟨h.peekAt n, h'.peekAt n⟩
  currentSpan := ⟨h.currentSpan, h'.currentSpan⟩
  spanSince old := ⟨h.spanSince old, h'.spanSince old⟩
  report d hd := ⟨h.report d hd, h'.report d hd⟩
  start := ⟨h.start, h'.start⟩
  complete o kind := ⟨h.complete o kind, h'.complete o kind⟩
  abandon o := ⟨h.abandon o, h'.abandon o⟩
  precede c := ⟨h.precede c, h'.precede c⟩
  wrapUnknown := ⟨h.wrapUnknown, h'.wrapUnknown⟩
  bump := ⟨h.bump, h'.bump⟩
  nested hp := ⟨h.nested hp.1, h'.nested hp.2⟩
  tryName := ⟨h.tryName, h'.tryName⟩

/-- Such a property relates a computation that has it to every other one. -/
theorem congruence : Congruence fun α _ p _ => P α p where
  pure _ := h.pure _
  seq hp hf := h.bind hp fun a => hf a a (Answer.refl a)
  fault e _ := h.fault e
  loop hround _ := h.bound fun n => h.rounds (fun x => hround x x (Answer.refl x)) n _
  peek := h.peekAt 0
  peekBehindName := by
    refine h.bind (h.bind (h.peekAt 0) fun _ => h.pure _) fun b => ?_
    split
    · exact h.bind (h.peekAt 1) fun _ => h.pure _
    · exact h.pure _
  currentSpan := h.currentSpan
  report := h.report
  reportSince _ _ _ hp := h.bind (h.spanSince _) fun _ => h.report _ hp
  start := h.start
  complete _ _ := h.complete _ _
  abandon _ := h.abandon _
  precede _ := h.precede _
  bump := h.bump
  nested := h.nested
  tryName := h.tryName

end Compositional

end LuaTree
