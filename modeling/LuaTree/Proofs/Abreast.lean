import LuaTree.Proofs.Outlook

/-!
# Proofs/Abreast — two runs side by side

The words of `Parser/Basic` tell the productions little: the kinds of the significant tokens ahead, and
spans that only reports see.  So two runs that are told alike take the same turns, whatever else differs
in their sources.  A **bond** is a relation between what two runs have read so far that is kept by every
pair of words; the productions then keep it as well, and nothing about them has to be known but their
text.  `Bond.Rows` is what a bond says of two moments in each run, `Alongside` says that two computations
lead from there to such rows again.
-/

namespace LuaTree

/-- Diagnostics that tell the same about spans that answer each other. -/
structure Diagnostic.Alike (Spans : Span → Span → Prop) (d e : Diagnostic) : Prop where
  problem : d.problem = e.problem
  span : Spans d.span e.span
  detail : d.detail = e.detail
  notes : List.Forall₂ (fun m n => Spans m.span n.span ∧ m.message = n.message) d.notes e.notes

/-- What the grammar does not report: the problems of single tokens, and the nesting limit. -/
def Problem.ungrammatical : List Problem :=
  [.unexpectedCharacter, .unfinishedString, .unfinishedComment, .recursionLimitExceeded]

/-- An operand has been read already. -/
def Entry.resumed : Entry → Bool
  | .operation _ operand => operand.isSome
  | _ => false

namespace Parser

/-! ## Runs of two computations -/

section Both

variable {α β σ : Type} {i j : Input} {s t s' t' : State} {p q : Parser α} {f g : α → Parser β}
  {P Q : α → State → α → State → Prop} {S : β → State → β → State → Prop}

/-- **What holds of the answers and the states of two runs**, if both end without a fault. -/
def Both (i j : Input) (p q : Parser α) (s t : State) (Q : α → State → α → State → Prop) : Prop :=
  ∀ a s' b t', p i s = .ok (a, s') → q j t = .ok (b, t') → Q a s' b t'

namespace Both

theorem mono (h : Both i j p q s t P) (hPQ : ∀ a s' b t', P a s' b t' → Q a s' b t') :
    Both i j p q s t Q :=
  fun a s' b t' hp hq => hPQ a s' b t' (h a s' b t' hp hq)

/-- What holds of each run for itself. -/
theorem of_yields {A B : α → State → Prop} (hp : Yields p i s A) (hq : Yields q j t B) :
    Both i j p q s t fun a s' b t' => A a s' ∧ B b t' :=
  fun a s' b t' hrun hrun' => ⟨hp a s' hrun, hq b t' hrun'⟩

theorem pure {a b : α} (h : Q a s b t) : Both i j (pure a) (pure b) s t Q := by
  intro _ _ _ _ hrun hrun'
  cases hrun
  cases hrun'
  exact h

theorem bind (h : Both i j p q s t Q) (hf : ∀ a s' b t', Q a s' b t' → Both i j (f a) (g b) s' t' S) :
    Both i j (p >>= f) (q >>= g) s t S := by
  intro a s' b t' hrun hrun'
  obtain ⟨a₁, s₁, hp, hf₁⟩ := run_bind hrun
  obtain ⟨b₁, t₁, hq, hg₁⟩ := run_bind hrun'
  exact hf a₁ s₁ b₁ t₁ (h a₁ s₁ b₁ t₁ hp hq) a s' b t' hf₁ hg₁

theorem assoc {γ : Type} {f' g' : β → Parser γ} {S : γ → State → γ → State → Prop}
    (h : Both i j (p >>= fun a => f a >>= f') (q >>= fun b => g b >>= g') s t S) :
    Both i j (p >>= f >>= f') (q >>= g >>= g') s t S := by
  rwa [bind_assoc, bind_assoc]

theorem read {f g : Input → Parser β} (h : Both i j (f i) (g j) s t S) :
    Both i j (MonadReader.read >>= f) (MonadReader.read >>= g) s t S :=
  h

theorem fault {e e' : Fault} : Both i j (throw e) (throw e') s t Q := nofun

/-- **Two loops keep an invariant of their rounds**, however many of them each may do. -/
theorem rounds {round round' : σ → Parser (Round σ α)} {I : σ → State → σ → State → Prop}
    (hround : ∀ x s y t, I x s y t → Both i j (round x) (round' y) s t fun r s' r' t' =>
      match r, r' with
      | .again x, .again y => I x s' y t'
      | .done a, .done b => Q a s' b t'
      | _, _ => False) :
    ∀ (n m : Nat) (x : σ) (s : State) (y : σ) (t : State), I x s y t →
      Both i j (Parser.rounds round n x) (Parser.rounds round' m y) s t Q
  | 0, _, _, _, _, _, _ => nofun
  | _ + 1, 0, _, _, _, _, _ => fun _ _ _ _ _ hrun => nomatch hrun
  | n + 1, m + 1, x, s, y, t, h => by
    refine (hround x s y t h).bind fun r s' r' t' hr => ?_
    match r, r', hr with
    | .again x, .again y, hr => exact rounds hround n m x s' y t' hr
    | .done a, .done b, hr => exact .pure hr

theorem loop {round round' : σ → Parser (Round σ α)} {I : σ → State → σ → State → Prop} {x y : σ}
    (h : I x s y t) (hround : ∀ x s y t, I x s y t → Both i j (round x) (round' y) s t fun r s' r' t' =>
      match r, r' with
      | .again x, .again y => I x s' y t'
      | .done a, .done b => Q a s' b t'
      | _, _ => False) :
    Both i j (Parser.loop x round) (Parser.loop y round') s t Q :=
  .read (rounds hround i.bound j.bound x s y t h)

/-- **Counted productions** at the same depth and under the same limit are entered together or not at
all. -/
theorem nested {p q : Parser (Option Closed)} {Q : Option Closed → State → Option Closed → State → Prop}
    (hsettings : i.settings = j.settings) (hdepth : s.depth = t.depth)
    (hbail : ∀ limit, Both i j (bailOut limit) (bailOut limit) s t fun _ s' _ t' => Q none s' none t')
    (hp : Both i j p q s.deeper t.deeper fun a s' b t' => Q a s'.upper b t'.upper) :
    Both i j (Parser.nested p) (Parser.nested q) s t Q := by
  intro a s' b t' hrun hrun'
  rcases nested_yields a s' hrun with ⟨k, hk, hle, hp₁, rfl⟩ | ⟨hlt, s₁, hp₁, rfl⟩ <;>
    rcases nested_yields b t' hrun' with ⟨k', hk', hle', hp₂, rfl⟩ | ⟨hlt', t₁, hp₂, rfl⟩
  · obtain rfl : k = k' := by
      rw [hsettings] at hk
      exact Option.mem_unique hk hk'
    exact hbail k () s' () t' hp₁ hp₂
  · exact absurd (hlt' k (hsettings ▸ hk)) (by omega)
  · exact absurd (hlt k' (hsettings ▸ hk')) (by omega)
  · exact hp a s₁ b t₁ hp₁ hp₂

end Both

end Both

/-! ## Bonds -/

/-- **A relation between what two runs have read so far** that every pair of words keeps. -/
structure Bond (i j : Input) where
  /-- What holds of two moments in each run and of the drafts recorded between them. -/
  Holds : Outlook → Outlook → Outlook → Outlook → List Draft → List Draft → Prop
  /-- Which spans answer each other. -/
  Spans : Span → Span → Prop
  settings : i.settings = j.settings
  now : ∀ {a₀ b₀ a b F G}, Holds a₀ b₀ a b F G → Holds a b a b [] []
  trans : ∀ {a₀ b₀ a b a' b' F G F' G'}, Holds a₀ b₀ a b F G → Holds a b a' b' F' G' →
    Holds a₀ b₀ a' b' (F ++ F') (G ++ G')
  blank_left : ∀ {a₀ b₀ a b F G}, Holds a₀ b₀ a b (.blank :: F) G ↔ Holds a₀ b₀ a b F G
  blank_right : ∀ {a₀ b₀ a b F G}, Holds a₀ b₀ a b F (.blank :: G) ↔ Holds a₀ b₀ a b F G
  wrapping : ∀ {a₀ b₀ a b x y}, Holds a₀ b₀ a b [.grown x] [.grown y] →
    Holds a₀ b₀ a b [.wrapping x] [.wrapping y]
  close : ∀ {a₀ b₀ a b d e F G k}, Holds a₀ b₀ a b (d :: F) (e :: G) → d.Waits → e.Waits → k ≠ .error →
    (k = .garbage → a₀.ahead ≠ [] ∧ b₀.ahead ≠ []) →
    Holds a₀ b₀ a b [.grown (d.close k F)] [.grown (e.close k G)]
  kinds : ∀ {a₀ b₀ a b F G}, Holds a₀ b₀ a b F G →
    a.significant.map Token.kind = b.significant.map Token.kind
  span : ∀ {a₀ b₀ a b F G}, Holds a₀ b₀ a b F G → a.Ready i → b.Ready j →
    Spans (a.span i.size) (b.span j.size)
  spanOf : ∀ {a₀ b₀ a b F G x y}, Holds a₀ b₀ a b F G → a.Ready i → b.Ready j → a₀.Ready i → b₀.Ready j →
    a₀.ahead = Draft.leavesOfList F ++ a.ahead → b₀.ahead = Draft.leavesOfList G ++ b.ahead →
    SpanOf a i.size (Draft.leavesOfList F) x → SpanOf b j.size (Draft.leavesOfList G) y → Spans x y
  told : ∀ {a₀ b₀ a b F G d e}, Holds a₀ b₀ a b F G → a.Ready i → b.Ready j → d.Alike Spans e →
    a.Recalls i d → b.Recalls j e → d.problem ∉ Problem.ungrammatical → Holds a₀ b₀ (a.told d) (b.told e) F G
  settle : ∀ {a b}, Holds a b a b [] [] → a.Faces i → b.Faces j →
    Holds a b a.settle b.settle (unknownNodes a.ahead) (unknownNodes b.ahead)
  advance : ∀ {a b l m ls ms}, Holds a b a b [] [] → a.Ready i → b.Ready j → a.ahead = l :: ls →
    b.ahead = m :: ms → Holds a b a.advance b.advance (.leaf l.2 l.1 :: unknownNodes ls)
      (.leaf m.2 m.1 :: unknownNodes ms)
  bail : ∀ {a b} limit, Holds a b a b [] [] → a.Ready i → b.Ready j →
    Holds a b (a.bail limit i.size) (b.bail limit j.size) a.aside b.aside

/-- Snapshots that tell what was read since two moments in front of significant tokens. -/
structure Marked (i j : Input) (s t : State) (m m' : Snapshot) : Prop where
  left : m.Marks i s
  right : m'.Marks j t
  leftSettled : s.Settled
  rightSettled : t.Settled

/-- Openings that wait for their kind, the drafts `d` and `e` behind the events of `s` and `t`. -/
structure Opened (i j : Input) (s t : State) (o o' : Opening) (d e : Draft) : Prop where
  left : Opens i s o d
  right : Opens j t o' e
  marked : Marked i j s t o.snapshot o'.snapshot

/-- Drafts with tokens, in both of two runs. -/
structure Filled (ds es : List Draft) : Prop where
  left : Draft.leavesOfList ds ≠ []
  right : Draft.leavesOfList es ≠ []

theorem Filled.after {F G ds es : List Draft} (h : Filled ds es) : Filled (F ++ ds) (G ++ es) := by
  constructor <;> rw [Draft.leavesOfList_append]
  · exact List.append_ne_nil_of_right_ne_nil _ h.left
  · exact List.append_ne_nil_of_right_ne_nil _ h.right

theorem Filled.cons {d e : Draft} {ds es : List Draft} (h : Filled ds es) : Filled (d :: ds) (e :: es) :=
  Filled.after (F := [d]) (G := [e]) h

theorem Filled.before {F G ds es : List Draft} (h : Filled ds es) : Filled (ds ++ F) (es ++ G) := by
  constructor <;> rw [Draft.leavesOfList_append]
  · exact List.append_ne_nil_of_left_ne_nil h.left _
  · exact List.append_ne_nil_of_left_ne_nil h.right _

/-- A node around drafts with tokens has tokens. -/
theorem Filled.close {d e : Draft} {F G : List Draft} (h : Filled (d :: F) (e :: G)) (hd : d.Waits)
    (he : e.Waits) (k : Kind) : Filled [.grown (d.close k F)] [.grown (e.close k G)] := by
  constructor <;> simp only [Draft.leavesOfList, Draft.leaves, List.append_nil]
  · rw [Draft.leaves_close hd]
    exact h.left
  · rw [Draft.leaves_close he]
    exact h.right

namespace Bond

variable {i j : Input} (B : Bond i j)

/-- **What two runs have read between two moments each**, in front of significant tokens, at the same
depth. -/
structure Rows (s₀ t₀ s t : State) (F G : List Draft) : Prop where
  left : Draws i s₀ s F
  right : Draws j t₀ t G
  leftSettled : s.Settled
  rightSettled : t.Settled
  depth : s.depth = t.depth
  holds : B.Holds s₀.outlook t₀.outlook s.outlook t.outlook F G

/-- Rows that begin with some drafts. -/
def Abreast (s₀ t₀ s t : State) (ds es : List Draft) : Prop :=
  ∃ F G, B.Rows s₀ t₀ s t (ds ++ F) (es ++ G)

/-- Nodes of one kind and with tokens, one in each run, which can still be wrapped. -/
structure Finished (s₀ t₀ s t : State) (x y : Closed) : Prop where
  kind : x.kind = y.kind
  marked : Marked i j s₀ t₀ x.snapshot y.snapshot
  row : ∃ b c : Branch, B.Rows s₀ t₀ s t [.grown b] [.grown c] ∧ Filled [.grown b] [.grown c] ∧
    x.event + b.width = s.events.size ∧ y.event + c.width = t.events.size

variable {α β : Type} {s₀ t₀ s t s' t' : State} {F G : List Draft}

/-- **Computations that lead from related states to related states**, with the same answers. -/
def Alongside (p q : Parser α) : Prop :=
  ∀ s t, B.Rows s t s t [] [] → Both i j p q s t fun a s' b t' => a = b ∧ B.Abreast s t s' t' [] []

/-- Spans of tokens that were read before. -/
structure Noted (s t : State) (x y : Span) : Prop where
  spans : B.Spans x y
  left : s.outlook.Past i x
  right : t.outlook.Past j y

/-- Spans of tokens among drafts. -/
structure Among (ds es : List Draft) (x y : Span) : Prop where
  spans : B.Spans x y
  left : ∃ l ∈ Draft.leavesOfList ds, x = l.1.span
  right : ∃ m ∈ Draft.leavesOfList es, y = m.1.span

/-- Computations of this sort that record no drafts. -/
def Beside (p q : Parser α) : Prop :=
  ∀ s t, B.Rows s t s t [] [] → Both i j p q s t fun a s' b t' => a = b ∧ B.Rows s t s' t' [] []

/-- What a counted production leaves: a finished node in both runs, or in neither.  Tokens have been read if
the production was `resumed` behind an operand. -/
def Result (resumed : Bool) (s₀ t₀ s t : State) : Option Closed → Option Closed → Prop
  | none, none => ∃ F G, B.Rows s₀ t₀ s t F G ∧ (resumed = true → Filled F G)
  | some x, some y => B.Finished s₀ t₀ s t x y
  | _, _ => False

/-- What a production goes on from: a node that has been read since `s₀` and `t₀`, or nothing. -/
def Operand (s₀ t₀ s t : State) : Option Closed → Option Closed → Prop
  | none, none => s₀ = s ∧ t₀ = t ∧ B.Rows s t s t [] []
  | some x, some y => B.Finished s₀ t₀ s t x y
  | _, _ => False

/-- Computations that answer with a node. -/
def Builds (p q : Parser Closed) : Prop :=
  ∀ s t, B.Rows s t s t [] [] → Both i j p q s t fun x s' y t' => B.Finished s t s' t' x y

/-- Computations that may answer with a node. -/
def Finds (p q : Parser (Option Closed)) : Prop :=
  ∀ s t, B.Rows s t s t [] [] → Both i j p q s t fun a s' b t' => B.Result false s t s' t' a b

/-- Entries to the same counted production. -/
inductive Entered (s₀ t₀ s t : State) : Entry → Entry → Prop
  | operation (levels : List Level) {o o' : Option Closed} (h : B.Operand s₀ t₀ s t o o') :
    Entered s₀ t₀ s t (.operation levels o) (.operation levels o')
  | unary (h : B.Operand s₀ t₀ s t none none) : Entered s₀ t₀ s t .unary .unary
  | statements (h : B.Operand s₀ t₀ s t none none) : Entered s₀ t₀ s t .statements .statements

/-- **Counted productions that are entered side by side.** -/
def Enters (enter enter' : Enter) : Prop :=
  ∀ s₀ t₀ s t e e', B.Entered s₀ t₀ s t e e' →
    Both i j (enter e) (enter' e') s t fun a s' b t' => B.Result e.resumed s₀ t₀ s' t' a b

variable {B}

namespace Rows

variable {F' G' : List Draft}

theorem leftSound (w : B.Rows s₀ t₀ s t F G) : s.Sound i := { w.left.coherent with settled := w.leftSettled }

theorem rightSound (w : B.Rows s₀ t₀ s t F G) : t.Sound j :=
  { w.right.coherent with settled := w.rightSettled }

theorem leftReady (w : B.Rows s₀ t₀ s t F G) : s.outlook.Ready i :=
  ⟨faces_of_coherent w.left.coherent, w.leftSettled⟩

theorem rightReady (w : B.Rows s₀ t₀ s t F G) : t.outlook.Ready j :=
  ⟨faces_of_coherent w.right.coherent, w.rightSettled⟩

/-- Nothing has been read since now. -/
theorem now (w : B.Rows s₀ t₀ s t F G) : B.Rows s t s t [] [] :=
  ⟨.refl w.left.coherent, .refl w.right.coherent, w.leftSettled, w.rightSettled, w.depth, B.now w.holds⟩

theorem trans (w : B.Rows s₀ t₀ s t F G) (w' : B.Rows s t s' t' F' G') :
    B.Rows s₀ t₀ s' t' (F ++ F') (G ++ G') :=
  ⟨w.left.trans w'.left, w.right.trans w'.right, w'.leftSettled, w'.rightSettled, w'.depth,
    B.trans w.holds w'.holds⟩

theorem abreast (w : B.Rows s₀ t₀ s t F G) : B.Abreast s₀ t₀ s t [] [] := ⟨F, G, w⟩

theorem operand (w : B.Rows s₀ t₀ s t F G) : B.Operand s t s t none none := ⟨rfl, rfl, w.now⟩

end Rows

namespace Abreast

variable {ds es : List Draft}

theorem now (w : B.Abreast s₀ t₀ s t ds es) : B.Rows s t s t [] [] :=
  let ⟨_, _, w⟩ := w
  w.now

theorem trans (w : B.Abreast s₀ t₀ s t ds es) (w' : B.Abreast s t s' t' [] []) :
    B.Abreast s₀ t₀ s' t' ds es := by
  obtain ⟨F, G, w⟩ := w
  obtain ⟨F', G', w'⟩ := w'
  exact ⟨F ++ F', G ++ G', by simpa using w.trans w'⟩

/-- Looking comes before reading. -/
theorem after (w' : B.Abreast s t s' t' ds es) (w : B.Rows s₀ t₀ s t [] []) : B.Abreast s₀ t₀ s' t' ds es :=
  let ⟨F, G, w'⟩ := w'
  ⟨F, G, w.trans w'⟩

end Abreast

namespace Finished

variable {x y : Closed}

theorem abreast (w : B.Finished s₀ t₀ s t x y) : B.Abreast s₀ t₀ s t [] [] :=
  let ⟨_, _, _, _, w, _⟩ := w
  w.abreast

theorem after (w : B.Rows s₀ t₀ s t [] []) (w' : B.Finished s t s' t' x y) : B.Finished s₀ t₀ s' t' x y := by
  obtain ⟨hkind, ⟨hx, hy, hs, ht⟩, b, c, w', h⟩ := w'
  have hleft : s₀.ahead = s.ahead := w.left.ahead
  have hright : t₀.ahead = t.ahead := w.right.ahead
  refine ⟨hkind, ⟨?_, ?_, ?_, ?_⟩, b, c, w.trans w', h⟩
  · exact ⟨hx.rest, hx.position_le, hx.ahead.trans hleft.symm⟩
  · exact ⟨hy.rest, hy.position_le, hy.ahead.trans hright.symm⟩
  · rwa [State.Settled, hleft]
  · rwa [State.Settled, hright]

end Finished

section

variable {a b : Option Closed} {resumed : Bool}

theorem Result.after (w : B.Rows s₀ t₀ s t [] []) (h : B.Result resumed s t s' t' a b) :
    B.Result resumed s₀ t₀ s' t' a b :=
  match a, b, h with
  | none, none, ⟨F, G, w', h⟩ => ⟨F, G, w.trans w', h⟩
  | some _, some _, h => Finished.after w h

theorem Result.row (h : B.Result resumed s₀ t₀ s t a b) :
    ∃ F G, B.Rows s₀ t₀ s t F G ∧ (resumed = true → Filled F G) :=
  match a, b, h with
  | none, none, h => h
  | some _, some _, ⟨_, _, _, _, w, hfilled, _⟩ => ⟨_, _, w, fun _ => hfilled⟩

theorem Result.abreast (h : B.Result resumed s₀ t₀ s t a b) : B.Abreast s₀ t₀ s t [] [] :=
  let ⟨F, G, w, _⟩ := h.row
  ⟨F, G, w⟩

/-- What a production leaves without a node. -/
theorem Result.absent (w : B.Abreast s₀ t₀ s t [] []) : B.Result false s₀ t₀ s t none none :=
  let ⟨F, G, w⟩ := w
  ⟨F, G, w, nofun⟩

end

/-! ## Composition -/

section

variable {p q : Parser α} {f g : α → Parser β} {σ : Type}

theorem Beside.alongside (h : B.Beside p q) : B.Alongside p q := fun s t w =>
  (h s t w).mono fun _ _ _ _ ⟨hab, w⟩ => ⟨hab, w.abreast⟩

theorem Beside.bind (hp : B.Beside p q) (hf : ∀ a, B.Beside (f a) (g a)) : B.Beside (p >>= f) (q >>= g) := by
  refine fun s t w => (hp s t w).bind ?_
  rintro a s' _ t' ⟨rfl, w'⟩
  exact (hf a s' t' w'.now).mono fun _ _ _ _ ⟨h, w''⟩ => ⟨h, w'.trans w''⟩

theorem Beside.builds {f g : α → Parser Closed} (hp : B.Beside p q) (hf : ∀ a, B.Builds (f a) (g a)) :
    B.Builds (p >>= f) (q >>= g) := by
  refine fun s t w => (hp s t w).bind ?_
  rintro a s' _ t' ⟨rfl, w'⟩
  exact (hf a s' t' w'.now).mono fun _ _ _ _ => .after w'

theorem Beside.finds {f g : α → Parser (Option Closed)} (hp : B.Beside p q)
    (hf : ∀ a, B.Finds (f a) (g a)) : B.Finds (p >>= f) (q >>= g) := by
  refine fun s t w => (hp s t w).bind ?_
  rintro a s' _ t' ⟨rfl, w'⟩
  exact (hf a s' t' w'.now).mono fun _ _ _ _ => .after w'

theorem Builds.finds {p q : Parser Closed} (h : B.Builds p q) :
    B.Finds (do return some (← p)) (do return some (← q)) := fun s t w =>
  (h s t w).bind fun _ _ _ _ h => .pure h

theorem Alongside.bind (hp : B.Alongside p q) (hf : ∀ a, B.Alongside (f a) (g a)) :
    B.Alongside (p >>= f) (q >>= g) := by
  refine fun s t w => (hp s t w).bind ?_
  rintro a s' _ t' ⟨rfl, w'⟩
  exact (hf a s' t' w'.now).mono fun _ _ _ _ ⟨h, w''⟩ => ⟨h, w'.trans w''⟩

variable (B)

theorem pure (a : α) : B.Beside (Pure.pure a) (Pure.pure a) := fun _ _ w => .pure ⟨rfl, w⟩

theorem fault (e e' : Fault) : B.Beside (throw e : Parser α) (throw e') := fun _ _ _ => .fault

variable {B}

/-- Loops whose rounds go alongside, however many of them each may do. -/
theorem Alongside.rounds {round round' : σ → Parser (Round σ α)}
    (hround : ∀ x, B.Alongside (round x) (round' x)) (n m : Nat) (x : σ) :
    B.Alongside (Parser.rounds round n x) (Parser.rounds round' m x) := by
  intro s t w
  refine Both.rounds (I := fun x s' y t' => x = y ∧ B.Abreast s t s' t' [] []) ?_ n m x s x t ⟨rfl, w.abreast⟩
  rintro x s' _ t' ⟨rfl, w⟩
  refine (hround x s' t' w.now).mono ?_
  rintro (y | a) s₁ _ t₁ ⟨rfl, w'⟩
  · exact ⟨rfl, w.trans w'⟩
  · exact ⟨rfl, w.trans w'⟩

theorem Alongside.loop {round round' : σ → Parser (Round σ α)}
    (hround : ∀ x, B.Alongside (round x) (round' x)) (x : σ) :
    B.Alongside (Parser.loop x round) (Parser.loop x round') := fun s t w =>
  .read (Alongside.rounds hround i.bound j.bound x s t w)

/-- **What goes alongside comes after what was read before.** -/
theorem Abreast.step {ds es : List Draft} {S : β → State → β → State → Prop}
    (w : B.Abreast s₀ t₀ s t ds es) (hp : B.Alongside p q)
    (hf : ∀ a s' t', B.Abreast s₀ t₀ s' t' ds es → Both i j (f a) (g a) s' t' S) :
    Both i j (p >>= f) (q >>= g) s t S := by
  refine (hp s t w.now).bind ?_
  rintro a s' _ t' ⟨rfl, w'⟩
  exact hf a s' t' (w.trans w')

/-- A node comes after what was read before. -/
theorem Abreast.build {p q : Parser Closed} {f g : Closed → Parser β} {ds es : List Draft}
    {S : β → State → β → State → Prop} (w : B.Abreast s₀ t₀ s t ds es) (hp : B.Builds p q)
    (hf : ∀ x y s' t', B.Abreast s₀ t₀ s' t' ds es → Both i j (f x) (g y) s' t' S) :
    Both i j (p >>= f) (q >>= g) s t S :=
  (hp s t w.now).bind fun x s' y t' w' => hf x y s' t' (w.trans w'.abreast)

/-- Tokens come after what was read before. -/
theorem Abreast.filled {d e : Draft} (w : B.Abreast s₀ t₀ s t [d] [e]) (w' : B.Rows s t s' t' F G)
    (h : Filled F G) : ∃ ds es, Filled ds es ∧ B.Abreast s₀ t₀ s' t' (d :: ds) (e :: es) := by
  obtain ⟨F₀, G₀, w⟩ := w
  exact ⟨F₀ ++ F, G₀ ++ G, h.after, [], [], by simpa using w.trans w'⟩

/-- Such a node has tokens. -/
theorem Abreast.construct {d e : Draft} {p q : Parser Closed} {f g : Closed → Parser β}
    {S : β → State → β → State → Prop} (w : B.Abreast s₀ t₀ s t [d] [e]) (hp : B.Builds p q)
    (hf : ∀ {ds es}, Filled ds es → ∀ x y s' t', B.Abreast s₀ t₀ s' t' (d :: ds) (e :: es) →
      Both i j (f x) (g y) s' t' S) : Both i j (p >>= f) (q >>= g) s t S := by
  refine (hp s t w.now).bind fun x s' y t' ⟨_, _, b, c, w', h, _⟩ => ?_
  obtain ⟨ds, es, h, w⟩ := w.filled w' h
  exact hf h x y s' t' w

theorem Abreast.last {ds es : List Draft} (w : B.Abreast s₀ t₀ s t ds es) (hp : B.Alongside p q) :
    Both i j p q s t fun a s' b t' => a = b ∧ B.Abreast s₀ t₀ s' t' ds es :=
  (hp s t w.now).mono fun _ _ _ _ ⟨h, w'⟩ => ⟨h, w.trans w'⟩

theorem Builds.bind {p q : Parser Closed} {f g : Closed → Parser β} (hp : B.Builds p q)
    (hf : ∀ x y, B.Alongside (f x) (g y)) : B.Alongside (p >>= f) (q >>= g) := fun _ _ w =>
  w.abreast.build hp fun x y _ _ w => w.last (hf x y)

/-- A finished node stays as it is while no drafts are recorded. -/
theorem Finished.looked {x y : Closed} (w : B.Finished s₀ t₀ s t x y) (w' : B.Rows s t s' t' [] []) :
    B.Finished s₀ t₀ s' t' x y := by
  obtain ⟨hkind, hmarked, b, c, w, hfilled, hb, hc⟩ := w
  have hsize {i : Input} {s s' : State} (h : Draws i s s' []) : s'.events.size = s.events.size := by
    rw [← Array.length_toList, ← Array.length_toList, h.events]
    simp [Draft.eventsOfList]
  refine ⟨hkind, hmarked, b, c, w.trans w', hfilled, ?_, ?_⟩
  · rw [hb, hsize w'.left]
  · rw [hc, hsize w'.right]

theorem Finished.step {x y : Closed} {S : β → State → β → State → Prop}
    (w : B.Finished s₀ t₀ s t x y) (hp : B.Beside p q)
    (hf : ∀ a s' t', B.Finished s₀ t₀ s' t' x y → Both i j (f a) (g a) s' t' S) :
    Both i j (p >>= f) (q >>= g) s t S := by
  refine (hp s t w.abreast.now).bind ?_
  rintro a s' _ t' ⟨rfl, w'⟩
  exact hf a s' t' (w.looked w')

end

/-! ## Looking -/

theorem peekAt_both (w : B.Rows s t s t [] []) (n : Nat) : Both i j (Parser.peekAt n) (Parser.peekAt n) s t
    fun a s' b t' => a = b ∧ a = s.significant[n]?.elim .error Token.kind ∧ B.Rows s t s' t' [] [] := by
  refine (Both.of_yields (peekAt_yields n) (peekAt_yields n)).mono ?_
  rintro a _ b _ ⟨⟨rfl, rfl⟩, rfl, rfl⟩
  have hkinds := congrArg (fun ks => ks[n]?.elim Kind.error id) (B.kinds w.holds)
  simp only [State.significant_outlook, List.getElem?_map, Option.elim_map] at hkinds
  refine ⟨hkinds, rfl, ?_⟩
  exact ⟨⟨⟨w.left.coherent, { w.left.coherent with }, by simp [State.look, Draft.eventsOfList], rfl, rfl,
    List.prefix_rfl⟩, trivial⟩, ⟨⟨w.right.coherent, { w.right.coherent with },
    by simp [State.look, Draft.eventsOfList], rfl, rfl, List.prefix_rfl⟩, trivial⟩, w.leftSettled,
    w.rightSettled, w.depth, w.holds⟩

theorem isAt_both (w : B.Rows s t s t [] []) (k : Kind) : Both i j (Parser.isAt k) (Parser.isAt k) s t
    fun a s' b t' => a = b ∧ (a = true ↔ s.next = k) ∧ B.Rows s t s' t' [] [] := by
  refine Both.bind (p := Parser.peek) (q := Parser.peek) (peekAt_both w 0) ?_
  rintro k' s' _ t' ⟨rfl, hk, w'⟩
  refine .pure ⟨rfl, ?_, w'⟩
  rw [beq_iff_eq, hk, State.next, List.head?_eq_getElem?]

variable (B)

theorem peekAt (n : Nat) : B.Beside (Parser.peekAt n) (Parser.peekAt n) := fun _ _ w =>
  (peekAt_both w n).mono fun _ _ _ _ ⟨h, _, w⟩ => ⟨h, w⟩

theorem peek : B.Beside Parser.peek Parser.peek := B.peekAt 0

theorem isAt (k : Kind) : B.Beside (Parser.isAt k) (Parser.isAt k) := B.peek.bind fun _ => B.pure _

theorem isAtOneOf (set : KindSet) : B.Beside (Parser.isAtOneOf set) (Parser.isAtOneOf set) :=
  B.peek.bind fun _ => B.pure _

theorem require (k : Kind) : B.Beside (Parser.require k) (Parser.require k) := by
  refine B.peek.bind fun found => ?_
  split
  · exact B.fault _ _
  · exact B.pure _

variable {B}

theorem currentSpan_both {S : β → State → β → State → Prop} {f g : Span → Parser β}
    (h : Both i j (f (s.outlook.span i.size)) (g (t.outlook.span j.size)) s t S) :
    Both i j (Parser.currentSpan >>= f) (Parser.currentSpan >>= g) s t S := by
  refine Both.bind (Q := fun x s' y t' => x = s.outlook.span i.size ∧ s' = s ∧ y = t.outlook.span j.size ∧
    t' = t) ?_ ?_
  · intro x s' y t' hrun hrun'
    rw [currentSpan_eq] at hrun hrun'
    cases hrun
    cases hrun'
    exact ⟨rfl, rfl, rfl, rfl⟩
  · rintro _ _ _ _ ⟨rfl, rfl, rfl, rfl⟩
    exact h

/-- What was read since a significant token is behind. -/
theorem behind_of_spanOf {i : Input} {s₀ s : State} {F : List Draft} {x : Span} (hg : Grows i s₀ s F)
    (hs₀ : s₀.Settled) (hF : Draft.leavesOfList F ≠ []) (hx : SpanOf s.outlook i.size (Draft.leavesOfList F) x) :
    s.outlook.Behind i x := by
  obtain ⟨l, m, hl, hm, hstart, hstop⟩ := hx.resolve_right fun h => hF h.1
  obtain ⟨ls, hls⟩ := List.head?_eq_some_iff.1 hl
  have hahead : s₀.ahead = l :: ls ++ s.ahead := hls ▸ hg.ahead
  have hready : s₀.outlook.Ready i := ⟨faces_of_coherent hg.before, hs₀⟩
  obtain ⟨ms, hms⟩ := hready.faces
  refine ⟨ms, l, ls, m, ?_, hready.isSignificant hahead, hls ▸ hm, hstart, hstop⟩
  rw [List.append_assoc, ← hms]
  exact congrArg (ms ++ ·) hahead.symm

/-- The tokens of finished nodes answer each other. -/
theorem Finished.spanSince {x y : Closed} {S : β → State → β → State → Prop} {f g : Span → Parser β}
    (w : B.Finished s₀ t₀ s t x y) (hf : ∀ u v, B.Spans u v → s.outlook.Behind i u → t.outlook.Behind j v →
      Both i j (f u) (g v) s t S) :
    Both i j (Parser.spanSince x.snapshot >>= f) (Parser.spanSince y.snapshot >>= g) s t S := by
  obtain ⟨-, ⟨hleft, hright, hs, ht⟩, b, c, w, hfilled, -⟩ := w
  refine (Both.of_yields (spanSince_outlook w.left.toGrows hleft)
    (spanSince_outlook w.right.toGrows hright)).bind ?_
  rintro u _ v _ ⟨⟨rfl, hu⟩, rfl, hv⟩
  refine hf u v (B.spanOf w.holds w.leftReady w.rightReady ⟨faces_of_coherent w.left.before, hs⟩
    ⟨faces_of_coherent w.right.before, ht⟩ w.left.ahead w.right.ahead hu hv) ?_ ?_
  · exact behind_of_spanOf w.left.toGrows hs hfilled.left hu
  · exact behind_of_spanOf w.right.toGrows ht hfilled.right hv

/-! ## Reporting and consuming -/

/-- A report whose notes point to what was read before. -/
theorem Rows.report {d e : Diagnostic} (w : B.Rows s t s t [] []) (h : d.Alike B.Spans e)
    (hleft : s.outlook.Recalls i d) (hright : t.outlook.Recalls j e) (hd : d.problem ∉ Problem.ungrammatical) :
    Both i j (Parser.report d) (Parser.report e) s t fun a s' b t' => a = b ∧ B.Rows s t s' t' [] [] := by
  refine (Both.of_yields (.of_ensures (report_outlook w.left.coherent))
    (.of_ensures (report_outlook w.right.coherent))).mono ?_
  rintro _ s' _ t' ⟨⟨hg, hstays, hlook⟩, hg', hstays', hlook'⟩
  refine ⟨rfl, hg, hg', hstays.settled w.leftSettled, hstays'.settled w.rightSettled, ?_, ?_⟩
  · rw [hg.depth, hg'.depth, w.depth]
  · rw [hlook, hlook']
    exact B.told w.holds w.leftReady w.rightReady h hleft hright hd

/-- A report about the tokens of finished nodes. -/
theorem Finished.report {x y : Closed} {p : Problem} {S : β → State → β → State → Prop} {f g : Unit → Parser β}
    (w : B.Finished s₀ t₀ s t x y) (hp : p ∉ Problem.ungrammatical) (hbehind : p ∈ Problem.retrospective)
    (hf : ∀ s' t', B.Finished s₀ t₀ s' t' x y → Both i j (f ()) (g ()) s' t' S) :
    Both i j (Parser.spanSince x.snapshot >>= fun u => Parser.report ⟨p, u, none, []⟩ >>= f)
      (Parser.spanSince y.snapshot >>= fun v => Parser.report ⟨p, v, none, []⟩ >>= g) s t S := by
  refine w.spanSince fun u v huv hu hv => ?_
  have hrecalls {i : Input} {a : Outlook} {u : Span} (hu : a.Behind i u) : a.Recalls i ⟨p, u, none, []⟩ :=
    ⟨by simp, fun h => absurd hbehind h, fun _ => hu⟩
  have halike : Diagnostic.Alike B.Spans ⟨p, u, none, []⟩ ⟨p, v, none, []⟩ := ⟨rfl, huv, rfl, .nil⟩
  refine (w.abreast.now.report halike (hrecalls hu) (hrecalls hv) hp).bind fun _ s' _ t' ⟨_, w'⟩ => ?_
  exact hf s' t' (w.looked w')

variable (B)

theorem problem {p : Problem} (hp : p ∉ Problem.ungrammatical ++ Problem.retrospective) (detail : Option String) :
    B.Beside (Parser.problem p detail) (Parser.problem p detail) := fun _ _ w => by
  rw [List.mem_append, not_or] at hp
  exact currentSpan_both (w.report ⟨rfl, B.span w.holds w.leftReady w.rightReady, rfl, .nil⟩
    ⟨nofun, fun _ => rfl, fun h => absurd h hp.2⟩ ⟨nofun, fun _ => rfl, fun h => absurd h hp.2⟩ hp.1)

variable {B}

/-- The next tokens come first in what was read. -/
theorem bump_both (w : B.Rows s t s t [] []) : Both i j Parser.bump Parser.bump s t fun _ s' _ t' =>
    ∃ l m, B.Abreast s t s' t' [.leaf (Prod.snd l) (Prod.fst l)] [.leaf (Prod.snd m) (Prod.fst m)] := by
  refine (Both.of_yields (bump_outlook w.leftSound) (bump_outlook w.rightSound)).mono ?_
  rintro _ s' _ t' ⟨⟨l, ls, hl, hg, hlook, hs⟩, m, ms, hm, hg', hlook', ht⟩
  refine ⟨l, m, _, _, hg, hg', hs, ht, ?_, ?_⟩
  · rw [hg.depth, hg'.depth, w.depth]
  · rw [hlook, hlook']
    exact B.advance w.holds w.leftReady w.rightReady hl hm

variable (B)

theorem bump : B.Alongside Parser.bump Parser.bump := fun _ _ w =>
  (bump_both w).mono fun _ _ _ _ ⟨_, _, _, _, w⟩ => ⟨rfl, _, _, w⟩

variable {B}

/-- A token that is eaten comes first in what was read; without it nothing was read. -/
theorem eat_both (w : B.Rows s t s t [] []) (k : Kind) : Both i j (Parser.eat k) (Parser.eat k) s t
    fun a s' b t' => a = b ∧ match a with
      | true => ∃ l m, B.Abreast s t s' t' [.leaf (Prod.snd l) (Prod.fst l)] [.leaf (Prod.snd m) (Prod.fst m)]
      | false => s.next ≠ k ∧ B.Rows s t s' t' [] [] := by
  refine (isAt_both w k).bind ?_
  rintro (_ | _) s' _ t' ⟨rfl, hk, w'⟩
  · exact .pure ⟨rfl, by simpa using hk, w'⟩
  · exact (bump_both w'.now).bind fun _ s₁ _ t₁ ⟨l, m, w₁⟩ => .pure ⟨rfl, l, m, w₁.after w'⟩

variable (B)

theorem eat (k : Kind) : B.Alongside (Parser.eat k) (Parser.eat k) := by
  refine (B.isAt k).alongside.bind fun b => ?_
  split
  · exact B.bump.bind fun _ => (B.pure _).alongside
  · exact (B.pure _).alongside

theorem expect (k : Kind) : B.Alongside (Parser.expect k) (Parser.expect k) := by
  refine (B.eat k).bind fun b => ?_
  split
  · exact (B.pure _).alongside
  · exact ((B.problem (by decide) _).bind fun _ => B.pure _).alongside

variable {B}

/-- What a token is expected for is noted from now on. -/
theorem Noted.later {x y : Span} {ds es : List Draft} (h : B.Noted s t x y)
    (w : B.Abreast s t s' t' ds es) : B.Noted s' t' x y :=
  let ⟨_, _, w⟩ := w
  ⟨h.spans, h.left.later w.left.ahead, h.right.later w.right.ahead⟩

theorem Abreast.noted {d e : Draft} {ds es : List Draft} {x y : Span}
    (w : B.Abreast s₀ t₀ s t (d :: ds) (e :: es)) (h : B.Among ds es x y) : B.Noted s t x y := by
  obtain ⟨F, G, w⟩ := w
  obtain ⟨hspans, ⟨l, hl, rfl⟩, m, hm, rfl⟩ := h
  have hmem {l : Token × Nat} {d : Draft} {ds F : List Draft} (hl : l ∈ Draft.leavesOfList ds) :
      l ∈ Draft.leavesOfList (d :: ds ++ F) := by
    rw [Draft.leavesOfList_append, Draft.leavesOfList]
    exact List.mem_append_left _ (List.mem_append_right _ hl)
  exact ⟨hspans, (faces_of_coherent w.left.before).past w.left.ahead (hmem hl),
    (faces_of_coherent w.right.before).past w.right.ahead (hmem hm)⟩

theorem Noted.expectClosing {x y : Span} (h : B.Noted s t x y) (w : B.Rows s t s t [] []) (k : Kind)
    (note : String) : Both i j (Parser.expectClosing k note x) (Parser.expectClosing k note y) s t
      fun a s' b t' => a = b ∧ B.Abreast s t s' t' [] [] := by
  refine w.abreast.step (B.eat k) fun b s₁ t₁ w₁ => ?_
  split
  · exact .pure ⟨rfl, w₁⟩
  have h := h.later w₁
  have w₁' := w₁.now
  have halike : Diagnostic.Alike B.Spans
      ⟨.expectedToken, s₁.outlook.span i.size, some (nameOf k "'token'"), [⟨x, note⟩]⟩
      ⟨.expectedToken, t₁.outlook.span j.size, some (nameOf k "'token'"), [⟨y, note⟩]⟩ :=
    ⟨rfl, B.span w₁'.holds w₁'.leftReady w₁'.rightReady, rfl, .cons ⟨h.spans, rfl⟩ .nil⟩
  refine currentSpan_both ((w₁'.report halike
    ⟨List.forall_mem_singleton.2 ⟨h.left, rfl⟩, fun _ => rfl, fun h => by simp [Problem.retrospective] at h⟩
    ⟨List.forall_mem_singleton.2 ⟨h.right, rfl⟩, fun _ => rfl, fun h => by simp [Problem.retrospective] at h⟩
    (by simp [Problem.ungrammatical])).bind ?_)
  rintro _ s₂ _ t₂ ⟨-, w₂⟩
  exact .pure ⟨rfl, w₁.trans w₂.abreast⟩

/-- **A closing token, and what it closes.** -/
theorem Abreast.closing {d e : Draft} {ds es : List Draft} {x y : Span} {k : Kind} {note : String}
    {f g : Bool → Parser β} {S : β → State → β → State → Prop} (w : B.Abreast s₀ t₀ s t (d :: ds) (e :: es))
    (h : B.Among ds es x y)
    (hf : ∀ b s' t', B.Abreast s₀ t₀ s' t' (d :: ds) (e :: es) → Both i j (f b) (g b) s' t' S) :
    Both i j (Parser.expectClosing k note x >>= f) (Parser.expectClosing k note y >>= g) s t S := by
  refine ((w.noted h).expectClosing w.now k note).bind ?_
  rintro b s' _ t' ⟨rfl, w'⟩
  exact hf b s' t' (w.trans w')

/-- The tokens in front, once they have been consumed. -/
theorem Abreast.among {ds es : List Draft} {l m : Token × Nat} (w : B.Abreast s₀ t₀ s t ds es)
    (w' : B.Abreast s t s' t' [.leaf l.2 l.1] [.leaf m.2 m.1]) : ∃ F G,
      B.Among F G (s.outlook.span i.size) (t.outlook.span j.size) ∧ B.Abreast s₀ t₀ s' t' (ds ++ F) (es ++ G) := by
  obtain ⟨F, G, w⟩ := w
  obtain ⟨F', G', w'⟩ := w'
  have hspan := B.span w.holds w.leftReady w.rightReady
  rw [w.leftReady.span_eq w'.left.ahead, w.rightReady.span_eq w'.right.ahead] at hspan ⊢
  refine ⟨F ++ [.leaf l.2 l.1], G ++ [.leaf m.2 m.1], ⟨hspan, ⟨l, ?_, rfl⟩, m, ?_, rfl⟩, F', G', ?_⟩
  · rw [Draft.leavesOfList_append]
    exact List.mem_append_right _ (List.mem_singleton_self _)
  · rw [Draft.leavesOfList_append]
    exact List.mem_append_right _ (List.mem_singleton_self _)
  · simpa using w.trans w'

theorem Among.filled {ds es : List Draft} {x y : Span} (h : B.Among ds es x y) : Filled ds es :=
  let ⟨_, ⟨_, hl, _⟩, _, hm, _⟩ := h
  ⟨List.ne_nil_of_mem hl, List.ne_nil_of_mem hm⟩

/-- A token that is consumed for sure. -/
theorem Abreast.bump {d e : Draft} {f g : Unit → Parser β} {S : β → State → β → State → Prop}
    (w : B.Abreast s₀ t₀ s t [d] [e])
    (hf : ∀ {ds es}, Filled ds es → ∀ s' t', B.Abreast s₀ t₀ s' t' (d :: ds) (e :: es) →
      Both i j (f ()) (g ()) s' t' S) : Both i j (Parser.bump >>= f) (Parser.bump >>= g) s t S :=
  (bump_both w.now).bind fun _ s' _ t' ⟨_, _, w'⟩ =>
    let ⟨_, _, h, w'⟩ := w.among w'
    hf h.filled s' t' w'

/-- **A token that opens something**, of which is known where it stands. -/
theorem Abreast.opener {d e : Draft} {f g : Span → Unit → Parser β} {S : β → State → β → State → Prop}
    (w : B.Abreast s₀ t₀ s t [d] [e])
    (hf : ∀ {ds es x y}, B.Among ds es x y → ∀ s' t', B.Abreast s₀ t₀ s' t' (d :: ds) (e :: es) →
      Both i j (f x ()) (g y ()) s' t' S) :
    Both i j (Parser.currentSpan >>= fun x => Parser.bump >>= f x)
      (Parser.currentSpan >>= fun y => Parser.bump >>= g y) s t S := by
  refine currentSpan_both ((bump_both w.now).bind fun _ s' _ t' ⟨l, m, w'⟩ => ?_)
  obtain ⟨F, G, h, w'⟩ := w.among w'
  exact hf h s' t' w'

/-- Such a token, if it is there. -/
theorem Abreast.expectOpener {d e : Draft} {k : Kind} {f g : Span → Bool → Parser β}
    {S : β → State → β → State → Prop} (w : B.Abreast s₀ t₀ s t [d] [e])
    (found : ∀ {ds es x y}, B.Among ds es x y → ∀ s' t', B.Abreast s₀ t₀ s' t' (d :: ds) (e :: es) →
      Both i j (f x true) (g y true) s' t' S)
    (missing : s.next ≠ k → ∀ x y s' t', B.Abreast s₀ t₀ s' t' [d] [e] →
      Both i j (f x false) (g y false) s' t' S) :
    Both i j (Parser.currentSpan >>= fun x => Parser.expect k >>= f x)
      (Parser.currentSpan >>= fun y => Parser.expect k >>= g y) s t S := by
  refine currentSpan_both (.assoc ((eat_both w.now k).bind ?_))
  rintro (_ | _) s' _ t' ⟨rfl, h⟩
  · refine .assoc ((B.problem (by decide) _ s' t' h.2.now).bind fun _ s₁ _ t₁ ⟨_, w'⟩ => ?_)
    rw [pure_bind, pure_bind]
    exact missing h.1 _ _ s₁ t₁ (w.trans (h.2.abreast.trans w'.abreast))
  · obtain ⟨l, m, w'⟩ := h
    obtain ⟨F, G, h, w'⟩ := w.among w'
    rw [if_pos rfl, pure_bind, pure_bind]
    exact found h s' t' w'

/-! ## Opening and closing -/

/-- Opening a node records nothing else. -/
theorem Rows.open {S : β → State → β → State → Prop} {f g : Opening → Parser β} (w : B.Rows s₀ t₀ s t F G)
    (hf : ∀ o o' s' t', Opened i j s t o o' .blank .blank → B.Rows s t s' t' [.blank] [.blank] →
      Both i j (f o) (g o') s' t' S) : Both i j (Parser.start >>= f) (Parser.start >>= g) s t S := by
  have hs := w.left.coherent
  have ht := w.right.coherent
  refine hf _ _ _ _ ⟨opens_start hs, opens_start ht, marks_snapshot hs, marks_snapshot ht, w.leftSettled,
    w.rightSettled⟩ ?_
  exact ⟨⟨.blank hs, trivial⟩, ⟨.blank ht, trivial⟩, w.leftSettled, w.rightSettled, w.depth,
    B.blank_left.2 (B.blank_right.2 (B.now w.holds))⟩

/-- What is read from now on goes into new nodes. -/
theorem Rows.start {S : β → State → β → State → Prop} {f g : Opening → Parser β} (w : B.Rows s₀ t₀ s t F G)
    (hf : ∀ o o' s' t', Opened i j s t o o' .blank .blank → B.Abreast s t s' t' [.blank] [.blank] →
      Both i j (f o) (g o') s' t' S) : Both i j (Parser.start >>= f) (Parser.start >>= g) s t S :=
  w.open fun o o' s' t' ho w => hf o o' s' t' ho ⟨[], [], w⟩

/-- Openings become nodes around all that was read since. -/
theorem Rows.complete {o o' : Opening} {d e : Draft} {k : Kind} (w : B.Rows s₀ t₀ s t (d :: F) (e :: G))
    (ho : Opens i s₀ o d) (ho' : Opens j t₀ o' e) (hk : k ∉ [.error, .tombstone])
    (hg : k = .garbage → s₀.ahead ≠ [] ∧ t₀.ahead ≠ []) :
    Both i j (Parser.complete o k) (Parser.complete o' k) s t fun x s' y t' =>
      (x.kind = y.kind ∧ x.snapshot = o.snapshot ∧ y.snapshot = o'.snapshot) ∧
      B.Rows s₀ t₀ s' t' [.grown (d.close k F)] [.grown (e.close k G)] ∧
      x.event + (d.close k F).width = s'.events.size ∧ y.event + (e.close k G).width = t'.events.size := by
  simp only [List.mem_cons, List.not_mem_nil, or_false, not_or] at hk
  have hnamed {d : Draft} {F : List Draft} (hd : d.Waits)
      (h : Tree.NamedInList (Draft.treesOfList (d :: F))) :
      Tree.NamedInList (Draft.treesOfList [.grown (d.close k F)]) := by
    simp only [Draft.treesOfList, Draft.trees, Draft.tree_close hd, List.append_nil]
    exact ⟨⟨hk.2, h⟩, trivial⟩
  have hleft := Grows.complete (k := k) ho w.left.toGrows
  have hright := Grows.complete (k := k) ho' w.right.toGrows
  refine (Both.of_yields (.of_ensures (hleft.and ((complete_outlook o k).ensures hleft)))
    (.of_ensures (hright.and ((complete_outlook o' k).ensures hright)))).mono ?_
  rintro _ s' _ t' ⟨⟨⟨⟨hg₁, rfl, hevent⟩, hstill⟩, hlook⟩, ⟨⟨hg₂, rfl, hevent'⟩, hstill'⟩, hlook'⟩
  refine ⟨⟨rfl, rfl, rfl⟩, ⟨⟨hg₁, hnamed ho.waits w.left.named⟩, ⟨hg₂, hnamed ho'.waits w.right.named⟩,
    hstill.settled w.leftSettled, hstill'.settled w.rightSettled, ?_, ?_⟩, hevent, hevent'⟩
  · have h₁ := hg₁.depth.trans w.left.depth.symm
    have h₂ := hg₂.depth.trans w.right.depth.symm
    rw [h₁, h₂, w.depth]
  · rw [hlook, hlook']
    exact B.close w.holds ho.waits ho'.waits hk.1 hg

theorem Abreast.complete {o o' : Opening} {d e : Draft} {ds es : List Draft} {k : Kind}
    (w : B.Abreast s₀ t₀ s t (d :: ds) (e :: es)) (ho : Opened i j s₀ t₀ o o' d e)
    (hk : k ∉ [.error, .tombstone]) (hg : k = .garbage → s₀.ahead ≠ [] ∧ t₀.ahead ≠ []) :
    Both i j (Parser.complete o k) (Parser.complete o' k) s t fun x s' y t' =>
      B.Abreast s₀ t₀ s' t' [] [] ∧ (Filled (d :: ds) (e :: es) → B.Finished s₀ t₀ s' t' x y) := by
  obtain ⟨F, G, w⟩ := w
  refine (Rows.complete w ho.left ho.right hk hg).mono ?_
  rintro x s' y t' ⟨⟨hkind, hx, hy⟩, w, hevents⟩
  refine ⟨w.abreast, fun hfilled => ⟨hkind, ?_, _, _, w, ?_, hevents⟩⟩
  · rw [hx, hy]
    exact ho.marked
  · exact hfilled.before.close ho.left.waits ho.right.waits k

/-- Most kinds ask for nothing. -/
theorem notMem_of_most {k : Kind} (hk : k ∉ [.error, .tombstone, .garbage]) :
    k ∉ [.error, .tombstone] ∧ k ≠ .garbage := by
  simp only [List.mem_cons, List.not_mem_nil, or_false, not_or] at hk ⊢
  exact ⟨⟨hk.1, hk.2.1⟩, hk.2.2⟩

theorem Abreast.node {o o' : Opening} {d e : Draft} {ds es : List Draft} {k : Kind}
    (w : B.Abreast s₀ t₀ s t (d :: ds) (e :: es)) (ho : Opened i j s₀ t₀ o o' d e)
    (hfilled : Filled (d :: ds) (e :: es)) (hk : k ∉ [.error, .tombstone, .garbage]) :
    Both i j (Parser.complete o k) (Parser.complete o' k) s t fun x s' y t' =>
      B.Finished s₀ t₀ s' t' x y :=
  (w.complete ho (notMem_of_most hk).1 fun h => absurd h (notMem_of_most hk).2).mono fun _ _ _ _ h => h.2 hfilled

theorem Abreast.finish {o o' : Opening} {d e : Draft} {ds es : List Draft} {k : Kind}
    (w : B.Abreast s₀ t₀ s t (d :: ds) (e :: es)) (ho : Opened i j s₀ t₀ o o' d e)
    (hk : k ∉ [.error, .tombstone, .garbage]) :
    Both i j (Production.finish o k) (Production.finish o' k) s t fun a s' b t' =>
      a = b ∧ B.Abreast s₀ t₀ s' t' [] [] :=
  (w.complete ho (notMem_of_most hk).1 fun h => absurd h (notMem_of_most hk).2).bind
    fun _ _ _ _ h => .pure ⟨rfl, h.1⟩

/-- Wrapping a finished node reads nothing. -/
theorem Finished.wrap {x y : Closed} {S : β → State → β → State → Prop} {f g : Opening → Parser β}
    (w : B.Finished s₀ t₀ s t x y) (hf : ∀ o o' b c s' t', Opened i j s₀ t₀ o o' (.wrapping b) (.wrapping c) →
      Filled [.wrapping b] [.wrapping c] → s'.outlook = s.outlook →
        B.Abreast s₀ t₀ s' t' [.wrapping b] [.wrapping c] → Both i j (f o) (g o') s' t' S) :
    Both i j (Parser.precede x >>= f) (Parser.precede y >>= g) s t S := by
  obtain ⟨-, ⟨hx, hy, hs, ht⟩, b, c, w, hfilled, hb, hc⟩ := w
  have hleft := w.left.toGrows.precede (hx.rest ▸ List.drop_suffix ..) hb
  have hright := w.right.toGrows.precede (hy.rest ▸ List.drop_suffix ..) hc
  have hsnapshot (x : Closed) {i : Input} {s : State} :
      Yields (Parser.precede x) i s fun o _ => o.snapshot = x.snapshot :=
    Yields.bind (Q := fun _ _ => True) (fun _ _ _ => trivial) fun _ _ _ =>
      Yields.bind (Q := fun _ _ => True) (fun _ _ _ => trivial) fun _ _ _ => .pure rfl
  refine (Both.of_yields
    (.of_ensures ((hleft.and ((precede_outlook x).ensures hleft)).and ((hsnapshot x).ensures hleft)))
    (.of_ensures ((hright.and ((precede_outlook y).ensures hright)).and ((hsnapshot y).ensures hright)))).bind
      ?_
  rintro o s' o' t' ⟨⟨⟨⟨ho, hg, hstill⟩, hlook⟩, hm⟩, ⟨⟨ho', hg', hstill'⟩, hlook'⟩, hm'⟩
  refine hf o o' b c s' t' ⟨ho, ho', hm ▸ hx, hm' ▸ hy, hs, ht⟩ ⟨hfilled.left, hfilled.right⟩ hlook
    ⟨[], [], ⟨hg, w.left.named⟩, ⟨hg', w.right.named⟩, hstill.settled w.leftSettled,
      hstill'.settled w.rightSettled, ?_, ?_⟩
  · have h₁ := hg.depth.trans w.left.depth.symm
    have h₂ := hg'.depth.trans w.right.depth.symm
    rw [h₁, h₂, w.depth]
  · rw [hlook, hlook']
    exact B.wrapping w.holds

/-- Finished nodes are wrapped. -/
theorem Finished.precede {x y : Closed} {S : β → State → β → State → Prop} {f g : Opening → Parser β}
    (w : B.Finished s₀ t₀ s t x y) (hf : ∀ o o' b c s' t', Opened i j s₀ t₀ o o' (.wrapping b) (.wrapping c) →
      Filled [.wrapping b] [.wrapping c] → B.Abreast s₀ t₀ s' t' [.wrapping b] [.wrapping c] →
        Both i j (f o) (g o') s' t' S) :
    Both i j (Parser.precede x >>= f) (Parser.precede y >>= g) s t S :=
  w.wrap fun o o' b c s' t' ho hfilled _ w => hf o o' b c s' t' ho hfilled w

/-- Openings that are given up leave what was read since. -/
theorem Abreast.abandon {o o' : Opening} (w : B.Abreast s₀ t₀ s t [.blank] [.blank])
    (ho : Opened i j s₀ t₀ o o' .blank .blank) : Both i j (Parser.abandon o) (Parser.abandon o') s t
      fun a s' b t' => a = b ∧ B.Abreast s₀ t₀ s' t' [] [] := by
  obtain ⟨F, G, w⟩ := w
  have hleft := Grows.abandon ho.left w.left.toGrows
  have hright := Grows.abandon ho.right w.right.toGrows
  refine (Both.of_yields (.of_ensures (hleft.and ((abandon_outlook o).ensures hleft)))
    (.of_ensures (hright.and ((abandon_outlook o').ensures hright)))).mono ?_
  rintro _ s' _ t' ⟨⟨⟨⟨F', hg, hF'⟩, hstill⟩, hlook⟩, ⟨⟨G', hg', hG'⟩, hstill'⟩, hlook'⟩
  have hnamed {F F' : List Draft} (h : Tree.NamedInList (Draft.treesOfList (.blank :: F)))
      (hF' : F' = F ∨ F' = .blank :: F) : Tree.NamedInList (Draft.treesOfList F') := by
    rcases hF' with rfl | rfl <;> exact h
  refine ⟨rfl, F', G', ⟨hg, hnamed w.left.named hF'⟩, ⟨hg', hnamed w.right.named hG'⟩,
    hstill.settled w.leftSettled, hstill'.settled w.rightSettled, ?_, ?_⟩
  · have h₁ := hg.depth.trans w.left.depth.symm
    have h₂ := hg'.depth.trans w.right.depth.symm
    rw [h₁, h₂, w.depth]
  · rw [hlook, hlook']
    have hholds := B.blank_left.1 (B.blank_right.1 w.holds)
    rcases hF' with rfl | rfl <;> rcases hG' with rfl | rfl
    · exact hholds
    · exact B.blank_right.2 hholds
    · exact B.blank_left.2 hholds
    · exact w.holds

/-- Nodes that are rolled back leave nothing. -/
theorem Abreast.rollback {o o' : Opening} {ds es : List Draft} (w : B.Abreast s₀ t₀ s t ds es)
    (ho : Opened i j s₀ t₀ o o' .blank .blank) (w₀ : B.Rows s₀ t₀ s₀ t₀ [] []) :
    Both i j (Parser.rollback o) (Parser.rollback o') s t fun a s' b t' =>
      a = b ∧ B.Rows s₀ t₀ s' t' [] [] := by
  obtain ⟨F, G, w⟩ := w
  refine (Both.of_yields (.of_ensures (Grows.rollback ho.left w.left.toGrows))
    (.of_ensures (Grows.rollback ho.right w.right.toGrows))).mono ?_
  rintro _ _ _ _ ⟨rfl, rfl⟩
  exact ⟨rfl, ⟨w₀.left.toGrows.refresh, trivial⟩, ⟨w₀.right.toGrows.refresh, trivial⟩, w₀.leftSettled,
    w₀.rightSettled, w₀.depth, w₀.holds⟩

/-! ## Nesting -/

variable (B)

theorem bailOut (limit : Nat) : B.Alongside (Parser.bailOut limit) (Parser.bailOut limit) := by
  intro s t w
  refine (Both.of_yields (bailOut_outlook w.leftSound) (bailOut_outlook w.rightSound)).mono ?_
  rintro _ s' _ t' ⟨⟨hg, hlook, hs⟩, hg', hlook', ht⟩
  refine ⟨rfl, _, _, hg, hg', hs, ht, ?_, ?_⟩
  · rw [hg.depth, hg'.depth, w.depth]
  · rw [hlook, hlook']
    exact B.bail limit w.holds w.leftReady w.rightReady

variable {B}

theorem Rows.deeper (w : B.Rows s₀ t₀ s t F G) : B.Rows s₀.deeper t₀.deeper s.deeper t.deeper F G :=
  ⟨⟨w.left.toGrows.deeper, w.left.named⟩, ⟨w.right.toGrows.deeper, w.right.named⟩, w.leftSettled,
    w.rightSettled, congrArg (· + 1) w.depth, w.holds⟩

theorem Rows.upper (hs : s₀.Coherent i) (ht : t₀.Coherent j) (w : B.Rows s₀.deeper t₀.deeper s t F G) :
    B.Rows s₀ t₀ s.upper t.upper F G :=
  ⟨⟨w.left.toGrows.upper hs, w.left.named⟩, ⟨w.right.toGrows.upper ht, w.right.named⟩, w.leftSettled,
    w.rightSettled, congrArg (· - 1) w.depth, w.holds⟩

theorem Finished.deeper {x y : Closed} (w : B.Finished s₀ t₀ s t x y) :
    B.Finished s₀.deeper t₀.deeper s.deeper t.deeper x y :=
  let ⟨hkind, ⟨hx, hy, hs, ht⟩, b, c, w, h⟩ := w
  ⟨hkind, ⟨{ hx with }, { hy with }, hs, ht⟩, b, c, w.deeper, h⟩

theorem Operand.row {a b : Option Closed} (h : B.Operand s₀ t₀ s t a b) :
    ∃ F G, B.Rows s₀ t₀ s t F G ∧ (a.isSome = true → Filled F G) :=
  match a, b, h with
  | none, none, ⟨hs, ht, w⟩ => by
    subst hs ht
    exact ⟨[], [], w, nofun⟩
  | some _, some _, ⟨_, _, _, _, w, hfilled, _⟩ => ⟨_, _, w, fun _ => hfilled⟩

theorem Operand.deeper {a b : Option Closed} (h : B.Operand s₀ t₀ s t a b) :
    B.Operand s₀.deeper t₀.deeper s.deeper t.deeper a b :=
  match a, b, h with
  | none, none, ⟨hs, ht, w⟩ => ⟨congrArg State.deeper hs, congrArg State.deeper ht, w.deeper⟩
  | some _, some _, h => Finished.deeper h

theorem Result.upper {a b : Option Closed} {resumed : Bool} (hs : s₀.Coherent i) (ht : t₀.Coherent j)
    (h : B.Result resumed s₀.deeper t₀.deeper s t a b) : B.Result resumed s₀ t₀ s.upper t.upper a b :=
  match a, b, h with
  | none, none, ⟨F, G, w, h⟩ => ⟨F, G, w.upper hs ht, h⟩
  | some _, some _, ⟨hkind, ⟨hx, hy, hleft, hright⟩, b, c, w, h⟩ =>
    ⟨hkind, ⟨{ hx with }, { hy with }, hleft, hright⟩, b, c, w.upper hs ht, h⟩

end Bond

end Parser

end LuaTree
