import LuaTree.Proofs.Composition
import LuaTree.Proofs.Parts

/-!
# Proofs/Composition/Production — the productions are made of the words

Every production is related to itself at answers that are alike: its text is read through, word by word.
-/

namespace LuaTree

open LuaTree.Parser

namespace Congruence

variable {R : (α : Type) → [Answer α] → Parser α → Parser α → Prop} (h : Congruence R)
include h

/-! ## Productions -/

section

variable {enter enter' : Enter} {o o' : Opening} {c c' : Closed} {a a' : Option Closed}
  (he : Enters R enter enter')

theorem finish (ho : Alike o o') (kind : Kind) :
    R Unit (Production.finish o kind) (Production.finish o' kind) :=
  h.seq (h.complete kind ho) fun _ _ _ => h.answer _

theorem single (kind : Kind) : R Closed (Production.single kind) (Production.single kind) :=
  h.seq h.start fun _ _ ho => h.bind h.bump fun _ => h.complete kind ho

theorem name : R Unit Production.name Production.name :=
  h.bind (h.require _) fun _ => h.seq (h.single _) fun _ _ _ => h.answer _

theorem nameRef : R Closed Production.nameRef Production.nameRef :=
  h.bind (h.require _) fun _ => h.single _

/-- What is reported where nothing was found. -/
theorem missing (ha : Alike a a') : R Unit (do if a.isNone then Parser.problem .expectedExpression none)
    (do if a'.isNone then Parser.problem .expectedExpression none) :=
  match a, a', ha with
  | none, none, _ => h.problem (by decide) _
  | some _, some _, _ => h.answer _

include he

theorem expectExpression : R Unit (Production.expectExpression enter) (Production.expectExpression enter') :=
  h.seq (he (.operation _ .none)) fun _ _ ha => h.missing ha

theorem moreExpressions : R Unit (Production.moreExpressions enter) (Production.moreExpressions enter') := by
  refine h.loop (fun _ _ _ => h.bind (h.eat _) fun b => ?_) rfl
  split
  · exact h.bind (h.expectExpression he) fun _ => h.answer _
  · exact h.answer _

theorem expressionList : R Bool (Production.expressionList enter) (Production.expressionList enter') := by
  refine h.seq h.start fun o o' ho => h.seq (he (.operation _ .none)) fun a a' ha => ?_
  match a, a', ha with
  | none, none, _ => exact h.bind (h.abandon ho) fun _ => h.answer _
  | some _, some _, _ =>
    exact h.bind (h.moreExpressions he) fun _ => h.bind (h.finish ho _) fun _ => h.answer _

theorem expectExpressionList :
    R Unit (Production.expectExpressionList enter) (Production.expectExpressionList enter') := by
  refine h.bind (h.expressionList he) fun b => ?_
  split
  · exact h.problem (by decide) _
  · exact h.answer _

theorem block : R Unit (Production.block enter) (Production.block enter') :=
  h.seq h.start fun _ _ houter => h.seq h.start fun _ _ hlist => h.seq (he .statements) fun _ _ _ =>
    h.bind (h.finish hlist _) fun _ => h.finish houter _

/-! ## Functions, tables and chains -/

omit he in
theorem parameterRound :
    R (Round Unit Unit) Production.parameterRound Production.parameterRound := by
  refine h.bind h.peek fun k => ?_
  split
  · refine h.bind h.name fun _ => h.bind (h.isAt _) fun b => ?_
    split
    · exact h.answer _
    refine h.bind h.bump fun _ => h.bind h.peek fun k => ?_
    split
    · exact h.answer _
    · exact h.answer _
    · exact h.bind (h.expect _) fun _ => h.answer _
  · exact h.bind h.bump fun _ => h.answer _
  · exact h.answer _

omit he in
theorem parameterList : R Unit Production.parameterList Production.parameterList := by
  refine h.seq h.start fun _ _ ho => h.bind h.currentSpan fun opened => h.bind (h.expect _) fun b => ?_
  split
  · exact h.bind (h.loop (fun _ _ _ => h.parameterRound) rfl) fun _ =>
      h.bind (h.expectClosing _ _ _) fun _ => h.finish ho _
  · exact h.finish ho _

theorem functionBody (keyword : Span) :
    R Unit (Production.functionBody enter keyword) (Production.functionBody enter' keyword) :=
  h.seq h.start fun _ _ ho => h.bind h.parameterList fun _ => h.bind (h.block he) fun _ =>
    h.bind (h.expectClosing _ _ _) fun _ => h.finish ho _

theorem functionExpression :
    R Closed (Production.functionExpression enter) (Production.functionExpression enter') :=
  h.bind (h.require _) fun _ => h.seq h.start fun _ _ ho => h.bind h.currentSpan fun keyword =>
    h.bind h.bump fun _ => h.bind (h.functionBody he keyword) fun _ => h.complete _ ho

theorem positionalField : R Bool (Production.positionalField enter) (Production.positionalField enter') := by
  refine h.seq h.start fun o o' ho => h.seq (he (.operation _ .none)) fun a a' ha => ?_
  match a, a', ha with
  | none, none, _ => exact h.bind (h.abandon ho) fun _ => h.answer _
  | some _, some _, _ => exact h.bind (h.finish ho _) fun _ => h.answer _

omit h he in
/-- A name is consumed before it is known to begin a named field. -/
theorem field_eq : Production.field enter = (do
    let (o, k, named) ← Parser.tryName
    if named then
      Production.expectExpression enter
      Production.finish o .tableField
      return true
    else if k = .ident then Production.positionalField enter
    else if k = .bracketOpen then
      let opened ← Parser.currentSpan
      Parser.bump
      Production.expectExpression enter
      let _ ← Parser.expectClosing .bracketClose "key opened here" opened
      let _ ← Parser.expect .equals
      Production.expectExpression enter
      Production.finish o .tableField
      return true
    else
      Parser.abandon o
      Production.positionalField enter) := by
  rw [Parser.tryName, bind_assoc]
  refine congrArg (Parser.start >>= ·) (funext fun o => ?_)
  rw [bind_assoc]
  refine congrArg (Parser.peek >>= ·) (funext fun k => ?_)
  split
  · rw [if_pos rfl, bind_assoc]
    refine congrArg (Parser.bump >>= ·) (funext fun _ => ?_)
    rw [bind_assoc]
    refine congrArg (Parser.eat .equals >>= ·) (funext fun b => ?_)
    cases b with
    | true => rfl
    | false => rfl
  · rfl
  · rename_i h₁ h₂
    rw [if_neg h₁, pure_bind]
    dsimp only
    rw [if_neg h₁, if_neg h₂]
    rfl

theorem field : R Bool (Production.field enter) (Production.field enter') := by
  rw [field_eq, field_eq]
  refine h.seq h.tryName fun (o, k, named) (o', k', named') ⟨ho, hk⟩ => ?_
  cases hk
  dsimp only
  split
  · exact h.bind (h.expectExpression he) fun _ => h.bind (h.finish ho _) fun _ => h.answer _
  split
  · exact h.positionalField he
  split
  · exact h.bind h.currentSpan fun _ => h.bind h.bump fun _ => h.bind (h.expectExpression he) fun _ =>
      h.bind (h.expectClosing _ _ _) fun _ => h.bind (h.expect _) fun _ =>
        h.bind (h.expectExpression he) fun _ => h.bind (h.finish ho _) fun _ => h.answer _
  · exact h.bind (h.abandon ho) fun _ => h.positionalField he

omit he in
theorem fieldSeparator : R (Round Unit Unit) Production.fieldSeparator Production.fieldSeparator := by
  refine h.bind (h.isAtOneOf _) fun b => ?_
  split
  · exact h.answer _
  · exact h.seq (h.single _) fun _ _ _ => h.answer _

theorem fieldRound :
    R (Round Unit Unit) (Production.fieldRound enter) (Production.fieldRound enter') := by
  refine h.bind (h.isAt _) fun b => ?_
  split
  · exact h.answer _
  refine h.bind h.isAtEnd fun b => ?_
  split
  · exact h.answer _
  refine h.bind (h.field he) fun b => ?_
  split
  · refine h.bind (h.isAtOneOf _) fun b => ?_
    split
    · exact h.answer _
    · exact h.bind (h.problem (by decide) _) fun _ => h.fieldSeparator
  · exact h.fieldSeparator

theorem table : R Closed (Production.table enter) (Production.table enter') :=
  h.bind (h.require _) fun _ => h.seq h.start fun _ _ ho => h.bind h.currentSpan fun _ =>
    h.bind h.bump fun _ => h.bind (h.loop (fun _ _ _ => h.fieldRound he) rfl) fun _ =>
      h.bind (h.expectClosing _ _ _) fun _ => h.complete _ ho

omit he in
theorem atArguments : R Bool Production.atArguments Production.atArguments := by
  refine h.bind h.peek fun k => ?_
  split
  · exact h.answer _
  · exact h.answer _
  · exact h.answer _

theorem arguments : R Unit (Production.arguments enter) (Production.arguments enter') := by
  refine h.seq h.start fun _ _ ho => h.bind h.peek fun k => ?_
  split
  · exact h.seq (h.table he) fun _ _ _ => h.finish ho _
  split
  · exact h.seq (h.single _) fun _ _ _ => h.finish ho _
  refine h.bind h.currentSpan fun opened => h.bind (h.expect _) fun _ => h.bind (h.isAt _) fun b => ?_
  split
  · exact h.bind (h.expressionList he) fun _ => h.bind (h.expectClosing _ _ _) fun _ => h.finish ho _
  · exact h.bind (h.expectClosing _ _ _) fun _ => h.finish ho _

theorem paren : R Closed (Production.paren enter) (Production.paren enter') :=
  h.seq h.start fun _ _ ho => h.bind h.currentSpan fun _ => h.bind h.bump fun _ =>
    h.bind (h.expectExpression he) fun _ => h.bind (h.expectClosing _ _ _) fun _ => h.complete _ ho

theorem suffixRound (hc : Alike c c') :
    R (Round Closed Closed) (Production.suffixRound enter c) (Production.suffixRound enter' c') := by
  refine h.bind h.peek fun k => ?_
  split
  · exact h.seq (h.precede hc) fun _ _ ho => h.bind h.bump fun _ => h.bind (h.expect _) fun _ =>
      h.seq (h.complete _ ho) fun _ _ hc => h.pure (.again hc)
  · refine h.seq (h.precede hc) fun _ _ ho => h.bind h.bump fun _ => h.bind (h.expect _) fun named =>
      h.seq (h.complete _ ho) fun _ _ hc => ?_
    split
    · refine h.bind h.atArguments fun b => ?_
      split
      · exact h.bind (h.problem (by decide) _) fun _ => h.pure (.again hc)
      · exact h.pure (.again hc)
    · exact h.pure (.again hc)
  · exact h.seq (h.precede hc) fun _ _ ho => h.bind h.currentSpan fun _ => h.bind h.bump fun _ =>
      h.bind (h.expectExpression he) fun _ => h.bind (h.expectClosing _ _ _) fun _ =>
        h.seq (h.complete _ ho) fun _ _ hc => h.pure (.again hc)
  · refine h.bind h.atArguments fun b => ?_
    split
    · exact h.seq (h.precede hc) fun _ _ ho => h.bind (h.arguments he) fun _ =>
        h.seq (h.complete _ ho) fun _ _ hc => h.pure (.again hc)
    · exact h.pure (.done hc)

theorem chain : R (Option Closed) (Production.chain enter) (Production.chain enter') := by
  have hsuffixes {c c' : Closed} (hc : Alike c c') :
      R (Option Closed) (do return some (← Parser.loop c (Production.suffixRound enter)))
        (do return some (← Parser.loop c' (Production.suffixRound enter'))) :=
    h.seq (h.loop (fun _ _ hc => h.suffixRound he hc) hc) fun _ _ hc => h.pure (.some hc)
  refine h.bind h.peek fun k => ?_
  split
  · exact h.seq h.nameRef fun _ _ hc => hsuffixes hc
  · exact h.seq (h.paren he) fun _ _ hc => hsuffixes hc
  · exact h.pure .none

/-! ## Operations -/

theorem atom : R (Option Closed) (Production.atom enter) (Production.atom enter') := by
  have hsome {p p' : Parser Closed} (hp : R Closed p p') :
      R (Option Closed) (do return some (← p)) (do return some (← p')) :=
    h.seq hp fun _ _ hc => h.pure (.some hc)
  refine h.bind h.peek fun k => ?_
  split
  · exact hsome (h.single _)
  · exact hsome (h.single _)
  · exact hsome (h.single _)
  · exact hsome (h.single _)
  · exact hsome (h.table he)
  · exact hsome (h.functionExpression he)
  · split
    · exact hsome (h.single _)
    split
    · exact hsome (h.single _)
    · exact h.chain he

theorem operandOf {e e' : Entry} (hee : Entry.Alike e e') :
    R Unit (Production.operandOf enter e) (Production.operandOf enter' e') :=
  h.seq (he hee) fun _ _ ha => h.missing ha

theorem power (ha : Alike a a') :
    R (Option Closed) (Production.power enter a) (Production.power enter' a') := by
  have hpower {lhs lhs' : Closed} (hc : Alike lhs lhs') :
      R (Option Closed) (Production.power enter (some lhs)) (Production.power enter' (some lhs')) := by
    simp only [Production.power, pure_bind]
    refine h.bind (h.isAtOneOf _) fun b => ?_
    split
    · exact h.pure (.some hc)
    · exact h.seq (h.precede hc) fun _ _ ho => h.seq (h.single _) fun _ _ _ =>
        h.bind (h.operandOf he .unary) fun _ => h.seq (h.complete _ ho) fun _ _ hc => h.pure (.some hc)
  match a, a', ha with
  | some _, some _, .some hc => exact hpower hc
  | none, none, _ =>
    refine h.seq (h.atom he) fun base base' hbase => ?_
    match base, base', hbase with
    | some _, some _, .some hc => exact hpower hc
    | none, none, _ => exact h.pure .none

theorem unary (ha : Alike a a') :
    R (Option Closed) (Production.unary enter a) (Production.unary enter' a') := by
  match a, a', ha with
  | some _, some _, ha => exact h.power he ha
  | none, none, ha =>
    refine h.bind (h.isAtOneOf _) fun b => ?_
    split
    · exact h.power he ha
    · exact h.seq h.start fun _ _ ho => h.seq (h.single _) fun _ _ _ =>
        h.bind (h.operandOf he .unary) fun _ => h.seq (h.complete _ ho) fun _ _ hc => h.pure (.some hc)

omit he in
theorem levelEnd (level : Level) {rhs rhs' : Option Closed} (ho : Alike o o') (ha : Alike rhs rhs') :
    R (Round Closed Closed) (Production.levelEnd level o rhs) (Production.levelEnd level o' rhs') := by
  have hwhole (isLast : Bool) : R (Round Closed Closed) (do
      let whole ← Parser.complete o .binaryExpression
      if isLast || level.assoc = .right then return .done whole
      return .again whole) (do
      let whole ← Parser.complete o' .binaryExpression
      if isLast || level.assoc = .right then return .done whole
      return .again whole) := by
    refine h.seq (h.complete _ ho) fun _ _ hc => ?_
    split
    · exact h.pure (.done hc)
    · exact h.pure (.again hc)
  match rhs, rhs', ha with
  | none, none, _ => exact h.bind (h.problem (by decide) _) fun _ => hwhole true
  | some _, some _, _ => exact hwhole false

theorem levelRound {level : Level} {tighter : List Level}
    (htighter : R (Option Closed) (Production.operation enter tighter none) (Production.operation enter' tighter none))
    (hc : Alike c c') : R (Round Closed Closed) (Production.levelRound enter level tighter c)
      (Production.levelRound enter' level tighter c') := by
  have hright : R (Option Closed) (Production.rightOperand enter level tighter)
      (Production.rightOperand enter' level tighter) := by
    unfold Production.rightOperand
    split
    · exact htighter
    · exact he (.operation _ .none)
  rw [Production.levelRound_eq, Production.levelRound_eq]
  refine h.bind (h.isAtOneOf _) fun b => ?_
  split
  · exact h.pure (.done hc)
  · exact h.seq (h.precede hc) fun _ _ ho => h.seq (h.single _) fun _ _ _ =>
      h.seq hright fun _ _ ha => h.levelEnd level ho ha

theorem operation : ∀ (levels : List Level) {a a' : Option Closed}, Alike a a' →
    R (Option Closed) (Production.operation enter levels a) (Production.operation enter' levels a')
  | [], _, _, ha => h.unary he ha
  | level :: tighter, _, _, ha => by
    rw [Production.operation_cons, Production.operation_cons]
    refine h.seq (operation tighter ha) fun a a' ha => ?_
    match a, a', ha with
    | none, none, _ => exact h.pure .none
    | some _, some _, .some hc =>
      exact h.seq (h.loop (fun _ _ hc => h.levelRound he (operation tighter .none) hc) hc) fun _ _ hc =>
        h.pure (.some hc)

/-! ## Statements -/

theorem doStatement : R Unit (Production.doStatement enter) (Production.doStatement enter') :=
  h.seq h.start fun _ _ ho => h.bind h.currentSpan fun _ => h.bind h.bump fun _ => h.bind (h.block he) fun _ =>
    h.bind (h.expectClosing _ _ _) fun _ => h.finish ho _

theorem whileStatement : R Unit (Production.whileStatement enter) (Production.whileStatement enter') :=
  h.seq h.start fun _ _ ho => h.bind h.currentSpan fun _ => h.bind h.bump fun _ =>
    h.bind (h.expectExpression he) fun _ => h.bind (h.expect _) fun _ => h.bind (h.block he) fun _ =>
      h.bind (h.expectClosing _ _ _) fun _ => h.finish ho _

theorem repeatStatement : R Unit (Production.repeatStatement enter) (Production.repeatStatement enter') := by
  refine h.seq h.start fun _ _ ho => h.bind h.currentSpan fun _ => h.bind h.bump fun _ =>
    h.bind (h.block he) fun _ => h.bind (h.expectClosing _ _ _) fun b => ?_
  split
  · exact h.bind (h.expectExpression he) fun _ => h.finish ho _
  · exact h.finish ho _

theorem elseifBranches : R Unit (Production.elseifBranches enter) (Production.elseifBranches enter') := by
  refine h.loop (fun _ _ _ => h.bind (h.isAt _) fun b => ?_) rfl
  split
  · exact h.answer _
  · exact h.seq h.start fun _ _ ho => h.bind h.bump fun _ => h.bind (h.expectExpression he) fun _ =>
      h.bind (h.expect _) fun _ => h.bind (h.block he) fun _ => h.bind (h.finish ho _) fun _ => h.answer _

theorem ifStatement : R Unit (Production.ifStatement enter) (Production.ifStatement enter') := by
  refine h.seq h.start fun _ _ ho => h.bind h.currentSpan fun _ => h.bind h.bump fun _ =>
    h.bind (h.expectExpression he) fun _ => h.bind (h.expect _) fun _ => h.seq h.start fun _ _ hthen =>
      h.bind (h.block he) fun _ => h.bind (h.finish hthen _) fun _ => h.bind (h.elseifBranches he) fun _ =>
        h.bind (h.isAt _) fun b => ?_
  split
  · exact h.seq h.start fun _ _ helse => h.bind h.bump fun _ => h.bind (h.block he) fun _ =>
      h.bind (h.finish helse _) fun _ => h.bind (h.expectClosing _ _ _) fun _ => h.finish ho _
  · exact h.bind (h.expectClosing _ _ _) fun _ => h.finish ho _

omit he in
theorem names : R Nat Production.names Production.names := by
  refine h.bind (h.isAt _) fun b => ?_
  split
  · exact h.bind (h.expect _) fun _ => h.answer _
  refine h.bind h.name fun _ => h.loop (fun count _ hcount => h.bind (h.eat _) fun b => ?_) rfl
  cases hcount
  split
  · exact h.answer _
  refine h.bind (h.isAt _) fun b => ?_
  split
  · exact h.bind (h.expect _) fun _ => h.answer _
  · exact h.bind h.name fun _ => h.answer _

theorem loopBody {o o' : Opening} (ho : Alike o o') (keyword : Span) (kind : Kind) :
    R Unit (Production.loopBody enter o keyword kind) (Production.loopBody enter' o' keyword kind) :=
  h.bind (h.expect _) fun _ => h.bind (h.block he) fun _ => h.bind (h.expectClosing _ _ _) fun _ => h.finish ho _

theorem rangeFor {o o' list list' : Opening} (ho : Alike o o') (hlist : Alike list list') (keyword : Span) :
    R Unit (Production.rangeFor enter o list keyword) (Production.rangeFor enter' o' list' keyword) :=
  h.bind (h.finish hlist _) fun _ => h.bind (h.expect _) fun _ => h.bind (h.expectExpressionList he) fun _ =>
    h.loopBody he ho keyword _

theorem simpleFor {o o' list list' : Opening} (ho : Alike o o') (hlist : Alike list list') (keyword : Span) :
    R Unit (Production.simpleFor enter o list keyword) (Production.simpleFor enter' o' list' keyword) := by
  refine h.bind (h.abandon hlist) fun _ => h.bind (h.expect _) fun _ => h.bind (h.expectExpression he) fun _ =>
    h.bind (h.expect _) fun _ => h.bind (h.expectExpression he) fun _ => h.bind (h.eat _) fun b => ?_
  split
  · exact h.bind (h.expectExpression he) fun _ => h.loopBody he ho keyword _
  · exact h.loopBody he ho keyword _

theorem forStatement : R Unit (Production.forStatement enter) (Production.forStatement enter') := by
  rw [Production.forStatement_eq, Production.forStatement_eq]
  refine h.seq h.start fun o o' ho => h.bind h.currentSpan fun keyword => h.bind h.bump fun _ =>
    h.seq h.start fun list list' hlist => h.bind h.names fun count => ?_
  split
  · exact h.rangeFor he ho hlist keyword
  · refine h.bind (h.isAt _) fun ranges => ?_
    cases ranges with
    | true => exact h.rangeFor he ho hlist keyword
    | false => exact h.simpleFor he ho hlist keyword

omit h he in
/-- A name is looked at together with what follows it. -/
theorem functionName_eq : Production.functionName = (do
    let o ← Parser.start
    match ← Parser.peekBehindName with
    | none =>
      let _ ← Parser.expect .ident
      Production.finish o .functionName
    | some k =>
      match k with
      | .dot | .colon =>
        let _ ← Production.nameRef
      | _ => Production.name
      Production.pathEnd o) := by
  refine congrArg (Parser.start >>= ·) (funext fun o => ?_)
  rw [Parser.peekBehindName, bind_assoc]
  refine congrArg (Parser.isAt .ident >>= ·) (funext fun b => ?_)
  cases b with
  | true =>
    rw [if_pos rfl, bind_assoc]
    rfl
  | false => rfl

omit he in
theorem pathEnd {o o' : Opening} (ho : Alike o o') : R Unit (Production.pathEnd o) (Production.pathEnd o') := by
  refine h.bind (h.loop (fun _ _ _ => h.bind (h.eat _) fun b => ?_) rfl) fun _ => h.bind (h.eat _) fun b => ?_
  · split
    · exact h.answer _
    · exact h.bind (h.expect _) fun _ => h.answer _
  · split
    · exact h.bind (h.expect _) fun _ => h.finish ho _
    · exact h.finish ho _

omit he in
theorem functionName : R Unit Production.functionName Production.functionName := by
  rw [functionName_eq]
  refine h.seq h.start fun _ _ ho => h.bind h.peekBehindName fun k => ?_
  split
  · exact h.bind (h.expect _) fun _ => h.finish ho _
  split
  · exact h.seq h.nameRef fun _ _ _ => h.pathEnd ho
  · exact h.seq h.nameRef fun _ _ _ => h.pathEnd ho
  · exact h.bind h.name fun _ => h.pathEnd ho

theorem functionStatement : R Unit (Production.functionStatement enter) (Production.functionStatement enter') :=
  h.seq h.start fun _ _ ho => h.bind h.currentSpan fun keyword => h.bind h.bump fun _ =>
    h.bind h.functionName fun _ => h.bind (h.functionBody he keyword) fun _ => h.finish ho _

theorem localStatement : R Unit (Production.localStatement enter) (Production.localStatement enter') := by
  refine h.seq h.start fun _ _ ho => h.bind h.currentSpan fun keyword => h.bind h.bump fun _ =>
    h.bind (h.eat _) fun b => ?_
  split
  · refine h.bind (h.isAt _) fun b => ?_
    split
    · exact h.bind h.name fun _ => h.bind (h.functionBody he keyword) fun _ => h.finish ho _
    · exact h.bind (h.expect _) fun _ => h.bind (h.functionBody he keyword) fun _ => h.finish ho _
  · refine h.seq h.start fun _ _ hlist => h.bind h.names fun _ => h.bind (h.finish hlist _) fun _ =>
      h.bind (h.eat _) fun b => ?_
    split
    · exact h.bind (h.expectExpressionList he) fun _ => h.finish ho _
    · exact h.finish ho _

theorem returnStatement : R Unit (Production.returnStatement enter) (Production.returnStatement enter') :=
  h.seq h.start fun _ _ ho => h.bind h.bump fun _ => h.bind (h.expressionList he) fun _ =>
    h.bind (h.eat _) fun _ => h.finish ho _

omit he in
theorem breakStatement : R Unit Production.breakStatement Production.breakStatement :=
  h.seq h.start fun _ _ ho => h.bind h.bump fun _ => h.finish ho _

omit he in
theorem gotoStatement : R Unit Production.gotoStatement Production.gotoStatement :=
  h.seq h.start fun _ _ ho => h.bind h.bump fun _ => h.bind (h.expect _) fun _ => h.finish ho _

omit he in
theorem labelStatement : R Unit Production.labelStatement Production.labelStatement :=
  h.seq h.start fun _ _ ho => h.bind h.bump fun _ => h.bind (h.expect _) fun _ =>
    h.bind (h.expect _) fun _ => h.finish ho _

/-! ## Calls, assignments and bare expressions -/

omit he in
/-- A report is made of a span and what is said about it. -/
theorem reportingSince {β : Type} [Answer β] {p : Problem} {old old' : Snapshot} {f g : Unit → Parser β}
    (hp : p ∉ [.recursionLimitExceeded, .unfinishedComment]) (hf : R β (f ()) (g ())) :
    R β (do let span ← Parser.spanSince old; Parser.report ⟨p, span, none, []⟩ >>= f)
      (do let span ← Parser.spanSince old'; Parser.report ⟨p, span, none, []⟩ >>= g) := by
  rw [← bind_assoc, ← bind_assoc]
  exact h.bind (h.reportSince p old old' hp) fun _ => hf

omit he in
theorem assignee (hc : Alike c c') : R Unit (Production.assignee c) (Production.assignee c') := by
  have hwrap : R Unit (do Production.finish (← Parser.precede c) .var)
      (do Production.finish (← Parser.precede c') .var) :=
    h.seq (h.precede hc) fun _ _ ho => h.finish ho _
  rw [Production.assignee, Production.assignee, ← hc.2]
  split
  · exact h.reportingSince (by simp) hwrap
  · exact hwrap

theorem moreVariables : R Unit (Production.moreVariables enter) (Production.moreVariables enter') := by
  refine h.loop (fun _ _ _ => h.bind (h.eat _) fun b => ?_) rfl
  split
  · exact h.answer _
  refine h.seq (h.chain he) fun a a' ha => ?_
  match a, a', ha with
  | some _, some _, .some hc => exact h.bind (h.assignee hc) fun _ => h.answer _
  | none, none, _ => exact h.bind (h.expect _) fun _ => h.answer _

variable {whole whole' list list' : Opening}

theorem assignment (hwhole : Alike whole whole') (hlist : Alike list list') (hc : Alike c c') :
    R Unit (Production.assignment enter whole list c) (Production.assignment enter' whole' list' c') :=
  h.bind (h.assignee hc) fun _ => h.bind (h.moreVariables he) fun _ => h.bind (h.finish hlist _) fun _ =>
    h.bind (h.expect _) fun _ => h.bind (h.expectExpressionList he) fun _ => h.finish hwhole _

theorem bareEnd (hwhole : Alike whole whole') (hlist : Alike list list') :
    R Unit (Production.bareEnd enter whole list) (Production.bareEnd enter' whole' list') :=
  h.bind (h.moreExpressions he) fun _ => h.seq (h.complete _ hlist) fun _ _ _ =>
    h.reportingSince (by simp) (h.finish hwhole _)

theorem bareExpression (hwhole : Alike whole whole') (hlist : Alike list list') (ha : Alike a a') :
    R Unit (Production.bareExpression enter whole list a)
      (Production.bareExpression enter' whole' list' a') := by
  refine h.seq (he (.operation _ ha)) fun b b' hb => ?_
  match b, b', hb with
  | none, none, _ => exact h.bind (h.problem (by decide) _) fun _ => h.bareEnd he hwhole hlist
  | some _, some _, _ => exact h.bareEnd he hwhole hlist

omit he in
theorem isAtEither (k l : Kind) : R Bool (Production.isAtEither k l) (Production.isAtEither k l) := by
  refine h.bind (h.isAt k) fun b => ?_
  split
  · exact h.answer _
  · exact h.isAt l

/-- What follows a leading chain is the one place where the settings are asked for. -/
theorem afterChain (hbare : ∀ {f g : BareExpressions → Parser Unit}, (∀ b, R Unit (f b) (g b)) →
      R Unit (do f (← read).settings.bare) (do g (← read).settings.bare))
    (hwhole : Alike whole whole') (hlist : Alike list list') (hc : Alike c c') :
    R Unit (Production.afterChain enter whole list c) (Production.afterChain enter' whole' list' c') := by
  refine h.bind (h.isAtEither _ _) fun b => ?_
  split
  · exact h.assignment he hwhole hlist hc
  refine hbare (f := fun bare => if bare = .requireAssignment then
    Production.assignment enter whole list c else Production.bareExpression enter whole list (some c))
    (g := fun bare => if bare = .requireAssignment then Production.assignment enter' whole' list' c'
    else Production.bareExpression enter' whole' list' (some c')) fun bare => ?_
  split
  · exact h.assignment he hwhole hlist hc
  · exact h.bareExpression he hwhole hlist (.some hc)

theorem chainStatement (hafter : ∀ {whole whole' list list' : Opening} {c c' : Closed},
      Alike whole whole' → Alike list list' → Alike c c' → R Unit
        (Production.afterChain enter whole list c) (Production.afterChain enter' whole' list' c')) :
    R Unit (Production.chainStatement enter) (Production.chainStatement enter') := by
  refine h.seq h.start fun whole whole' hwhole => h.seq h.start fun list list' hlist =>
    h.seq (h.chain he) fun first first' hfirst => ?_
  match first, first', hfirst with
  | none, none, ha => exact h.bareExpression he hwhole hlist ha
  | some c, some c', .some hc =>
    dsimp only
    rw [← hc.2]
    split
    · refine h.bind (h.isAtEither _ _) fun b => ?_
      split
      · exact h.bind (h.abandon hlist) fun _ => h.bind (h.finish hwhole _) fun _ => h.answer _
      · exact hafter hwhole hlist hc
    · exact hafter hwhole hlist hc

end

/-! ## Lists of statements -/

section

/- What a leading chain leads to is left open. -/
variable (hchain : ∀ {enter enter' : Enter}, Enters R enter enter' →
  R Unit (Production.chainStatement enter) (Production.chainStatement enter'))
include hchain

section

variable {enter enter' : Enter} {o o' : Opening}
  (he : Enters R enter enter')
include he

theorem statement : R Bool (Production.statement enter) (Production.statement enter') := by
  have hdone {p p' : Parser Unit} (hp : R Unit p p') : R Bool (do p; return true) (do p'; return true) :=
    h.bind hp fun _ => h.answer _
  refine h.bind h.peek fun k => ?_
  split
  · exact hdone (h.doStatement he)
  · exact hdone (h.whileStatement he)
  · exact hdone (h.repeatStatement he)
  · exact hdone (h.ifStatement he)
  · exact hdone (h.forStatement he)
  · exact hdone (h.functionStatement he)
  · exact hdone (h.localStatement he)
  · exact hdone h.breakStatement
  · exact hdone (h.returnStatement he)
  · exact hdone h.gotoStatement
  · exact hdone h.labelStatement
  · exact hdone (hchain he)
  · exact hdone (hchain he)
  · exact h.answer _

theorem statementRound :
    R (Round Unit Unit) (Production.statementRound enter) (Production.statementRound enter') := by
  refine h.bind (h.eat _) fun b => ?_
  split
  · exact h.answer _
  refine h.bind (h.isAt _) fun last => h.bind (h.statement hchain he) fun b => ?_
  split
  · exact h.answer _
  · exact h.answer _

theorem statements : R Unit (Production.statements enter) (Production.statements enter') :=
  h.loop (fun _ _ _ => h.statementRound hchain he) rfl

theorem garbageRound :
    R (Round Unit Unit) (Production.garbageRound enter) (Production.garbageRound enter') := by
  have hbump : R (Round Unit Unit) (do Parser.bump; return .again ()) (do Parser.bump; return .again ()) :=
    h.bind h.bump fun _ => h.answer _
  refine h.bind h.isAtEnd fun b => ?_
  split
  · exact h.answer _
  refine h.bind (h.isAtOneOf _) fun b => ?_
  split
  · refine h.bind (h.statement hchain he) fun b => ?_
    split
    · exact h.answer _
    · exact hbump
  · exact hbump

/-- What follows the report that something is left over. -/
theorem leftovers (ho : Alike o o') : R Unit (do
    Parser.loop () fun _ => Production.garbageRound enter
    Production.finish o .garbage) (do
    Parser.loop () fun _ => Production.garbageRound enter'
    Production.finish o' .garbage) :=
  h.bind (h.loop (fun _ _ _ => h.garbageRound hchain he) rfl) fun _ => h.finish ho _

theorem garbage : R Unit (Production.garbage enter) (Production.garbage enter') :=
  h.seq h.start fun _ _ ho => h.bind (h.problem (by decide) _) fun _ => h.leftovers hchain he ho

end

/-! ## Whole sources -/

/-- A counted production may be entered with levels to spare. -/
theorem entered (k : Nat) : ∀ n : Nat, Enters R (Production.enter n) (Production.enter (n + k))
  | 0 => fun _ _ _ => h.fault _ _
  | n + 1 => fun _ _ hee => by
    rw [Nat.add_right_comm]
    refine h.nested ?_
    cases hee with
    | operation levels ha => exact h.operation (entered k n) levels ha
    | unary => exact h.unary (entered k n) .none
    | statements => exact h.bind (h.statements hchain (entered k n)) fun _ => h.pure .none

end

end Congruence

namespace Compositional

variable {P : (α : Type) → Parser α → Prop}

theorem enters {enter : Enter} (he : ∀ e, P (Option Closed) (enter e)) :
    Congruence.Enters (fun α _ p _ => P α p) enter enter :=
  fun e _ _ => he e

variable (h : Compositional P)
include h

/-- Only what leads from a chain to the rest of its statement asks for the settings. -/
theorem chainStatement (hbare : ∀ {f : BareExpressions → Parser Unit}, (∀ b, P Unit (f b)) →
      P Unit (do f (← read).settings.bare)) {enter enter' : Enter}
    (he : Congruence.Enters (fun α _ p _ => P α p) enter enter') : P Unit (Production.chainStatement enter) :=
  h.congruence.chainStatement he fun {whole _ list _ c _} _ _ _ =>
    h.congruence.afterChain he hbare (Answer.refl whole) (Answer.refl list) (Answer.refl c)

variable (hchain : ∀ {enter enter' : Enter}, Congruence.Enters (fun α _ p _ => P α p) enter enter' →
  P Unit (Production.chainStatement enter))
include hchain

theorem entered (n : Nat) (e : Entry) : P (Option Closed) (Production.enter n e) :=
  h.congruence.entered hchain 0 n (.refl e)

/-- **What holds of the words and is kept by composition holds of whole sources.** -/
theorem chunk : P Unit Production.chunk := by
  refine h.bound (f := fun n => do
      let o ← Parser.start
      Parser.wrapUnknown
      Production.block (Production.enter n)
      if !(← Parser.isAtEnd) then Production.garbage (Production.enter n)
      Production.finish o .chunk) fun n => ?_
  have he := enters (h.entered hchain n)
  have hfinish (o : Opening) : P Unit (Production.finish o .chunk) :=
    h.congruence.finish (Answer.refl o) _
  refine h.bind h.start fun o => h.bind h.wrapUnknown fun _ => h.bind (h.congruence.block he) fun _ =>
    h.bind h.congruence.isAtEnd fun b => ?_
  split
  · exact h.bind (h.congruence.garbage hchain he) fun _ => hfinish o
  · exact hfinish o

end Compositional

end LuaTree
