import LuaTree.Kind

/-!
# KindSet — sets of kinds as bits of one number

The parser asks at every step whether the next token belongs to a group of kinds. A set keeps one
bit for each kind, at the place of the kind in the order of `Kind`, so membership is a bit test and
union is bitwise or.
-/

namespace LuaTree

/-- A set of kinds: bit `k.number` tells whether `k` is in it. -/
structure KindSet where
  bits : Nat
  deriving DecidableEq

namespace KindSet

def empty : KindSet := ⟨0⟩

def single (k : Kind) : KindSet := ⟨1 <<< k.number⟩

def union (s t : KindSet) : KindSet := ⟨s.bits ||| t.bits⟩

def ofList : List Kind → KindSet
  | [] => empty
  | k :: ks => (single k).union (ofList ks)

def contains (s : KindSet) (k : Kind) : Bool := s.bits.testBit k.number

instance : Membership Kind KindSet := ⟨fun s k => s.contains k = true⟩

instance (k : Kind) (s : KindSet) : Decidable (k ∈ s) :=
  inferInstanceAs (Decidable (s.contains k = true))

theorem mem_iff_contains {k : Kind} {s : KindSet} : k ∈ s ↔ s.contains k = true := Iff.rfl

@[simp] theorem contains_empty (k : Kind) : empty.contains k = false := by
  simp [contains, empty]

@[simp] theorem contains_union (s t : KindSet) (k : Kind) :
    (s.union t).contains k = (s.contains k || t.contains k) := by
  simp [contains, union]

@[simp] theorem contains_single (a k : Kind) : (single a).contains k = decide (k = a) := by
  have : k = a ↔ k.number = a.number := ⟨congrArg _, Kind.number_injective⟩
  simp only [contains, single, Nat.one_shiftLeft, Nat.testBit_two_pow, this, eq_comm]

@[simp] theorem contains_ofList (ks : List Kind) (k : Kind) :
    (ofList ks).contains k = decide (k ∈ ks) := by
  induction ks with
  | nil => simp [ofList]
  | cons a ks ih => simp [ofList, ih]

/-- The members, in the order of the kinds. -/
def toList (s : KindSet) : List Kind := Kind.all.filter s.contains

theorem mem_toList {s : KindSet} {k : Kind} : k ∈ s.toList ↔ k ∈ s := by
  simp [toList, Kind.mem_all, mem_iff_contains]

/-- The labels of the members, in order, between braces. -/
def describe (s : KindSet) : String :=
  "\x7b" ++ ", ".intercalate (s.toList.map Kind.label) ++ "\x7d"

/-! ## The groups of kinds that the lexical rules, the grammar and the highlighting speak of -/

def keywords : KindSet :=
  ofList [.kwAnd, .kwBreak, .kwDo, .kwElse, .kwElseif, .kwEnd, .kwFalse, .kwFor, .kwFunction,
    .kwGoto, .kwIf, .kwIn, .kwLocal, .kwNil, .kwNot, .kwOr, .kwRepeat, .kwReturn, .kwThen,
    .kwTrue, .kwUntil, .kwWhile]

def constants : KindSet := ofList [.kwTrue, .kwFalse, .kwNil]

def numbers : KindSet := ofList [.decInt, .hexInt, .octInt, .realNumber]

def strings : KindSet := ofList [.singleQuotedString, .doubleQuotedString, .longString]

def literals : KindSet := (constants.union numbers).union strings

def comments : KindSet := ofList [.lineComment, .blockComment]

def trivia : KindSet := ofList [.whitespace, .newline, .lineComment, .blockComment]

def operators : KindSet :=
  ofList [.dotDot, .shl, .shr, .pipe, .ampersand, .tilde, .plus, .minus, .star, .slash,
    .doubleSlash, .percent, .caret, .hash, .less, .lessEquals, .greater, .greaterEquals,
    .equalsEquals, .tildeEquals, .equals]

/-! One group of binary operators for each level of precedence, lowest first. -/

def disjunction : KindSet := single .kwOr

def conjunction : KindSet := single .kwAnd

def relational : KindSet :=
  ofList [.less, .lessEquals, .greater, .greaterEquals, .equalsEquals, .tildeEquals]

def bitOr : KindSet := single .pipe

def bitXor : KindSet := single .tilde

def bitAnd : KindSet := single .ampersand

def shifts : KindSet := ofList [.shl, .shr]

def concatenation : KindSet := single .dotDot

def additive : KindSet := ofList [.plus, .minus]

def multiplicative : KindSet := ofList [.star, .slash, .doubleSlash, .percent]

def unaryOperators : KindSet := ofList [.kwNot, .hash, .minus, .tilde]

def power : KindSet := single .caret

def binaryOperators : KindSet :=
  [conjunction, relational, bitOr, bitXor, bitAnd, shifts, concatenation, additive,
    multiplicative, power].foldl union disjunction

def fieldSeparators : KindSet := ofList [.comma, .semicolon]

/-- What extends a chain of suffixes. -/
def suffixFirst : KindSet :=
  ofList [.dot, .colon, .bracketOpen, .parenOpen, .braceOpen, .singleQuotedString,
    .doubleQuotedString, .longString]

/-- What an expression begins with. -/
def expressionFirst : KindSet :=
  (literals.union unaryOperators).union
    (ofList [.ellipsis, .braceOpen, .kwFunction, .parenOpen, .ident])

/-- What a statement begins with. -/
def statementFirst : KindSet :=
  ofList [.kwDo, .kwWhile, .kwRepeat, .kwIf, .kwFor, .kwFunction, .kwLocal, .kwBreak, .kwReturn,
    .kwGoto, .doubleColon, .ident, .parenOpen]

/-- What is read as a statement again when it stands in text that nothing else could use. -/
def salvageFirst : KindSet :=
  ofList [.kwFunction, .kwDo, .kwWhile, .kwRepeat, .ident, .kwIf, .kwFor]

end KindSet

end LuaTree
