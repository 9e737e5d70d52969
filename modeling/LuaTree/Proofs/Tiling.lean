import LuaTree.Proofs.Tree
import LuaTree.Proofs.Draft

/-!
# Proofs/Tiling — tokens that cover a source, and trees over them

Tokens tile a source if none is empty, each starts where the one before it ends and their texts,
joined, are the source.  A tree whose leaves are such tokens gives the tokens back, offsets included, and
has the text and the size of the source.
-/

namespace LuaTree

/-- Each token starts where the one before it ends, the first at an offset. -/
def Token.Adjacent : Nat → List Token → Prop
  | _, [] => True
  | n, t :: ts => t.start = n ∧ Token.Adjacent t.stop ts

/-- The texts of tokens, joined. -/
def Token.textOfList : List Token → String
  | [] => ""
  | t :: ts => t.text ++ Token.textOfList ts

/-- **Tokens that cover a source in order.** -/
structure Token.Tiles (tokens : List Token) (source : String) : Prop where
  filled : ∀ t ∈ tokens, t.text ≠ ""
  adjacent : Token.Adjacent 0 tokens
  text : Token.textOfList tokens = source

namespace Token

variable {tokens : List Token} {source : String} {n : Nat}

/-- The number of bytes of tokens that stand one after the other. -/
def sizeOfList (ts : List Token) : Nat := (textOfList ts).utf8ByteSize

theorem sizeOfList_cons (t : Token) (ts : List Token) :
    sizeOfList (t :: ts) = t.text.utf8ByteSize + sizeOfList ts :=
  String.utf8ByteSize_append

theorem Adjacent.bounds {ts : List Token} (h : Adjacent n ts) {t : Token} (ht : t ∈ ts) :
    n ≤ t.start ∧ t.stop ≤ n + sizeOfList ts := by
  induction ts generalizing n with
  | nil => simp at ht
  | cons u us ih =>
    obtain ⟨rfl, hus⟩ := h
    rw [sizeOfList_cons]
    rcases List.mem_cons.1 ht with rfl | ht
    · simp only [stop]
      omega
    · have := ih hus ht
      simp only [stop] at this
      simp only [stop]
      omega

theorem Adjacent.pairwise {ts : List Token} (h : Adjacent n ts) :
    ts.Pairwise fun t u => t.stop ≤ u.start := by
  induction ts generalizing n with
  | nil => exact .nil
  | cons t ts ih => exact List.pairwise_cons.2 ⟨fun u hu => (h.2.bounds hu).1, ih h.2⟩

/-- The tokens of a row of leaves that starts at an offset. -/
def placeFrom (n : Nat) : List (Kind × String) → List Token
  | [] => []
  | l :: ls => ⟨l.1, n, l.2⟩ :: placeFrom (n + l.2.utf8ByteSize) ls

theorem Adjacent.placeFrom {ts : List Token} (h : Adjacent n ts) :
    placeFrom n (ts.map Token.leaf) = ts := by
  induction ts generalizing n with
  | nil => rfl
  | cons t ts ih =>
    obtain ⟨rfl, hts⟩ := h
    rw [List.map_cons, Token.placeFrom]
    exact congrArg (t :: ·) (ih hts)

end Token

namespace Tree

/-- The texts of a row of leaves, joined. -/
def textOfLeaves : List (Kind × String) → String
  | [] => ""
  | l :: ls => l.2 ++ textOfLeaves ls

theorem textOfLeaves_append (ls ms : List (Kind × String)) :
    textOfLeaves (ls ++ ms) = textOfLeaves ls ++ textOfLeaves ms := by
  induction ls with
  | nil => simp [textOfLeaves]
  | cons l ls ih => simp [textOfLeaves, ih, String.append_assoc]

mutual

theorem textOfLeaves_leaves : ∀ t : Tree, textOfLeaves t.leaves = t.text
  | leaf k s => by simp [leaves, textOfLeaves, text]
  | node _ cs => textOfLeaves_leavesOfList cs

theorem textOfLeaves_leavesOfList : ∀ ts : List Tree, textOfLeaves (leavesOfList ts) = textOfList ts
  | [] => rfl
  | t :: ts => by
    rw [leavesOfList, textOfLeaves_append, textOfList, textOfLeaves_leaves t,
      textOfLeaves_leavesOfList ts]

end

theorem textOfLeaves_map_leaf (ts : List Token) :
    textOfLeaves (ts.map Token.leaf) = Token.textOfList ts := by
  induction ts with
  | nil => rfl
  | cons t ts ih => exact congrArg (t.text ++ ·) ih

theorem placeFrom_append (n : Nat) (ls ms : List (Kind × String)) :
    Token.placeFrom n (ls ++ ms) =
      Token.placeFrom n ls ++ Token.placeFrom (n + (textOfLeaves ls).utf8ByteSize) ms := by
  induction ls generalizing n with
  | nil => simp [Token.placeFrom, textOfLeaves]
  | cons l ls ih => simp [Token.placeFrom, textOfLeaves, ih, Nat.add_assoc]

mutual

theorem tokensFrom_eq : ∀ (n : Nat) (t : Tree), t.tokensFrom n = Token.placeFrom n t.leaves
  | _, leaf _ _ => rfl
  | n, node _ cs => tokensOfRow_eq n cs

theorem tokensOfRow_eq : ∀ (n : Nat) (ts : List Tree),
    tokensOfRow n ts = Token.placeFrom n (leavesOfList ts)
  | _, [] => rfl
  | n, t :: ts => by
    rw [tokensOfRow, leavesOfList, placeFrom_append, tokensFrom_eq n t, tokensOfRow_eq _ ts,
      textOfLeaves_leaves, utf8ByteSize_text]

end

variable {tokens : List Token} {source : String} {t : Tree}

/-- **A tree over tokens that tile a source** gives the tokens and the source back. -/
theorem tokens_and_text_of_leaves (h : Token.Tiles tokens source)
    (ht : t.leaves = tokens.map Token.leaf) : t.tokens = tokens ∧ t.text = source := by
  constructor
  · rw [Tree.tokens, tokensFrom_eq, ht, h.adjacent.placeFrom]
  · rw [← textOfLeaves_leaves, ht, textOfLeaves_map_leaf, h.text]

end Tree

end LuaTree
