/-!
# Kind — the kinds of tokens and of tree nodes

One enumeration names the leaves and the inner nodes of a tree. The token kinds come first, in the
order of the lexical rules, and `chunk` is the first node kind; the number of a kind is its place in
this order, and the listings name it by its label.
-/

namespace LuaTree

/-- The kinds of tokens, then the kinds of nodes. -/
inductive Kind where
  -- keywords
  | kwAnd | kwBreak | kwDo | kwElse | kwElseif | kwEnd | kwFalse | kwFor | kwFunction | kwGoto
  | kwIf | kwIn | kwLocal | kwNil | kwNot | kwOr | kwRepeat | kwReturn | kwThen | kwTrue
  | kwUntil | kwWhile
  -- brackets and punctuation
  | parenOpen | parenClose | braceOpen | braceClose | bracketOpen | bracketClose | doubleColon
  | semicolon | colon | comma | dot | dotDot | ellipsis
  -- operators
  | shl | shr | pipe | ampersand | tilde | plus | minus | star | slash | doubleSlash | percent
  | caret | hash | less | lessEquals | greater | greaterEquals | equalsEquals | tildeEquals
  | equals
  -- literals and names
  | decInt | hexInt | octInt | realNumber | singleQuotedString | doubleQuotedString | longString
  | ident
  -- trivia; `comment` is the opener alone, before it is known to be a line or a block
  | whitespace | newline | comment | lineComment | blockComment
  -- a character that no rule matches
  | invalidChar
  -- chunks, blocks and statements
  | chunk | block | statementList | assignmentStatement | callStatement | expressionStatement
  | doStatement | whileStatement | repeatStatement | ifStatement | thenBranch | elseifBranch
  | elseBranch | simpleForStatement | rangeForStatement | functionDefinitionStatement
  | functionName | localFunctionStatement | localNameStatement | returnStatement | breakStatement
  | gotoStatement | labelStatement
  -- names and expressions
  | name | nameList | nameRef | var | variableList | parenExpression | indexExpression
  | callExpression | expressionList | nilLiteral | booleanLiteral | numberLiteral | stringLiteral
  | varargLiteral | binaryExpression | binaryOperator | unaryExpression | unaryOperator
  | tableExpression | tableField | tableFieldSeparator | functionExpression | functionBody
  | parameterList | argumentList
  -- what could not be parsed, and the opening that stands for no node
  | garbage | error | tombstone
  deriving DecidableEq

namespace Kind

/-- Every kind, in order. -/
def all : List Kind :=
  [.kwAnd, .kwBreak, .kwDo, .kwElse, .kwElseif, .kwEnd, .kwFalse, .kwFor, .kwFunction, .kwGoto,
   .kwIf, .kwIn, .kwLocal, .kwNil, .kwNot, .kwOr, .kwRepeat, .kwReturn, .kwThen, .kwTrue,
   .kwUntil, .kwWhile, .parenOpen, .parenClose, .braceOpen, .braceClose, .bracketOpen,
   .bracketClose, .doubleColon, .semicolon, .colon, .comma, .dot, .dotDot, .ellipsis, .shl, .shr,
   .pipe, .ampersand, .tilde, .plus, .minus, .star, .slash, .doubleSlash, .percent, .caret,
   .hash, .less, .lessEquals, .greater, .greaterEquals, .equalsEquals, .tildeEquals, .equals,
   .decInt, .hexInt, .octInt, .realNumber, .singleQuotedString, .doubleQuotedString, .longString,
   .ident, .whitespace, .newline, .comment, .lineComment, .blockComment, .invalidChar, .chunk,
   .block, .statementList, .assignmentStatement, .callStatement, .expressionStatement,
   .doStatement, .whileStatement, .repeatStatement, .ifStatement, .thenBranch, .elseifBranch,
   .elseBranch, .simpleForStatement, .rangeForStatement, .functionDefinitionStatement,
   .functionName, .localFunctionStatement, .localNameStatement, .returnStatement,
   .breakStatement, .gotoStatement, .labelStatement, .name, .nameList, .nameRef, .var,
   .variableList, .parenExpression, .indexExpression, .callExpression, .expressionList,
   .nilLiteral, .booleanLiteral, .numberLiteral, .stringLiteral, .varargLiteral,
   .binaryExpression, .binaryOperator, .unaryExpression, .unaryOperator, .tableExpression,
   .tableField, .tableFieldSeparator, .functionExpression, .functionBody, .parameterList,
   .argumentList, .garbage, .error, .tombstone]

/-- The place of a kind in the order. -/
def number (k : Kind) : Nat := k.ctorIdx

/-- The kind at a place in the order. -/
def ofNumber? (n : Nat) : Option Kind := all[n]?

theorem ofNumber?_number (k : Kind) : ofNumber? k.number = some k := by cases k <;> rfl

theorem mem_all (k : Kind) : k ∈ all := List.mem_of_getElem? (ofNumber?_number k)

theorem number_injective {a b : Kind} (h : a.number = b.number) : a = b := by
  have := ofNumber?_number a
  rw [h, ofNumber?_number b] at this
  exact (Option.some.inj this).symm

/-- The name under which listings show a kind. -/
def label : Kind → String
  | .kwAnd => "KwAnd"
  | .kwBreak => "KwBreak"
  | .kwDo => "KwDo"
  | .kwElse => "KwElse"
  | .kwElseif => "KwElseif"
  | .kwEnd => "KwEnd"
  | .kwFalse => "KwFalse"
  | .kwFor => "KwFor"
  | .kwFunction => "KwFunction"
  | .kwGoto => "KwGoto"
  | .kwIf => "KwIf"
  | .kwIn => "KwIn"
  | .kwLocal => "KwLocal"
  | .kwNil => "KwNil"
  | .kwNot => "KwNot"
  | .kwOr => "KwOr"
  | .kwRepeat => "KwRepeat"
  | .kwReturn => "KwReturn"
  | .kwThen => "KwThen"
  | .kwTrue => "KwTrue"
  | .kwUntil => "KwUntil"
  | .kwWhile => "KwWhile"
  | .parenOpen => "ParenOpen"
  | .parenClose => "ParenClose"
  | .braceOpen => "BraceOpen"
  | .braceClose => "BraceClose"
  | .bracketOpen => "BracketOpen"
  | .bracketClose => "BracketClose"
  | .doubleColon => "DoubleColon"
  | .semicolon => "Semicolon"
  | .colon => "Colon"
  | .comma => "Comma"
  | .dot => "Dot"
  | .dotDot => "DotDot"
  | .ellipsis => "Ellipsis"
  | .shl => "Shl"
  | .shr => "Shr"
  | .pipe => "Pipe"
  | .ampersand => "Ampersand"
  | .tilde => "Tilde"
  | .plus => "Plus"
  | .minus => "Minus"
  | .star => "Star"
  | .slash => "Slash"
  | .doubleSlash => "DoubleSlash"
  | .percent => "Percent"
  | .caret => "Caret"
  | .hash => "Hash"
  | .less => "Less"
  | .lessEquals => "LessEquals"
  | .greater => "Greater"
  | .greaterEquals => "GreaterEquals"
  | .equalsEquals => "EqualsEquals"
  | .tildeEquals => "TildeEquals"
  | .equals => "Equals"
  | .decInt => "DecInt"
  | .hexInt => "HexInt"
  | .octInt => "OctInt"
  | .realNumber => "RealNumber"
  | .singleQuotedString => "SingleQuotedString"
  | .doubleQuotedString => "DoubleQuotedString"
  | .longString => "LongString"
  | .ident => "Ident"
  | .whitespace => "Whitespace"
  | .newline => "Newline"
  | .comment => "Comment"
  | .lineComment => "LineComment"
  | .blockComment => "BlockComment"
  | .invalidChar => "InvalidChar"
  | .chunk => "Chunk"
  | .block => "Block"
  | .statementList => "StatementList"
  | .assignmentStatement => "AssignmentStatement"
  | .callStatement => "CallStatement"
  | .expressionStatement => "ExpressionStatement"
  | .doStatement => "DoStatement"
  | .whileStatement => "WhileStatement"
  | .repeatStatement => "RepeatStatement"
  | .ifStatement => "IfStatement"
  | .thenBranch => "ThenBranch"
  | .elseifBranch => "ElseifBranch"
  | .elseBranch => "ElseBranch"
  | .simpleForStatement => "SimpleForStatement"
  | .rangeForStatement => "RangeForStatement"
  | .functionDefinitionStatement => "FunctionDefinitionStatement"
  | .functionName => "FunctionName"
  | .localFunctionStatement => "LocalFunctionStatement"
  | .localNameStatement => "LocalNameStatement"
  | .returnStatement => "ReturnStatement"
  | .breakStatement => "BreakStatement"
  | .gotoStatement => "GotoStatement"
  | .labelStatement => "LabelStatement"
  | .name => "Name"
  | .nameList => "NameList"
  | .nameRef => "NameRef"
  | .var => "Variable"
  | .variableList => "VariableList"
  | .parenExpression => "ParenExpression"
  | .indexExpression => "IndexExpression"
  | .callExpression => "CallExpression"
  | .expressionList => "ExpressionList"
  | .nilLiteral => "NilLiteral"
  | .booleanLiteral => "BooleanLiteral"
  | .numberLiteral => "NumberLiteral"
  | .stringLiteral => "StringLiteral"
  | .varargLiteral => "VarargLiteral"
  | .binaryExpression => "BinaryExpression"
  | .binaryOperator => "BinaryOperator"
  | .unaryExpression => "UnaryExpression"
  | .unaryOperator => "UnaryOperator"
  | .tableExpression => "TableExpression"
  | .tableField => "TableField"
  | .tableFieldSeparator => "TableFieldSeparator"
  | .functionExpression => "FunctionExpression"
  | .functionBody => "FunctionBody"
  | .parameterList => "ParameterList"
  | .argumentList => "ArgumentList"
  | .garbage => "Garbage"
  | .error => "Error"
  | .tombstone => "Tombstone"

/-- The kind that a label names. -/
def ofLabel? (s : String) : Option Kind := all.find? (·.label == s)

/-- The one text of a keyword, bracket, punctuation mark or operator; the other kinds have none. -/
def spelling? : Kind → Option String
  | .kwAnd => some "and"
  | .kwBreak => some "break"
  | .kwDo => some "do"
  | .kwElse => some "else"
  | .kwElseif => some "elseif"
  | .kwEnd => some "end"
  | .kwFalse => some "false"
  | .kwFor => some "for"
  | .kwFunction => some "function"
  | .kwGoto => some "goto"
  | .kwIf => some "if"
  | .kwIn => some "in"
  | .kwLocal => some "local"
  | .kwNil => some "nil"
  | .kwNot => some "not"
  | .kwOr => some "or"
  | .kwRepeat => some "repeat"
  | .kwReturn => some "return"
  | .kwThen => some "then"
  | .kwTrue => some "true"
  | .kwUntil => some "until"
  | .kwWhile => some "while"
  | .parenOpen => some "("
  | .parenClose => some ")"
  | .braceOpen => some "\x7b"
  | .braceClose => some "\x7d"
  | .bracketOpen => some "["
  | .bracketClose => some "]"
  | .doubleColon => some "::"
  | .semicolon => some ";"
  | .colon => some ":"
  | .comma => some ","
  | .dot => some "."
  | .dotDot => some ".."
  | .ellipsis => some "..."
  | .shl => some "<<"
  | .shr => some ">>"
  | .pipe => some "|"
  | .ampersand => some "&"
  | .tilde => some "~"
  | .plus => some "+"
  | .minus => some "-"
  | .star => some "*"
  | .slash => some "/"
  | .doubleSlash => some "//"
  | .percent => some "%"
  | .caret => some "^"
  | .hash => some "#"
  | .less => some "<"
  | .lessEquals => some "<="
  | .greater => some ">"
  | .greaterEquals => some ">="
  | .equalsEquals => some "=="
  | .tildeEquals => some "~="
  | .equals => some "="
  | _ => none

/-- The kinds with one fixed text, keywords first. -/
def spelled : List Kind := all.filter (·.spelling?.isSome)

theorem mem_spelled {k : Kind} : k ∈ spelled ↔ k.spelling?.isSome := by simp [spelled, mem_all]

/-- Blanks, line breaks and comments. -/
def isTrivia : Kind → Bool
  | .whitespace | .newline | .lineComment | .blockComment => true
  | _ => false

/-- The kinds that mark trouble. -/
def isTrouble : Kind → Bool
  | .error | .garbage | .invalidChar => true
  | _ => false

/-- The kinds of leaves. -/
def isToken (k : Kind) : Bool := k.number < chunk.number

/-- The tokens that the grammar sees: neither trivia nor characters that no rule matches. -/
def isSignificant (k : Kind) : Bool := !k.isTrivia && k != .invalidChar

/-- The kinds of quoted strings, in which escapes are read. -/
def isQuoted : Kind → Bool
  | .singleQuotedString | .doubleQuotedString => true
  | _ => false

end Kind

end LuaTree
