import LoxLang.Number.Decimal

/-!
# Tokens

A token is a kind, the text it was cut from, and the line on which that text starts. What a number
or string stands for is not stored beside it: it is a function of the two.

## Main definitions

* `Token.Kind` — the kinds, with `Token.Kind.label`, the name under which a kind is shown.
* `Token.Kind.ofWord` — the kind of a word: a keyword's own, or an identifier.
* `Literal` — the values that can be written in source.
* `Token.literal?` — the value of a number or a string token.
-/

namespace LoxLang

/-- The kinds of token. The last one marks the end of the source. -/
inductive Token.Kind
  | leftParen | rightParen | leftBrace | rightBrace
  | comma | dot | minus | plus | semicolon | slash | star
  | bang | bangEqual | equal | equalEqual | greater | greaterEqual | less | lessEqual
  | identifier | string | number
  | andWord | classWord | elseWord | falseWord | forWord | funWord | ifWord | nilWord
  | orWord | printWord | returnWord | superWord | thisWord | trueWord | varWord | whileWord
  | endOfSource
deriving DecidableEq, Repr, Inhabited

/-- A lexeme with its kind and the line on which it starts. -/
structure Token where
  kind : Token.Kind
  lexeme : String
  line : Nat
deriving DecidableEq, Repr, Inhabited

/-- The values that can be written down in source. -/
inductive Literal
  | nil
  | bool (value : Bool)
  | number (value : Float)
  | string (value : String)
deriving DecidableEq

namespace Token.Kind

/-- Every kind, in the order of their definition. -/
def all : List Token.Kind :=
  [leftParen, rightParen, leftBrace, rightBrace, comma, dot, minus, plus, semicolon, slash, star,
   bang, bangEqual, equal, equalEqual, greater, greaterEqual, less, lessEqual,
   identifier, string, number,
   andWord, classWord, elseWord, falseWord, forWord, funWord, ifWord, nilWord,
   orWord, printWord, returnWord, superWord, thisWord, trueWord, varWord, whileWord, endOfSource]

/-- The list of all kinds leaves none out. -/
theorem mem_all (k : Token.Kind) : k ∈ all := by cases k <;> decide

/-- The name under which a kind is shown. -/
def label : Token.Kind → String
  | leftParen => "LEFT_PAREN"
  | rightParen => "RIGHT_PAREN"
  | leftBrace => "LEFT_BRACE"
  | rightBrace => "RIGHT_BRACE"
  | comma => "COMMA"
  | dot => "DOT"
  | minus => "MINUS"
  | plus => "PLUS"
  | semicolon => "SEMICOLON"
  | slash => "SLASH"
  | star => "STAR"
  | bang => "BANG"
  | bangEqual => "BANG_EQUAL"
  | equal => "EQUAL"
  | equalEqual => "EQUAL_EQUAL"
  | greater => "GREATER"
  | greaterEqual => "GREATER_EQUAL"
  | less => "LESS"
  | lessEqual => "LESS_EQUAL"
  | identifier => "IDENTIFIER"
  | string => "STRING"
  | number => "NUMBER"
  | andWord => "AND"
  | classWord => "CLASS"
  | elseWord => "ELSE"
  | falseWord => "FALSE"
  | forWord => "FOR"
  | funWord => "FUN"
  | ifWord => "IF"
  | nilWord => "NIL"
  | orWord => "OR"
  | printWord => "PRINT"
  | returnWord => "RETURN"
  | superWord => "SUPER"
  | thisWord => "THIS"
  | trueWord => "TRUE"
  | varWord => "VAR"
  | whileWord => "WHILE"
  | endOfSource => "EOF"

/-- The reserved words. -/
def keywords : List (String × Token.Kind) :=
  [("and", andWord), ("class", classWord), ("else", elseWord), ("false", falseWord),
   ("for", forWord), ("fun", funWord), ("if", ifWord), ("nil", nilWord), ("or", orWord),
   ("print", printWord), ("return", returnWord), ("super", superWord), ("this", thisWord),
   ("true", trueWord), ("var", varWord), ("while", whileWord)]

/-- The kind of a whole word: a reserved word has its own, any other is an identifier. -/
def ofWord (word : String) : Token.Kind := (keywords.lookup word).getD identifier

/-- The operator that two characters make together. -/
def ofPair? : Char → Char → Option Token.Kind
  | '!', '=' => some bangEqual
  | '=', '=' => some equalEqual
  | '>', '=' => some greaterEqual
  | '<', '=' => some lessEqual
  | _, _ => none

/-- The operator or mark that one character makes by itself. -/
def ofSymbol? : Char → Option Token.Kind
  | '(' => some leftParen
  | ')' => some rightParen
  | '\x7b' => some leftBrace
  | '\x7d' => some rightBrace
  | ',' => some comma
  | '.' => some dot
  | '-' => some minus
  | '+' => some plus
  | ';' => some semicolon
  | '/' => some slash
  | '*' => some star
  | '!' => some bang
  | '=' => some equal
  | '>' => some greater
  | '<' => some less
  | _ => none

/-- Whether a token of this kind begins a declaration or a statement of its own, so that reading
can start again in front of it. -/
def startsStatement : Token.Kind → Bool
  | classWord | funWord | varWord | forWord | ifWord | whileWord | printWord | returnWord => true
  | _ => false

end Token.Kind

namespace Token

/-- The token that marks the end of a source whose last line this is. -/
def atEnd (line : Nat) : Token := ⟨.endOfSource, "", line⟩

/-- The number that a number token stands for. -/
def numberOf (lexeme : String) : Float := (Decimal.ofNumeral lexeme.toList).toFloat

/-- The text of a string token between its quotes. -/
def textOf (lexeme : String) : String := String.ofList (lexeme.toList.drop 1).dropLast

/-- The value that a number or a string token stands for. -/
def literal? (t : Token) : Option Literal :=
  match t.kind with
  | .number => some (.number (numberOf t.lexeme))
  | .string => some (.string (textOf t.lexeme))
  | _ => none

end Token

end LoxLang
