import LoxLang.Token

/-!
# What can be wrong with a program

A fault names its cause; its wording is a function of the cause. Faults of the text are found by
scanning and parsing and are only collected. A run-time fault ends a run.

## Main definitions

* `LexicalFault`, `SyntaxFault` — faults of the text.
* `Complaint` — a fault of the text as it is reported: line, place and message.
* `RuntimeFault` — a fault of a run, at the token that was at work.
-/

namespace LoxLang

/-- Why a stretch of source is no token. -/
inductive LexicalFault.Cause
  | unexpectedCharacter (c : Char)
  | unterminatedString
deriving DecidableEq, Repr

/-- A stretch of source that is no token, and the line where that is found out. -/
structure LexicalFault where
  cause : LexicalFault.Cause
  line : Nat
deriving DecidableEq, Repr

/-- What the grammar asks for at a place. -/
inductive Expected
  | functionName | parenAfterFunctionName | parameterName | parenAfterParameters
  | braceBeforeFunctionBody | variableName | semicolonAfterVariable
  | parenAfterFor | semicolonAfterLoopCondition | parenAfterForClauses
  | parenAfterIf | parenAfterIfCondition | parenAfterWhile | parenAfterWhileCondition
  | semicolonAfterPrinted | semicolonAfterReturned | braceAfterBlock | semicolonAfterExpression
  | parenAfterArguments | parenAfterGrouping | expression | endOfExpression
deriving DecidableEq, Repr

/-- The words for what is asked for. -/
def Expected.words : Expected → String
  | functionName => "function name"
  | parenAfterFunctionName => "'(' after function name"
  | parameterName => "parameter name"
  | parenAfterParameters => "')' after parameters"
  | braceBeforeFunctionBody => "'\x7b' before function body"
  | variableName => "variable name"
  | semicolonAfterVariable => "';' after variable declaration"
  | parenAfterFor => "'(' after 'for'"
  | semicolonAfterLoopCondition => "';' after loop condition"
  | parenAfterForClauses => "')' after for clauses"
  | parenAfterIf => "'(' after 'if'"
  | parenAfterIfCondition => "')' after if condition"
  | parenAfterWhile => "'(' after 'while'"
  | parenAfterWhileCondition => "')' after condition"
  | semicolonAfterPrinted => "';' after value"
  | semicolonAfterReturned => "';' after return value"
  | braceAfterBlock => "'\x7d' after block"
  | semicolonAfterExpression => "';' after expression"
  | parenAfterArguments => "')' after arguments"
  | parenAfterGrouping => "')' after expression"
  | expression => "expression"
  | endOfExpression => "end of expression"

/-- Why a run of tokens is not what the grammar asks for. -/
inductive SyntaxFault.Cause
  /-- The token at hand is not what has to come next. -/
  | expected (what : Expected)
  /-- A parameter after the last one that a function may have. -/
  | tooManyParameters
  /-- An argument after the last one that a call may have. -/
  | tooManyArguments
  /-- A return outside every function body. -/
  | returnOutsideFunction
  /-- An assignment to what is not a variable. -/
  | invalidTarget
deriving DecidableEq, Repr

/-- A place in a run of tokens where the grammar is broken: at a token, or past the last one. -/
structure SyntaxFault where
  cause : SyntaxFault.Cause
  token? : Option Token
deriving DecidableEq, Repr

/-- A fault of the text as it is reported. -/
structure Complaint where
  line : Int
  /-- Where on the line, as it follows the word "Error". -/
  place : String
  message : String
deriving DecidableEq, Repr

/-- The most parameters a function and the most arguments a call may have. -/
def maxArity : Nat := 255

namespace LexicalFault

/-- The wording of a lexical fault. -/
def Cause.message : Cause → String
  | .unexpectedCharacter c => "Unexpected character '" ++ String.singleton c ++ "'."
  | .unterminatedString => "Unterminated string."

/-- A lexical fault as it is reported, by its line alone. -/
def complaint (f : LexicalFault) : Complaint := ⟨f.line, "", f.cause.message⟩

end LexicalFault

namespace SyntaxFault

/-- The wording of a syntax fault. -/
def Cause.message : Cause → String
  | .expected what => "Expect " ++ what.words ++ "."
  | .tooManyParameters => "Can't have more than " ++ toString maxArity ++ " parameters."
  | .tooManyArguments => "Can't have more than " ++ toString maxArity ++ " arguments."
  | .returnOutsideFunction => "Can't return from top-level code."
  | .invalidTarget => "Invalid assignment target."

/-- A syntax fault as it is reported, for a source that ends on the given line. -/
def complaint (lastLine : Nat) (f : SyntaxFault) : Complaint :=
  match f.token? with
  | some t => ⟨t.line, " at '" ++ t.lexeme ++ "'", f.cause.message⟩
  | none => ⟨lastLine, " at end", f.cause.message⟩

end SyntaxFault

/-- A complaint on one line of text. -/
def Complaint.text (c : Complaint) : String :=
  "[line " ++ toString c.line ++ "] Error" ++ c.place ++ ": " ++ c.message

/-- Why a run cannot go on. -/
inductive RuntimeFault.Cause
  | undefinedVariable (name : String)
  /-- The operand of a negation is not a number. -/
  | operandNotNumber
  /-- An operand of an arithmetic or ordering operator is not a number. -/
  | operandsNotNumbers
  /-- The operands of a sum are neither two numbers nor two strings. -/
  | operandsNotAddable
  /-- What is called is no function; it displays as the given text. -/
  | notCallable (shown : String)
  | wrongArity (expected given : Nat)
  | unknownOperator (lexeme : String)
  | returnOutsideFunction
deriving DecidableEq, Repr

/-- A reason to end a run, and the token at work when it arose. -/
structure RuntimeFault where
  cause : RuntimeFault.Cause
  token : Token
deriving DecidableEq, Repr

namespace RuntimeFault

/-- The wording of a run-time fault. -/
def Cause.message : Cause → String
  | .undefinedVariable name => "Undefined variable '" ++ name ++ "'."
  | .operandNotNumber => "Operand must be a number."
  | .operandsNotNumbers => "Operands must be numbers."
  | .operandsNotAddable => "Operands must be two numbers or two strings."
  | .notCallable shown => "Can only call functions; " ++ shown ++ " is not callable."
  | .wrongArity expected given =>
    "Expected " ++ toString expected ++ " arguments but got " ++ toString given ++ "."
  | .unknownOperator lexeme => "Unknown operator '" ++ lexeme ++ "'."
  | .returnOutsideFunction => "Can't return from top-level code."

/-- The message of a fault. -/
def message (f : RuntimeFault) : String := f.cause.message

/-- A fault on two lines of text. -/
def text (f : RuntimeFault) : String :=
  f.message ++ "\n[line " ++ toString f.token.line ++ "]"

end RuntimeFault

end LoxLang
