import LoxLang.Cursor
import LoxLang.Grammar.Program

set_option autoImplicit false

/-!
# Reading by a cursor

The grammar once more, read step by step: a place in a list of tokens that ends with a mark for the
end, which is moved on one token at a time, and a depth of function bodies that is counted up and
down. Here much can go wrong that cannot with parsers over lists: a place may lie outside the list,
there may be no token before it, a loop may go on for ever, and the count may be off after a failure.
A reader stops at all of these.

## Main definitions

* `Reader`, `Reader.Stop`, `Reading` — the state of a reader, why it stops, and its steps.
* `Reader.peek`, `Reader.previous`, `Reader.advance` — looking at tokens and moving on.
* `Reader.loop` — a loop that is stopped when it goes round more often than there are tokens.
* `Reader.Visit` — what is noted of each call that reads a declaration.
* `Reader.declaration`, `Reader.synchronize` — declarations, and where reading starts again.
* `Reader.program`, `Reader.wholeExpression` — all tokens as a program, or as one expression.
-/

namespace LoxLang

/-- A call that read a declaration: the place and the depth of function bodies before and after it,
and the place at which it failed, if it did. -/
structure Reader.Visit where
  start : Nat
  failedAt : Option Nat
  stop : Nat
  functionsBefore : Nat
  functionsAfter : Nat

/-- The state of a reader. -/
structure Reader where
  /-- The tokens, with the mark for the end behind them. -/
  tokens : List Token
  /-- The place of the next token. -/
  place : Nat
  /-- The faults that were noted, in order. -/
  faults : List SyntaxFault
  /-- How many function bodies stand around the place. -/
  functions : Nat
  /-- Where the place was whenever a token was looked at, in order. -/
  trail : List Nat
  /-- The calls that read declarations, in the order in which they ended. -/
  visits : List Reader.Visit

/-- Why a reader stops. -/
inductive Reader.Stop
  /-- Nothing fits; the fault is noted. -/
  | failed
  /-- The text nests deeper than the limit. -/
  | tooDeep
  /-- The place lies outside the list. -/
  | outside
  /-- There is no token before the place. -/
  | before
  /-- A loop goes round more often than there are tokens. -/
  | endless

/-- What a reader does. -/
abbrev Reading (α : Type) := EStateM Reader.Stop Reader α

namespace Reader

/-- A reader in front of some tokens, with the mark for the end behind them. -/
def start (tokens : List Token) (last : Token) : Reader := ⟨tokens ++ [last], 0, [], 0, [], []⟩

variable {α σ : Type}

/-! ### Looking and moving -/

/-- Looks at a token, which has to be there. -/
def look (index : Nat) : Reading Token := do
  modify fun r => { r with trail := r.trail ++ [r.place] }
  match (← get).tokens[index]? with
  | some t => return t
  | none => throw .outside

/-- The next token, or the mark for the end. -/
def peek : Reading Token := do look (← get).place

/-- The token before the place. -/
def previous : Reading Token := do
  match (← get).place with
  | 0 => throw .before
  | place + 1 => look place

/-- Whether the mark for the end comes next. -/
def atEnd : Reading Bool := do return (← peek).kind == .endOfSource

/-- Moves on, unless the mark for the end comes next, and gives the token before the place. -/
def advance : Reading Token := do
  if ← atEnd then previous
  else
    modify fun r => { r with place := r.place + 1 }
    previous

/-- Whether the next token is of a kind; the mark for the end is of none. -/
def check (kind : Token.Kind) : Reading Bool := do
  if ← atEnd then return false
  else return (← peek).kind == kind

/-- Takes the next token if it is of one of some kinds. -/
def accept : List Token.Kind → Reading (Option Token)
  | [] => return none
  | kind :: kinds => do
    if ← check kind then
      let token ← advance
      return some token
    else accept kinds

/-! ### Faults -/

/-- Notes a fault at a token, or past the last one. -/
def note (token : Token) (cause : SyntaxFault.Cause) : Reading Unit :=
  modify fun r => { r with
    faults := r.faults ++ [⟨cause, if token.kind == .endOfSource then none else some token⟩] }

/-- Notes a fault at the next token and fails. -/
def fail (what : Expected) : Reading α := do
  note (← peek) (.expected what)
  throw .failed

/-- Takes a token of a kind or fails. -/
def expect (kind : Token.Kind) (what : Expected) : Reading Token := do
  if ← check kind then advance else fail what

/-- Goes on after a failure; for any other reason a reader stops for good. -/
def recovering (read : Reading α) (recover : Reading α) : Reading α := fun r =>
  match read r with
  | .error .failed r => recover r
  | result => result

/-! ### Loops -/

/-- Goes round a loop at most so often, until a round leaves it. -/
def rounds (round : σ → Reading (σ ⊕ α)) : Nat → σ → Reading α
  | 0, _ => throw .endless
  | n + 1, value => do
    match ← round value with
    | .inl value => rounds round n value
    | .inr value => return value

/-- Goes round a loop until a round leaves it. One that goes round once more than there are tokens, or
more often, is taken for one without an end. -/
def loop (round : σ → Reading (σ ⊕ α)) (value : σ) : Reading α := do
  rounds round ((← get).tokens.length + 1) value

/-- A round of `Reader.folding`. -/
def foldingRound (kinds : List Token.Kind) (step : α → Reading α) (value : α) :
    Reading (α ⊕ α) := do
  if (← accept kinds).isSome then
    let next ← step value
    return .inl next
  else return .inr value

/-- While the next token is of one of some kinds, takes it and goes one step on from the value so
far. -/
def folding (kinds : List Token.Kind) (step : α → Reading α) (value : α) : Reading α :=
  loop (foldingRound kinds step) value

/-- A round of `Reader.rows`. -/
def rowsRound (stop : Reading Bool) (item : Reading α) (values : List α) :
    Reading (List α ⊕ List α) := do
  if ← stop then return .inr values
  else
    let value ← item
    return .inl (values ++ [value])

/-- Reads one thing again and again, until it is time to stop. -/
def rows (stop : Reading Bool) (item : Reading α) : Reading (List α) :=
  loop (rowsRound stop item) []

/-- A round of `Reader.listed`. -/
def listedRound (item : Reading α) (surplus : SyntaxFault.Cause) (items : Array α) :
    Reading (Array α ⊕ List α) := do
  if maxArity ≤ items.size then note (← peek) surplus
  let next ← item
  if (← accept [.comma]).isSome then return .inl (items.push next)
  else return .inr (items.push next).toList

/-- Items with commas between them, at least one. -/
def listed (item : Reading α) (surplus : SyntaxFault.Cause) : Reading (List α) :=
  loop (listedRound item surplus) #[]

/-- Reads something unless a token of the given kind comes next. -/
def unlessNext (kind : Token.Kind) (read : Reading α) : Reading (Option α) := do
  if ← check kind then return none
  else
    let value ← read
    return some value

/-! ### Expressions -/

/-- The operators of a level. -/
def operators : Level → List Token.Kind
  | .disjunction => [.orWord]
  | .conjunction => [.andWord]
  | .equality => [.bangEqual, .equalEqual]
  | .comparison => [.greater, .greaterEqual, .less, .lessEqual]
  | .sum => [.minus, .plus]
  | .product => [.slash, .star]

/-- Operands with operators of one level between them. -/
def chain (level : Level) (operand : Reading Expr) : Reading Expr := do
  let left ← operand
  folding (operators level) (fun left => do
    let operator ← previous
    let right ← operand
    return level.node left operator right) left

/-- Operations of all levels. -/
def operation (operand : Reading Expr) : Reading Expr := Level.ordered.foldr chain operand

/-- An assignment, or what may stand on its left. -/
def assignment (target value : Reading Expr) : Reading Expr := do
  let left ← target
  match ← accept [.equal] with
  | none => return left
  | some equals =>
    let right ← value
    match left with
    | .variable name => return .assign name right
    | _ =>
      note equals .invalidTarget
      return left

/-- A literal, a variable or an expression in parentheses. -/
def primary (expression : Reading Expr) : Reading Expr := do
  if (← accept [.falseWord]).isSome then return .literal (.bool false)
  else if (← accept [.trueWord]).isSome then return .literal (.bool true)
  else if (← accept [.nilWord]).isSome then return .literal .nil
  else if (← accept [.number, .string]).isSome then
    let token ← previous
    return .literal (token.literal?.getD .nil)
  else if (← accept [.identifier]).isSome then
    let name ← previous
    return .variable name
  else if (← accept [.leftParen]).isSome then
    let inner ← expression
    let _ ← expect .rightParen .parenAfterGrouping
    return .grouping inner
  else fail .expression

/-- Arguments and the parenthesis that closes them. -/
def finishCall (expression : Reading Expr) (callee : Expr) : Reading Expr := do
  let arguments ← unlessNext .rightParen (listed expression .tooManyArguments)
  let paren ← expect .rightParen .parenAfterArguments
  return .call callee paren (arguments.getD [])

/-- A primary expression and the calls that follow it. -/
def call (expression : Reading Expr) : Reading Expr := do
  let callee ← primary expression
  folding [.leftParen] (finishCall expression) callee

/-- An operator and its operand, or else a call. -/
def unary (operand expression : Reading Expr) : Reading Expr := do
  match ← accept [.bang, .minus] with
  | some operator =>
    let inner ← operand
    return .unary operator inner
  | none => call expression

mutual

/-- An expression within which at most so many others stand in each other. -/
def expressionAt : Nat → Reading Expr
  | 0 => throw .tooDeep
  | depth + 1 => assignment (operation (unaryAt depth)) (expressionAt depth)

/-- A unary expression within which at most so many others stand in each other. -/
def unaryAt : Nat → Reading Expr
  | 0 => throw .tooDeep
  | depth + 1 => unary (unaryAt depth) (expressionAt depth)

end

/-! ### Statements and declarations -/

/-- A round of `Reader.synchronize`. -/
def synchronizeRound (_ : Unit) : Reading (Unit ⊕ Unit) := do
  if ← atEnd then return .inr ()
  else if (← previous).kind == .semicolon then return .inr ()
  else if (← peek).kind.startsStatement then return .inr ()
  else
    let _ ← advance
    return .inl ()

/-- Moves on behind the end of a statement, or in front of the next one. -/
def synchronize : Reading Unit := do
  let _ ← advance
  loop synchronizeRound ()

/-- An expression statement. -/
def expressionStatement (expression : Reading Expr) : Reading Stmt := do
  let value ← expression
  let _ ← expect .semicolon .semicolonAfterExpression
  return .expression value

/-- A variable declaration after its keyword. -/
def variableDeclaration (expression : Reading Expr) : Reading Stmt := do
  let name ← expect .identifier .variableName
  let initial ← do
    match ← accept [.equal] with
    | some _ =>
      let value ← expression
      pure (some value)
    | none => pure none
  let _ ← expect .semicolon .semicolonAfterVariable
  return .var name initial

/-- What a `for` declares or evaluates first. -/
def forInitial (expression : Reading Expr) : Reading (Option Stmt) := do
  if (← accept [.semicolon]).isSome then return none
  else if (← accept [.varWord]).isSome then
    let declared ← variableDeclaration expression
    return some declared
  else
    let evaluated ← expressionStatement expression
    return some evaluated

/-- A `for` after its keyword. -/
def forStatement (expression : Reading Expr) (statement : Reading Stmt) : Reading Stmt := do
  let _ ← expect .leftParen .parenAfterFor
  let initial ← forInitial expression
  let condition ← unlessNext .semicolon expression
  let _ ← expect .semicolon .semicolonAfterLoopCondition
  let step ← unlessNext .rightParen expression
  let _ ← expect .rightParen .parenAfterForClauses
  let body ← statement
  return Stmt.forLoop initial condition step body

/-- An `if` after its keyword. -/
def ifStatement (expression : Reading Expr) (statement : Reading Stmt) : Reading Stmt := do
  let _ ← expect .leftParen .parenAfterIf
  let condition ← expression
  let _ ← expect .rightParen .parenAfterIfCondition
  let whenTrue ← statement
  match ← accept [.elseWord] with
  | some _ =>
    let whenFalse ← statement
    return .branch condition whenTrue (some whenFalse)
  | none => return .branch condition whenTrue none

/-- A `while` after its keyword. -/
def whileStatement (expression : Reading Expr) (statement : Reading Stmt) : Reading Stmt := do
  let _ ← expect .leftParen .parenAfterWhile
  let condition ← expression
  let _ ← expect .rightParen .parenAfterWhileCondition
  let body ← statement
  return .loop condition body

/-- A `print` after its keyword. -/
def printStatement (expression : Reading Expr) : Reading Stmt := do
  let value ← expression
  let _ ← expect .semicolon .semicolonAfterPrinted
  return .print value

/-- A `return` after its keyword, which is the token before the place. -/
def returnStatement (expression : Reading Expr) : Reading Stmt := do
  let keyword ← previous
  if (← get).functions = 0 then note keyword .returnOutsideFunction
  let value ← unlessNext .semicolon expression
  let _ ← expect .semicolon .semicolonAfterReturned
  return .return keyword value

/-- Declarations up to the brace that closes them, or to the end. -/
def blockBody (declaration : Reading (Option Stmt)) : Reading Slots := do
  let body ← rows (do if ← check .rightBrace then return true else atEnd) declaration
  let _ ← expect .rightBrace .braceAfterBlock
  return body

/-- Counts one more function body around what is read. The count goes down again however that ends. -/
def asFunctionBody (read : Reading α) : Reading α := fun r =>
  match read { r with functions := r.functions + 1 } with
  | .ok value r => .ok value { r with functions := r.functions - 1 }
  | .error stop r => .error stop { r with functions := r.functions - 1 }

/-- A function declaration after its keyword. -/
def functionDeclaration (declaration : Reading (Option Stmt)) : Reading Stmt := do
  let name ← expect .identifier .functionName
  let _ ← expect .leftParen .parenAfterFunctionName
  let parameters ← unlessNext .rightParen
    (listed (expect .identifier .parameterName) .tooManyParameters)
  let _ ← expect .rightParen .parenAfterParameters
  let _ ← expect .leftBrace .braceBeforeFunctionBody
  let body ← asFunctionBody (blockBody declaration)
  return .function name (parameters.getD []) body

/-- Notes that a declaration was read, from an earlier state on. -/
def visited (earlier : Reader) (failedAt : Option Nat) : Reading Unit :=
  modify fun r => { r with
    visits := r.visits ++ [⟨earlier.place, failedAt, r.place, earlier.functions, r.functions⟩] }

/-- Reads a declaration, or leaves an empty slot and moves on to the next statement. -/
def slotted (read : Reading Stmt) : Reading (Option Stmt) := do
  let earlier ← get
  recovering
    (do
      let statement ← read
      visited earlier none
      return some statement)
    (do
      let place := (← get).place
      synchronize
      visited earlier (some place)
      return none)

mutual

/-- A statement within which at most so many others stand in each other. -/
def statementAt : Nat → Reading Stmt
  | 0 => throw .tooDeep
  | depth + 1 => do
    if (← accept [.forWord]).isSome then forStatement (expressionAt depth) (statementAt depth)
    else if (← accept [.ifWord]).isSome then ifStatement (expressionAt depth) (statementAt depth)
    else if (← accept [.whileWord]).isSome then
      whileStatement (expressionAt depth) (statementAt depth)
    else if (← accept [.printWord]).isSome then printStatement (expressionAt depth)
    else if (← accept [.returnWord]).isSome then returnStatement (expressionAt depth)
    else if (← accept [.leftBrace]).isSome then
      let body ← blockBody (declarationAt depth)
      return .block body
    else expressionStatement (expressionAt depth)

/-- A declaration within which at most so many others stand in each other, or an empty slot. -/
def declarationAt : Nat → Reading (Option Stmt)
  | 0 => throw .tooDeep
  | depth + 1 => slotted do
    if (← accept [.funWord]).isSome then functionDeclaration (declarationAt depth)
    else if (← accept [.varWord]).isSome then variableDeclaration (expressionAt depth)
    else statementAt depth

end

/-! ### All tokens -/

/-- Declarations up to the end. -/
def program (depth : Nat) : Reading Slots := rows atEnd (declarationAt depth)

/-- An expression in front of the end. -/
def endedExpression (depth : Nat) : Reading (Option Expr) := do
  let value ← expressionAt depth
  if !(← atEnd) then fail .endOfExpression
  return some value

/-- An expression that takes all tokens. -/
def wholeExpression (depth : Nat) : Reading (Option Expr) :=
  recovering (endedExpression depth) (return none)

end Reader

end LoxLang
