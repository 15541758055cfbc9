import LoxLang.Grammar.Expression

/-!
# The grammar of statements and declarations

A declaration that cannot be read leaves an empty slot, and reading starts again in front of the
next statement. A `for` is no statement of its own: it is read as the block and loop it stands for.

## Main definitions

* `Grammar.synchronize` — where reading starts again after a failure.
* `Grammar.recovering` — reads a declaration, or leaves an empty slot.
* `Stmt.forLoop` — the block and loop that a `for` stands for.
* `Grammar.statementAt`, `Grammar.declarationAt` — statements and declarations up to a depth.
-/

namespace LoxLang

/-- The block and loop that a `for` stands for. The step follows the body in each round, a missing
condition is true, and what is declared first is declared around the loop. -/
def Stmt.forLoop (initial : Option Stmt) (condition step : Option Expr) (body : Stmt) : Stmt :=
  let round :=
    match step with
    | some step => .block [some body, some (.expression step)]
    | none => body
  let loop := .loop (condition.getD (.literal (.bool true))) round
  match initial with
  | some initial => .block [some initial, some loop]
  | none => loop

namespace Grammar

open LoxLang.Parser

/-- Reads an expression statement. -/
def expressionStatement (expression : Parser Expr) : Advancing Stmt :=
  .closedBy expression .semicolon .semicolonAfterExpression .expression

/-- Reads a variable declaration after its keyword. -/
def variableDeclaration (expression : Parser Expr) : Parser Stmt := do
  let name ← expect .identifier .variableName
  let initial ← do
    match ← accept .equal with
    | some _ =>
      let value ← expression
      pure (some value)
    | none => pure none
  let _ ← expect .semicolon .semicolonAfterVariable
  return .var name initial

/-- Reads what a loop declares or evaluates first, up to its semicolon. -/
def forInitial (expression : Parser Expr) : Parser (Option Stmt) :=
  select (fun
    | .semicolon => some fun _ => return none
    | .varWord => some fun _ => do
      let declared ← variableDeclaration expression
      return some declared
    | _ => none)
  (do
    let evaluated ← (expressionStatement expression).toParser
    return some evaluated)

/-- Reads a `for` after its keyword. -/
def forStatement (expression : Parser Expr) (statement : Parser Stmt) : Parser Stmt := do
  let _ ← expect .leftParen .parenAfterFor
  let initial ← forInitial expression
  let condition ← unlessNext .semicolon expression
  let _ ← expect .semicolon .semicolonAfterLoopCondition
  let step ← unlessNext .rightParen expression
  let _ ← expect .rightParen .parenAfterForClauses
  let body ← statement
  return Stmt.forLoop initial condition step body

/-- Reads an `if` after its keyword. An `else` belongs to the nearest one before it. -/
def ifStatement (expression : Parser Expr) (statement : Parser Stmt) : Parser Stmt := do
  let _ ← expect .leftParen .parenAfterIf
  let condition ← expression
  let _ ← expect .rightParen .parenAfterIfCondition
  let whenTrue ← statement
  match ← accept .elseWord with
  | some _ =>
    let whenFalse ← statement
    return .branch condition whenTrue (some whenFalse)
  | none => return .branch condition whenTrue none

/-- Reads a `while` after its keyword. -/
def whileStatement (expression : Parser Expr) (statement : Parser Stmt) : Parser Stmt := do
  let _ ← expect .leftParen .parenAfterWhile
  let condition ← expression
  let _ ← expect .rightParen .parenAfterWhileCondition
  let body ← statement
  return .loop condition body

/-- Reads a `print` after its keyword. -/
def printStatement (expression : Parser Expr) : Parser Stmt := do
  let value ← expression
  let _ ← expect .semicolon .semicolonAfterPrinted
  return .print value

/-- Reads a `return` after its keyword. Outside every function body it is a fault, but it is read
all the same. -/
def returnStatement (expression : Parser Expr) (keyword : Token) : Parser Stmt := do
  if !(← inFunction) then noteAt keyword .returnOutsideFunction
  let value ← unlessNext .semicolon expression
  let _ ← expect .semicolon .semicolonAfterReturned
  return .return keyword value

/-- Reads declarations up to the brace that closes them. -/
def blockBody (declaration : Advancing (Option Stmt)) : Parser Slots := do
  let body ← rows (· == .rightBrace) declaration
  let _ ← expect .rightBrace .braceAfterBlock
  return body

/-- Reads a function declaration after its keyword. -/
def functionDeclaration (declaration : Advancing (Option Stmt)) : Parser Stmt := do
  let name ← expect .identifier .functionName
  let _ ← expect .leftParen .parenAfterFunctionName
  let parameters ← unlessNext .rightParen
    (listed (expect .identifier .parameterName) .tooManyParameters)
  let _ ← expect .rightParen .parenAfterParameters
  let _ ← expect .leftBrace .braceBeforeFunctionBody
  let body ← asFunctionBody (blockBody declaration)
  return .function name (parameters.getD []) body

/-- The tokens from which reading starts again after a failure at the first of the given ones. That
one is always skipped; skipping ends behind a semicolon or in front of a statement keyword. -/
def synchronize : List Token → List Token
  | [] => []
  | [_] => []
  | skipped :: next :: rest =>
    if skipped.kind == .semicolon || next.kind.startsStatement then next :: rest
    else synchronize (next :: rest)

/-- Skipping takes tokens from the front only. -/
theorem synchronize_suffix (tokens : List Token) : synchronize tokens <:+ tokens := by
  fun_induction synchronize with
  | case1 => exact List.suffix_refl []
  | case2 t => exact List.suffix_cons t []
  | case3 t u rest _ => exact List.suffix_cons t (u :: rest)
  | case4 t u rest _ ih => exact List.IsSuffix.trans ih (List.suffix_cons t (u :: rest))

/-- At least one token is skipped if there is one. -/
theorem length_synchronize_cons (t : Token) (rest : List Token) :
    (synchronize (t :: rest)).length < (t :: rest).length := by
  cases rest with
  | nil => simp [synchronize]
  | cons u rest =>
    rw [synchronize]
    split
    · simp
    · have := List.IsSuffix.length_le (synchronize_suffix (u :: rest))
      simp at this ⊢
      omega

/-- The answer to a declaration: a failure leaves an empty slot and skips to the next statement. -/
def recover : Reply Stmt → Reply (Option Stmt)
  | .ok statement rest faults => .ok (some statement) rest faults
  | .failed rest faults => .ok none (synchronize rest) faults
  | .tooDeep => .tooDeep

/-- Reads a declaration, or leaves an empty slot and skips to the next statement. -/
def recovering (p : Advancing Stmt) : Advancing (Option Stmt) where
  run inFunction tokens := recover (p.run inFunction tokens)
  within inFunction tokens := by
    have h := p.within inFunction tokens
    cases hr : p.run inFunction tokens with
    | ok => rw [hr] at h; exact h
    | failed rest faults => rw [hr] at h; exact List.IsSuffix.trans (synchronize_suffix rest) h
    | tooDeep => trivial
  advances inFunction t rest := by
    have h := p.within inFunction (t :: rest)
    have ha := p.advances inFunction t rest
    cases hr : p.run inFunction (t :: rest) with
    | ok => rw [hr] at ha; exact ha
    | failed left faults =>
      rw [hr] at h
      cases left with
      | nil => simp [recover, synchronize, Reply.Shorter]
      | cons u left =>
        have hl := List.IsSuffix.length_le h
        have hs := length_synchronize_cons u left
        simp only [recover, Reply.Shorter]
        omega
    | tooDeep => trivial

mutual

/-- Reads a statement within which at most so many others stand in each other. -/
def statementAt : Nat → Advancing Stmt
  | 0 => .tooDeep
  | depth + 1 => .delay fun _ =>
    .select (fun
      | .forWord => some fun _ => forStatement (expressionAt depth) (statementAt depth).toParser
      | .ifWord => some fun _ => ifStatement (expressionAt depth) (statementAt depth).toParser
      | .whileWord => some fun _ => whileStatement (expressionAt depth) (statementAt depth).toParser
      | .printWord => some fun _ => printStatement (expressionAt depth)
      | .returnWord => some fun keyword => returnStatement (expressionAt depth) keyword
      | .leftBrace => some fun _ => do
        let body ← blockBody (declarationAt depth)
        return .block body
      | _ => none)
    (expressionStatement (expressionAt depth))

/-- Reads a declaration within which at most so many others stand in each other, or leaves an empty
slot. -/
def declarationAt : Nat → Advancing (Option Stmt)
  | 0 => .tooDeep
  | depth + 1 => .delay fun _ => recovering (.select (fun
      | .funWord => some fun _ => functionDeclaration (declarationAt depth)
      | .varWord => some fun _ => variableDeclaration (expressionAt depth)
      | _ => none)
    (statementAt depth))

end

end Grammar

end LoxLang
