import LoxLang.Grammar.Level
import LoxLang.Grammar.Parser

/-!
# The grammar of expressions

Each construct is a parser made from the parsers of its parts; the knot is tied at the end, where a
number bounds how deep expressions may stand within each other.

## Main definitions

* `Grammar.listed` — items between commas, with a fault noted for each surplus one.
* `Grammar.chain` — the operators of one level, grouped from the left.
* `Grammar.assignment`, `Grammar.unary`, `Grammar.call`, `Grammar.primary` — the other constructs.
* `Grammar.expressionAt` — expressions up to a depth.
-/

namespace LoxLang.Grammar

open LoxLang.Parser

/-- Reads something unless a token of the given kind comes next. -/
def unlessNext {α : Type} (kind : Token.Kind) (p : Parser α) : Parser (Option α) := do
  if (← peek) == some kind then return none
  let value ← p
  return some value

/-- Reads items between commas, at least one. From the item on that is too many, a fault is noted
in front of each, and it is still read. -/
def listed {α : Type} (item : Parser α) (surplus : SyntaxFault.Cause) : Parser (List α) := do
  let head ← item
  let items ← folding (· == .comma) (fun items _ => do
    if maxArity ≤ items.size then note surplus
    let next ← item
    return items.push next) #[head]
  return items.toList

/-- Reads operands with operators of one level between them, grouped from the left. -/
def chain (level : Level) (operand : Parser Expr) : Parser Expr := do
  let left ← operand
  folding level.holds (fun left operator => do
    let right ← operand
    return level.node left operator right) left

/-- Reads operations of all levels over operands that bind tighter than any of them. -/
def operation (operand : Parser Expr) : Parser Expr := Level.ordered.foldr chain operand

/-- Reads an assignment, which groups from the right, or else what may stand on its left. On the
left of a proper one is a bare variable; any other left side is kept in place of the assignment. -/
def assignment (target value : Parser Expr) : Parser Expr := do
  let left ← target
  match ← accept .equal with
  | none => return left
  | some equals =>
    let right ← value
    match left with
    | .variable name => return .assign name right
    | _ =>
      noteAt equals .invalidTarget
      return left

/-- Reads a literal, a variable or an expression in parentheses. -/
def primary (expression : Parser Expr) : Parser Expr :=
  select (fun
    | .falseWord => some fun _ => return .literal (.bool false)
    | .trueWord => some fun _ => return .literal (.bool true)
    | .nilWord => some fun _ => return .literal .nil
    | .number => some fun token => return .literal (.number (Token.numberOf token.lexeme))
    | .string => some fun token => return .literal (.string (Token.textOf token.lexeme))
    | .identifier => some fun token => return .variable token
    | .leftParen => some fun _ => do
      let inner ← expression
      let _ ← expect .rightParen .parenAfterGrouping
      return .grouping inner
    | _ => none)
  (fail .expression)

/-- Reads arguments and the parenthesis that closes them. -/
def finishCall (expression : Parser Expr) (callee : Expr) : Parser Expr := do
  let arguments ← unlessNext .rightParen (listed expression .tooManyArguments)
  let paren ← expect .rightParen .parenAfterArguments
  return .call callee paren (arguments.getD [])

/-- Reads a primary expression and the calls that follow it. -/
def call (expression : Parser Expr) : Parser Expr := do
  let callee ← primary expression
  folding (· == .leftParen) (fun callee _ => finishCall expression callee) callee

/-- Reads an operator and its operand, or else a call. -/
def unary (operand expression : Parser Expr) : Parser Expr := do
  match ← acceptIf Token.Kind.isUnary with
  | some operator =>
    let inner ← operand
    return .unary operator inner
  | none => call expression

mutual

/-- Reads an expression within which at most so many others stand in each other. -/
def expressionAt : Nat → Parser Expr
  | 0 => .tooDeep
  | depth + 1 => .delay fun _ => assignment (operation (unaryAt depth)) (expressionAt depth)

/-- Reads a unary expression within which at most so many others stand in each other. -/
def unaryAt : Nat → Parser Expr
  | 0 => .tooDeep
  | depth + 1 => .delay fun _ => unary (unaryAt depth) (expressionAt depth)

end

end LoxLang.Grammar
