import LoxLang.Token

/-!
# Syntax trees

Trees keep the tokens that later stages need to speak about: operators, names, the closing
parenthesis of a call and the keyword of a return. A list of statements has *slots*; an empty slot
stands where a declaration could not be read.

## Main definitions

* `Expr`, `Stmt` — expressions and statements.
* `Slots` — a list of statements, some of which may be missing.
-/

namespace LoxLang

/-- Expressions. -/
inductive Expr
  | literal (value : Literal)
  /-- An expression in parentheses. -/
  | grouping (inner : Expr)
  | unary (operator : Token) (operand : Expr)
  | binary (left : Expr) (operator : Token) (right : Expr)
  /-- A conjunction or disjunction, whose right side may never be evaluated. -/
  | logical (left : Expr) (operator : Token) (right : Expr)
  | variable (name : Token)
  | assign (name : Token) (value : Expr)
  /-- A call, with the parenthesis that closes its arguments. -/
  | call (callee : Expr) (paren : Token) (arguments : List Expr)

/-- Statements, declarations among them. -/
inductive Stmt
  | expression (value : Expr)
  | print (value : Expr)
  | var (name : Token) (initial : Option Expr)
  | block (body : List (Option Stmt))
  | branch (condition : Expr) (whenTrue : Stmt) (whenFalse : Option Stmt)
  | loop (condition : Expr) (body : Stmt)
  | function (name : Token) (parameters : List Token) (body : List (Option Stmt))
  | return (keyword : Token) (value : Option Expr)

/-- Statements in a row; an empty slot is a declaration that could not be read. -/
abbrev Slots := List (Option Stmt)

instance : Inhabited Expr := ⟨.literal .nil⟩

instance : Inhabited Stmt := ⟨.block []⟩

end LoxLang
