import LoxLang.Number.Written
import LoxLang.Syntax

/-!
# Trees in parentheses

A node is shown as a list in parentheses, its name first and its parts after it. A string keeps its
quotes, so that it differs from a name; a number is written as in source.

The form of a tree is said without regard to the stack on which it is made. How many calls that takes
is counted apart: a stack with room for fewer runs out, and then there is no form at all.

## Main definitions

* `Literal.written` — a literal as it is written in source.
* `Expr.tree`, `Stmt.tree` — the parenthesised form of a tree.
* `Stmt.slotTree` — the same for a slot, which may be empty.
* `Expr.treeDepth`, `Stmt.slotTreeDepth` — how many calls nest to make it.
-/

namespace LoxLang

/-- A literal as it is written in source. -/
def Literal.written : Literal → String
  | .nil => "nil"
  | .bool true => "true"
  | .bool false => "false"
  | .number x => sourceNumber x
  | .string s => "\"" ++ s ++ "\""

mutual

/-- The parenthesised form of an expression, given a stack of `Expr.treeDepth` calls. -/
def Expr.tree : Expr → String
  | .literal value => value.written
  | .grouping inner => "(group " ++ inner.tree ++ ")"
  | .unary operator operand => "(" ++ operator.lexeme ++ " " ++ operand.tree ++ ")"
  | .binary left operator right =>
    "(" ++ operator.lexeme ++ " " ++ left.tree ++ " " ++ right.tree ++ ")"
  | .logical left operator right =>
    "(" ++ operator.lexeme ++ " " ++ left.tree ++ " " ++ right.tree ++ ")"
  | .variable name => name.lexeme
  | .assign name value => "(= " ++ name.lexeme ++ " " ++ value.tree ++ ")"
  | .call callee _ arguments => "(call " ++ callee.tree ++ Expr.trees arguments ++ ")"

/-- The parenthesised forms of expressions, a blank in front of each. -/
def Expr.trees : List Expr → String
  | [] => ""
  | e :: rest => " " ++ e.tree ++ Expr.trees rest

end

mutual

/-- The parenthesised form of a statement, given a stack of `Stmt.treeDepth` calls. -/
def Stmt.tree : Stmt → String
  | .expression value => "(; " ++ value.tree ++ ")"
  | .print value => "(print " ++ value.tree ++ ")"
  | .var name none => "(var " ++ name.lexeme ++ ")"
  | .var name (some initial) => "(var " ++ name.lexeme ++ " " ++ initial.tree ++ ")"
  | .block body => "(block" ++ Stmt.slotTrees body ++ ")"
  | .branch condition whenTrue whenFalse =>
    "(if " ++ condition.tree ++ " " ++ whenTrue.tree ++ Stmt.otherwiseTree whenFalse ++ ")"
  | .loop condition body => "(while " ++ condition.tree ++ " " ++ body.tree ++ ")"
  | .function name parameters body =>
    "(fun " ++ name.lexeme ++ " (" ++ " ".intercalate (parameters.map Token.lexeme) ++ ")" ++
      Stmt.slotTrees body ++ ")"
  | .return _ none => "(return)"
  | .return _ (some value) => "(return " ++ value.tree ++ ")"

/-- The parenthesised form of a slot; an empty one is shown as an error. -/
def Stmt.slotTree : Option Stmt → String
  | none => "(error)"
  | some statement => statement.tree

/-- The parenthesised form of an alternative, if there is one, with a blank in front. -/
def Stmt.otherwiseTree : Option Stmt → String
  | none => ""
  | some statement => " " ++ statement.tree

/-- The parenthesised forms of slots, a blank in front of each. -/
def Stmt.slotTrees : List (Option Stmt) → String
  | [] => ""
  | slot :: rest => " " ++ Stmt.slotTree slot ++ Stmt.slotTrees rest

end

/-- How many calls nest where parentheses are written around parts: that of the node, that which writes
the parentheses, that which joins the parts, and that which goes through them. -/
def callsToParts : Nat := 4

mutual

/-- How many calls nest to make the form of an expression. A literal other than a string is written
by a call of its own. -/
def Expr.treeDepth : Expr → Nat
  | .literal (.string _) => 1
  | .literal _ => 2
  | .grouping inner => callsToParts + inner.treeDepth
  | .unary _ operand => callsToParts + operand.treeDepth
  | .binary left _ right => callsToParts + max left.treeDepth right.treeDepth
  | .logical left _ right => callsToParts + max left.treeDepth right.treeDepth
  | .variable _ => 1
  | .assign _ value => 1 + value.treeDepth
  | .call callee _ arguments => callsToParts + max callee.treeDepth (Expr.treesDepth arguments)

/-- How many calls nest at most to make the form of an expression in a row. -/
def Expr.treesDepth : List Expr → Nat
  | [] => 0
  | e :: rest => max e.treeDepth (Expr.treesDepth rest)

end

mutual

/-- How many calls nest to make the form of a statement. -/
def Stmt.treeDepth : Stmt → Nat
  | .expression value => callsToParts + value.treeDepth
  | .print value => callsToParts + value.treeDepth
  | .var _ none => 1
  | .var _ (some initial) => 1 + initial.treeDepth
  | .block body => callsToParts + Stmt.slotTreesDepth body
  | .branch condition whenTrue whenFalse =>
    1 + max condition.treeDepth (max whenTrue.treeDepth (Stmt.otherwiseTreeDepth whenFalse))
  | .loop condition body => 1 + max condition.treeDepth body.treeDepth
  | .function _ _ body => callsToParts + Stmt.slotTreesDepth body
  | .return _ none => 1
  | .return _ (some value) => callsToParts + value.treeDepth

/-- How many calls nest to make the form of a slot. -/
def Stmt.slotTreeDepth : Option Stmt → Nat
  | none => 1
  | some statement => statement.treeDepth

/-- How many calls nest to make the form of an alternative. -/
def Stmt.otherwiseTreeDepth : Option Stmt → Nat
  | none => 0
  | some statement => statement.treeDepth

/-- How many calls nest at most to make the form of a slot in a row. -/
def Stmt.slotTreesDepth : List (Option Stmt) → Nat
  | [] => 0
  | slot :: rest => max (Stmt.slotTreeDepth slot) (Stmt.slotTreesDepth rest)

end

end LoxLang
