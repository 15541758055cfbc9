import LoxLang.Render.Tree

/-!
# Expressions as source text

An expression is written back with one blank on either side of a binary operator and none elsewhere
but after commas. Parentheses come from the groupings of the tree alone: a tree that was read has
them wherever they are needed. The stack on which the text is made is left out: it is taken to have
room for the tree.

## Main definitions

* `Expr.source` — an expression as source text.
-/

namespace LoxLang

mutual

/-- An expression as source text, on a stack with room for it. -/
def Expr.source : Expr → String
  | .literal value => value.written
  | .grouping inner => "(" ++ inner.source ++ ")"
  | .unary operator operand => operator.lexeme ++ operand.source
  | .binary left operator right => left.source ++ " " ++ operator.lexeme ++ " " ++ right.source
  | .logical left operator right => left.source ++ " " ++ operator.lexeme ++ " " ++ right.source
  | .variable name => name.lexeme
  | .assign name value => name.lexeme ++ " = " ++ value.source
  | .call callee _ arguments => callee.source ++ "(" ++ Expr.sources arguments ++ ")"

/-- Arguments as source text, with commas between them. -/
def Expr.sources : List Expr → String
  | [] => ""
  | [e] => e.source
  | e :: rest => e.source ++ ", " ++ Expr.sources rest

end

end LoxLang
