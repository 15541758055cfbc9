import LoxLang.Grammar.Statement

/-!
# Reading whole programs

## Main definitions

* `Parsed` — what reading all tokens of a source gives.
* `Grammar.parse` — reads tokens as a program.
* `Grammar.parseExpression` — reads tokens as one expression.
-/

namespace LoxLang

/-- What reading all tokens of a source gives. -/
inductive Parsed (α : Type) where
  /-- What could be read, and the faults in the order in which they were found. -/
  | done (value : α) (faults : List SyntaxFault)
  /-- The text nests deeper than the limit. -/
  | tooDeep

namespace Grammar

/-- Reads tokens as a program: declarations up to the end. No failure leaves a declaration, so the
middle case never arises. -/
def parse (depth : Nat) (tokens : List Token) : Parsed Slots :=
  match (Parser.rows (fun _ => false) (declarationAt depth)).run false tokens with
  | .ok program _ faults => .done program faults
  | .failed _ faults => .done [] faults
  | .tooDeep => .tooDeep

/-- Reads tokens as a single expression that takes them all. -/
def parseExpression (depth : Nat) (tokens : List Token) : Parsed (Option Expr) :=
  match (expressionAt depth).run false tokens with
  | .ok value [] faults => .done (some value) faults
  | .ok _ (extra :: _) faults =>
    .done none (faults ++ [⟨.expected .endOfExpression, some extra⟩])
  | .failed _ faults => .done none faults
  | .tooDeep => .tooDeep

end Grammar

end LoxLang
