import LoxLang.Syntax

/-!
# Levels of binary operators

Binary operators fall into six levels. An operator of a tighter level takes its operands first; on
one level operators group from the left.

## Main definitions

* `Level` — the levels, with `Level.ordered` from the loosest to the tightest.
* `Level.of?` — the level of an operator.
* `Level.node` — the tree that an operator of a level makes.
-/

namespace LoxLang

/-- The levels of binary operators, from the loosest to the tightest. -/
inductive Level
  | disjunction | conjunction | equality | comparison | sum | product
deriving DecidableEq, Repr

namespace Level

/-- The levels from the loosest to the tightest. -/
def ordered : List Level := [disjunction, conjunction, equality, comparison, sum, product]

/-- The level of a kind of token, if it is a binary operator. -/
def of? : Token.Kind → Option Level
  | .orWord => some disjunction
  | .andWord => some conjunction
  | .bangEqual | .equalEqual => some equality
  | .greater | .greaterEqual | .less | .lessEqual => some comparison
  | .minus | .plus => some sum
  | .slash | .star => some product
  | _ => none

/-- Whether a kind of token is an operator of this level. -/
def holds (level : Level) (kind : Token.Kind) : Bool := of? kind == some level

/-- The tree that an operator makes of its operands. Only disjunction and conjunction may leave the
right one unevaluated. -/
def node (level : Level) (left : Expr) (operator : Token) (right : Expr) : Expr :=
  match level with
  | disjunction | conjunction => .logical left operator right
  | equality | comparison | sum | product => .binary left operator right

end Level

/-- Whether a kind of token is an operator in front of its only operand. -/
def Token.Kind.isUnary : Token.Kind → Bool
  | .bang | .minus => true
  | _ => false

end LoxLang
