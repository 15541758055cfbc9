import LoxLang.Proofs.Syntax.MapTokens

set_option autoImplicit false

/-!
# Changing names and marks apart

Some tokens of a tree are names: those of variables, functions and parameters, wherever they are
declared, read or assigned to. All others are marks: operators, the parenthesis of a call and the
keyword of a return. Names and marks can be changed by a function each.

## Main definitions

* `Expr.retoken`, `Stmt.retoken`, `Stmt.retokenSlots` — a tree with its names and its marks changed.

## Main results

* `Expr.retoken_self`, `Stmt.retokenSlots_self` — one function for both changes all tokens.
-/

namespace LoxLang

mutual

/-- An expression with its names and its marks changed. -/
def Expr.retoken (name mark : Token → Token) : Expr → Expr
  | .literal value => .literal value
  | .grouping inner => .grouping (inner.retoken name mark)
  | .unary operator operand => .unary (mark operator) (operand.retoken name mark)
  | .binary left operator right =>
    .binary (left.retoken name mark) (mark operator) (right.retoken name mark)
  | .logical left operator right =>
    .logical (left.retoken name mark) (mark operator) (right.retoken name mark)
  | .variable n => .variable (name n)
  | .assign n value => .assign (name n) (value.retoken name mark)
  | .call callee paren arguments =>
    .call (callee.retoken name mark) (mark paren) (Expr.retokenAll name mark arguments)

/-- Expressions with their names and their marks changed. -/
def Expr.retokenAll (name mark : Token → Token) : List Expr → List Expr
  | [] => []
  | e :: rest => e.retoken name mark :: Expr.retokenAll name mark rest

end

mutual

/-- A statement with its names and its marks changed. -/
def Stmt.retoken (name mark : Token → Token) : Stmt → Stmt
  | .expression value => .expression (value.retoken name mark)
  | .print value => .print (value.retoken name mark)
  | .var n initial => .var (name n) (initial.map (Expr.retoken name mark))
  | .block body => .block (Stmt.retokenSlots name mark body)
  | .branch condition whenTrue whenFalse =>
    .branch (condition.retoken name mark) (whenTrue.retoken name mark)
      (Stmt.retokenSlot name mark whenFalse)
  | .loop condition body => .loop (condition.retoken name mark) (body.retoken name mark)
  | .function n parameters body =>
    .function (name n) (parameters.map name) (Stmt.retokenSlots name mark body)
  | .return keyword value => .return (mark keyword) (value.map (Expr.retoken name mark))

/-- A slot with its names and its marks changed. -/
def Stmt.retokenSlot (name mark : Token → Token) : Option Stmt → Option Stmt
  | none => none
  | some statement => some (statement.retoken name mark)

/-- Slots with their names and their marks changed. -/
def Stmt.retokenSlots (name mark : Token → Token) : List (Option Stmt) → List (Option Stmt)
  | [] => []
  | slot :: rest => Stmt.retokenSlot name mark slot :: Stmt.retokenSlots name mark rest

end

variable (f : Token → Token)

namespace Expr

mutual

/-- One function for names and marks changes all tokens. -/
lemma retoken_self (e : Expr) : e.retoken f f = e.mapTokens f := by
  cases e with
  | literal | «variable» => rfl
  | grouping inner => rw [retoken, mapTokens, retoken_self inner]
  | unary operator operand => rw [retoken, mapTokens, retoken_self operand]
  | binary left operator right => rw [retoken, mapTokens, retoken_self left, retoken_self right]
  | logical left operator right => rw [retoken, mapTokens, retoken_self left, retoken_self right]
  | assign name value => rw [retoken, mapTokens, retoken_self value]
  | call callee paren arguments =>
    rw [retoken, mapTokens, retoken_self callee, retokenAll_self arguments]

/-- One function for names and marks changes all tokens. -/
lemma retokenAll_self (es : List Expr) : retokenAll f f es = mapTokensAll f es := by
  cases es with
  | nil => rfl
  | cons e es => rw [retokenAll, mapTokensAll, retoken_self e, retokenAll_self es]

end

end Expr

namespace Stmt

mutual

/-- One function for names and marks changes all tokens. -/
lemma retoken_self (s : Stmt) : s.retoken f f = s.mapTokens f := by
  cases s with
  | expression value => rw [retoken, mapTokens, Expr.retoken_self]
  | print value => rw [retoken, mapTokens, Expr.retoken_self]
  | var name initial => cases initial <;> simp [retoken, mapTokens, Expr.retoken_self]
  | block body => rw [retoken, mapTokens, retokenSlots_self body]
  | branch condition whenTrue whenFalse =>
    rw [retoken, mapTokens, Expr.retoken_self, retoken_self whenTrue, retokenSlot_self whenFalse]
  | loop condition body => rw [retoken, mapTokens, Expr.retoken_self, retoken_self body]
  | function name parameters body => rw [retoken, mapTokens, retokenSlots_self body]
  | «return» keyword value => cases value <;> simp [retoken, mapTokens, Expr.retoken_self]

/-- One function for names and marks changes all tokens. -/
lemma retokenSlot_self (s : Option Stmt) : retokenSlot f f s = mapSlot f s := by
  cases s with
  | none => rfl
  | some s => rw [retokenSlot, mapSlot, retoken_self s]

/-- One function for names and marks changes all tokens. -/
lemma retokenSlots_self (ss : List (Option Stmt)) : retokenSlots f f ss = mapSlots f ss := by
  cases ss with
  | nil => rfl
  | cons s ss => rw [retokenSlots, mapSlots, retokenSlot_self s, retokenSlots_self ss]

end

end Stmt

end LoxLang
