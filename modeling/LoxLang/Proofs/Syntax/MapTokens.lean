import Mathlib.Tactic.Common
import LoxLang.Syntax

set_option autoImplicit false

/-!
# Changing the tokens of a tree

A tree keeps tokens. Changing all of them by a function leaves its shape as it is.

## Main definitions

* `Expr.mapTokens`, `Stmt.mapTokens`, `Stmt.mapSlots` — a tree with all its tokens changed.

## Main results

* `Expr.mapTokens_id`, `Stmt.mapSlots_id` — changing nothing.
* `Expr.mapTokens_mapTokens`, `Stmt.mapSlots_mapSlots` — one change after another.
-/

namespace LoxLang

mutual

/-- An expression with all its tokens changed. -/
def Expr.mapTokens (f : Token → Token) : Expr → Expr
  | .literal value => .literal value
  | .grouping inner => .grouping (inner.mapTokens f)
  | .unary operator operand => .unary (f operator) (operand.mapTokens f)
  | .binary left operator right => .binary (left.mapTokens f) (f operator) (right.mapTokens f)
  | .logical left operator right => .logical (left.mapTokens f) (f operator) (right.mapTokens f)
  | .variable name => .variable (f name)
  | .assign name value => .assign (f name) (value.mapTokens f)
  | .call callee paren arguments =>
    .call (callee.mapTokens f) (f paren) (Expr.mapTokensAll f arguments)

/-- Expressions with all their tokens changed. -/
def Expr.mapTokensAll (f : Token → Token) : List Expr → List Expr
  | [] => []
  | e :: rest => e.mapTokens f :: Expr.mapTokensAll f rest

end

mutual

/-- A statement with all its tokens changed. -/
def Stmt.mapTokens (f : Token → Token) : Stmt → Stmt
  | .expression value => .expression (value.mapTokens f)
  | .print value => .print (value.mapTokens f)
  | .var name initial => .var (f name) (initial.map (Expr.mapTokens f))
  | .block body => .block (Stmt.mapSlots f body)
  | .branch condition whenTrue whenFalse =>
    .branch (condition.mapTokens f) (whenTrue.mapTokens f) (Stmt.mapSlot f whenFalse)
  | .loop condition body => .loop (condition.mapTokens f) (body.mapTokens f)
  | .function name parameters body =>
    .function (f name) (parameters.map f) (Stmt.mapSlots f body)
  | .return keyword value => .return (f keyword) (value.map (Expr.mapTokens f))

/-- A slot with all its tokens changed. -/
def Stmt.mapSlot (f : Token → Token) : Option Stmt → Option Stmt
  | none => none
  | some statement => some (statement.mapTokens f)

/-- Slots with all their tokens changed. -/
def Stmt.mapSlots (f : Token → Token) : List (Option Stmt) → List (Option Stmt)
  | [] => []
  | slot :: rest => Stmt.mapSlot f slot :: Stmt.mapSlots f rest

end

namespace Expr

variable (f g : Token → Token)

/-- Expressions are changed one by one. -/
lemma mapTokensAll_eq_map (es : List Expr) : mapTokensAll f es = es.map (mapTokens f) := by
  induction es with
  | nil => rfl
  | cons e es ih => rw [mapTokensAll, ih, List.map_cons]

mutual

/-- Changing no token changes no tree. -/
lemma mapTokens_id (e : Expr) : e.mapTokens id = e := by
  cases e with
  | literal => rfl
  | grouping inner => rw [mapTokens, mapTokens_id inner]
  | unary operator operand => rw [mapTokens, mapTokens_id operand, id]
  | binary left operator right => rw [mapTokens, mapTokens_id left, mapTokens_id right, id]
  | logical left operator right => rw [mapTokens, mapTokens_id left, mapTokens_id right, id]
  | «variable» name => rfl
  | assign name value => rw [mapTokens, mapTokens_id value, id]
  | call callee paren arguments =>
    rw [mapTokens, mapTokens_id callee, mapTokensAll_id arguments, id]

/-- Changing no token changes no trees. -/
lemma mapTokensAll_id (es : List Expr) : mapTokensAll id es = es := by
  cases es with
  | nil => rfl
  | cons e es => rw [mapTokensAll, mapTokens_id e, mapTokensAll_id es]

end

mutual

/-- One change after another is their composition. -/
lemma mapTokens_mapTokens (e : Expr) : (e.mapTokens f).mapTokens g = e.mapTokens (g ∘ f) := by
  cases e with
  | literal => rfl
  | grouping inner => simp only [mapTokens, mapTokens_mapTokens inner]
  | unary operator operand => simp only [mapTokens, mapTokens_mapTokens operand, Function.comp]
  | binary left operator right =>
    simp only [mapTokens, mapTokens_mapTokens left, mapTokens_mapTokens right, Function.comp]
  | logical left operator right =>
    simp only [mapTokens, mapTokens_mapTokens left, mapTokens_mapTokens right, Function.comp]
  | «variable» name => rfl
  | assign name value => simp only [mapTokens, mapTokens_mapTokens value, Function.comp]
  | call callee paren arguments =>
    simp only [mapTokens, mapTokens_mapTokens callee, mapTokensAll_mapTokensAll arguments,
      Function.comp]

/-- One change after another is their composition. -/
lemma mapTokensAll_mapTokensAll (es : List Expr) :
    mapTokensAll g (mapTokensAll f es) = mapTokensAll (g ∘ f) es := by
  cases es with
  | nil => rfl
  | cons e es => simp only [mapTokensAll, mapTokens_mapTokens e, mapTokensAll_mapTokensAll es]

end

end Expr

namespace Stmt

variable (f g : Token → Token)

mutual

/-- Changing no token changes no tree. -/
lemma mapTokens_id (s : Stmt) : s.mapTokens id = s := by
  cases s with
  | expression value => rw [mapTokens, Expr.mapTokens_id]
  | print value => rw [mapTokens, Expr.mapTokens_id]
  | var name initial => cases initial <;> simp [mapTokens, Expr.mapTokens_id]
  | block body => rw [mapTokens, mapSlots_id body]
  | branch condition whenTrue whenFalse =>
    rw [mapTokens, Expr.mapTokens_id, mapTokens_id whenTrue, mapSlot_id whenFalse]
  | loop condition body => rw [mapTokens, Expr.mapTokens_id, mapTokens_id body]
  | function name parameters body => rw [mapTokens, mapSlots_id body, List.map_id, id]
  | «return» keyword value => cases value <;> simp [mapTokens, Expr.mapTokens_id]

/-- Changing no token changes no slot. -/
lemma mapSlot_id (s : Option Stmt) : mapSlot id s = s := by
  cases s with
  | none => rfl
  | some s => rw [mapSlot, mapTokens_id s]

/-- Changing no token changes no slots. -/
lemma mapSlots_id (ss : List (Option Stmt)) : mapSlots id ss = ss := by
  cases ss with
  | nil => rfl
  | cons s ss => rw [mapSlots, mapSlot_id s, mapSlots_id ss]

end

mutual

/-- One change after another is their composition. -/
lemma mapTokens_mapTokens (s : Stmt) : (s.mapTokens f).mapTokens g = s.mapTokens (g ∘ f) := by
  cases s with
  | expression value => simp only [mapTokens, Expr.mapTokens_mapTokens]
  | print value => simp only [mapTokens, Expr.mapTokens_mapTokens]
  | var name initial => cases initial <;> simp [mapTokens, Expr.mapTokens_mapTokens]
  | block body => simp only [mapTokens, mapSlots_mapSlots body]
  | branch condition whenTrue whenFalse =>
    simp only [mapTokens, Expr.mapTokens_mapTokens, mapTokens_mapTokens whenTrue,
      mapSlot_mapSlot whenFalse]
  | loop condition body =>
    simp only [mapTokens, Expr.mapTokens_mapTokens, mapTokens_mapTokens body]
  | function name parameters body =>
    simp only [mapTokens, mapSlots_mapSlots body, List.map_map, Function.comp]
  | «return» keyword value => cases value <;> simp [mapTokens, Expr.mapTokens_mapTokens]

/-- One change after another is their composition. -/
lemma mapSlot_mapSlot (s : Option Stmt) : mapSlot g (mapSlot f s) = mapSlot (g ∘ f) s := by
  cases s with
  | none => rfl
  | some s => simp only [mapSlot, mapTokens_mapTokens s]

/-- One change after another is their composition. -/
lemma mapSlots_mapSlots (ss : List (Option Stmt)) :
    mapSlots g (mapSlots f ss) = mapSlots (g ∘ f) ss := by
  cases ss with
  | nil => rfl
  | cons s ss => simp only [mapSlots, mapSlot_mapSlot s, mapSlots_mapSlots ss]

end

end Stmt

end LoxLang
