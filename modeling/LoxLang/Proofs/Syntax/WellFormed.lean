import LoxLang.Grammar.Statement
import LoxLang.Proofs.Syntax.Braces
import LoxLang.Proofs.Syntax.Whole

set_option autoImplicit false

/-!
# Well-formed trees

A tree is well formed over some tokens if each token in it is one of them and of a kind that fits
its place, if its operands bind as tightly as their places ask for, if its literals can be written
down, and if declarations stand in slots only. Slots may be empty: nothing is said about what could
not be read. That no other place of a tree can be empty is part of the type of trees.

## Main definitions

* `Level.rank`, `Expr.rank` — how tightly operators and expressions bind.
* `Literal.Plain` — a literal that can be written down without an operator.
* `Expr.Graded`, `Expr.WellFormed` — expressions that respect the ranks, over some tokens.
* `Stmt.Formed`, `Stmt.AllFormed` — statements and slots whose expressions have a property.
* `Stmt.AllWellFormed` — slots in which every statement and expression is well formed.

## Main results

* `Level.graded_node` — an operator between operands of the right ranks.
* `Stmt.Formed.regular` — in a formed statement declarations stand in slots only.
* `Stmt.formed_forLoop` — the block and loop that a `for` stands for.
-/

namespace LoxLang

/-! ## Ranks -/

/-- How tightly the operators of a level bind: one for the loosest level. -/
def Level.rank (level : Level) : Nat := ordered.idxOf level + 1

/-- How tightly a kind of token binds as an operator between operands; zero if it is none. -/
def Token.Kind.rank (kind : Token.Kind) : Nat := (Level.of? kind).elim 0 Level.rank

namespace Expr

/-- The rank of an operator in front of its only operand, tighter than any between two. -/
def unaryRank : Nat := Level.ordered.length + 1

/-- The rank of calls, and of what needs no operator at all. -/
def callRank : Nat := unaryRank + 1

/-- How tightly an expression binds by its outermost form. An assignment is the loosest. -/
def rank : Expr → Nat
  | .assign _ _ => 0
  | .binary _ operator _ | .logical _ operator _ => operator.kind.rank
  | .unary _ _ => unaryRank
  | .call _ _ _ | .literal _ | .variable _ | .grouping _ => callRank

end Expr

/-- A literal that can be written down without an operator: a number is not negative and has no sign
on zero either, and a text has no quotes in it. -/
def Literal.Plain : Literal → Prop
  | .nil | .bool _ => True
  | .number x => 0 ≤ x ∧ Binary64.negative x = false
  | .string s => '"' ∉ s.toList

mutual

/-- An expression with plain literals whose operands bind as tightly as their places ask for. On the
left of an operator that is as tightly as the operator, on its right it is more tightly. -/
def Expr.Graded : Expr → Prop
  | .literal value => value.Plain
  | .grouping inner => inner.Graded
  | .unary _ operand => Expr.unaryRank ≤ operand.rank ∧ operand.Graded
  | .binary left operator right | .logical left operator right =>
    (operator.kind.rank ≤ left.rank ∧ left.Graded) ∧
      operator.kind.rank < right.rank ∧ right.Graded
  | .variable _ => True
  | .assign _ value => value.Graded
  | .call callee _ arguments =>
    (Expr.callRank ≤ callee.rank ∧ callee.Graded) ∧ Expr.AllGraded arguments

/-- Expressions of which each is graded. -/
def Expr.AllGraded : List Expr → Prop
  | [] => True
  | e :: rest => e.Graded ∧ Expr.AllGraded rest

end

/-- Expressions in a row are graded if all of them are. -/
lemma Expr.allGraded_append {es : List Expr} {e : Expr} (hes : Expr.AllGraded es)
    (he : e.Graded) : Expr.AllGraded (es ++ [e]) := by
  induction es with
  | nil => exact ⟨he, trivial⟩
  | cons first rest ih => exact ⟨hes.1, ih hes.2⟩

namespace Level

/-- An operator of a level has the rank of the level. -/
lemma rank_eq_of_holds {level : Level} {kind : Token.Kind} (h : level.holds kind = true) :
    kind.rank = level.rank := by
  rw [Token.Kind.rank, eq_of_beq h]
  rfl

/-- What an operator of a level makes has the rank of the level. -/
lemma rank_node {level : Level} {left right : Expr} {operator : Token}
    (h : level.holds operator.kind = true) :
    (level.node left operator right).rank = level.rank := by
  rw [← rank_eq_of_holds h]
  cases level <;> rfl

/-- **What an operator makes is graded** if its left operand binds as tightly as it does, and its
right operand more tightly. -/
lemma graded_node {level : Level} {left right : Expr} {operator : Token}
    (h : level.holds operator.kind = true) (hl : level.rank ≤ left.rank ∧ left.Graded)
    (hr : level.rank < right.rank ∧ right.Graded) :
    (level.node left operator right).Graded := by
  rw [← rank_eq_of_holds h] at hl hr
  cases level <;> exact ⟨hl, hr⟩

end Level

/-! ## Expressions and statements over some tokens -/

variable {tokens : List Token}

/-- **A well-formed expression.** Its tokens are among some and of kinds that fit their places, its
operands bind as tightly as their places ask for, and its literals are plain. -/
structure Expr.WellFormed (tokens : List Token) (e : Expr) : Prop where
  whole : e.Whole tokens
  graded : e.Graded

section Formed

variable (tokens : List Token) (P : Expr → Prop)

mutual

/-- A statement in which no branch and no body of a loop is a declaration, each name and keyword is
among some tokens and of the kind that fits its place, and each expression has a property. -/
def Stmt.Formed : Stmt → Prop
  | .expression value | .print value => P value
  | .var name initial => name.Among tokens [.identifier] ∧ ∀ value ∈ initial, P value
  | .block body => Stmt.AllFormed body
  | .branch condition whenTrue none =>
    P condition ∧ whenTrue.isDeclaration = false ∧ whenTrue.Formed
  | .branch condition whenTrue (some whenFalse) =>
    P condition ∧ (whenTrue.isDeclaration = false ∧ whenTrue.Formed) ∧
      whenFalse.isDeclaration = false ∧ whenFalse.Formed
  | .loop condition body => P condition ∧ body.isDeclaration = false ∧ body.Formed
  | .function name parameters body =>
    name.Among tokens [.identifier] ∧ (∀ p ∈ parameters, p.Among tokens [.identifier]) ∧
      Stmt.AllFormed body
  | .return keyword value => keyword.Among tokens [.returnWord] ∧ ∀ e ∈ value, P e

/-- Slots that are empty or filled with such statements. -/
def Stmt.AllFormed : List (Option Stmt) → Prop
  | [] => True
  | none :: rest => Stmt.AllFormed rest
  | some statement :: rest => statement.Formed ∧ Stmt.AllFormed rest

end

end Formed

variable {P : Expr → Prop}

mutual

/-- **In a formed statement declarations stand in slots only.** -/
lemma Stmt.Formed.regular {s : Stmt} (h : s.Formed tokens P) : s.Regular := by
  cases s with
  | expression | print | var | «return» => trivial
  | block body =>
    have hbody : Stmt.AllRegular body := Stmt.AllFormed.regular h
    exact hbody
  | branch condition whenTrue whenFalse =>
    cases whenFalse with
    | none => exact ⟨h.2.1, Stmt.Formed.regular h.2.2⟩
    | some whenFalse =>
      obtain ⟨-, ⟨ht, htrue⟩, hf, hfalse⟩ := h
      exact ⟨⟨ht, Stmt.Formed.regular htrue⟩, hf, Stmt.Formed.regular hfalse⟩
  | loop condition body => exact ⟨h.2.1, Stmt.Formed.regular h.2.2⟩
  | function name parameters body => exact Stmt.AllFormed.regular h.2.2

/-- The same for slots. -/
lemma Stmt.AllFormed.regular {slots : Slots} (h : Stmt.AllFormed tokens P slots) :
    Stmt.AllRegular slots := by
  cases slots with
  | nil => trivial
  | cons slot rest =>
    cases slot with
    | none =>
      have hrest : Stmt.AllRegular rest := Stmt.AllFormed.regular h
      exact hrest
    | some s => exact ⟨Stmt.Formed.regular h.1, Stmt.AllFormed.regular h.2⟩

end

/-- A formed statement that may be a branch or the body of a loop, since it is no declaration. -/
structure Stmt.FormedBranch (tokens : List Token) (P : Expr → Prop) (s : Stmt) : Prop where
  noDeclaration : s.isDeclaration = false
  formed : s.Formed tokens P

/-- **A `for` stands for a formed statement** if its parts are formed. -/
lemma Stmt.formed_forLoop {initial : Option Stmt} {condition step : Option Expr} {body : Stmt}
    (htrue : P (.literal (.bool true))) (hi : ∀ s ∈ initial, s.Formed tokens P)
    (hc : ∀ e ∈ condition, P e) (hs : ∀ e ∈ step, P e) (hbody : body.FormedBranch tokens P) :
    (Stmt.forLoop initial condition step body).FormedBranch tokens P := by
  have hcondition : P (condition.getD (.literal (.bool true))) := by
    cases condition with
    | none => exact htrue
    | some e => exact hc e rfl
  have hround : ∀ round : Stmt, round.FormedBranch tokens P →
      (Stmt.loop (condition.getD (.literal (.bool true))) round).FormedBranch tokens P :=
    fun _ hr => ⟨rfl, hcondition, hr.noDeclaration, hr.formed⟩
  have hstep : ∀ e ∈ step, (Stmt.block [some body, some (.expression e)]).FormedBranch tokens P :=
    fun e he => ⟨rfl, hbody.formed, hs e he, trivial⟩
  unfold Stmt.forLoop
  cases initial with
  | none =>
    cases step with
    | none => exact hround _ hbody
    | some step => exact hround _ (hstep step rfl)
  | some initial =>
    have hi := hi initial rfl
    cases step with
    | none => exact ⟨rfl, hi, (hround _ hbody).formed, trivial⟩
    | some step => exact ⟨rfl, hi, (hround _ (hstep step rfl)).formed, trivial⟩

/-- **Well-formed slots**: formed slots in which every expression is well formed. -/
def Stmt.AllWellFormed (tokens : List Token) (slots : Slots) : Prop :=
  Stmt.AllFormed tokens (Expr.WellFormed tokens) slots

end LoxLang
