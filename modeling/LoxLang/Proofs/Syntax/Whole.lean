import Mathlib.Tactic.Common
import LoxLang.Syntax

set_option autoImplicit false

/-!
# Whole trees

A tree is whole over some tokens if no slot in it is empty, each token in it is one of them and of a
kind that fits its place, and a return stands in a function body only. Nothing else about a tree
matters for which faults a run of it may end with.

## Main definitions

* `Token.Among` — a token is one of some and of one of some kinds.
* `Expr.Whole`, `Stmt.Whole`, `Stmt.AllWhole` — whole expressions, statements and slots.

## Main results

* `Expr.Whole.mono`, `Stmt.Whole.mono` — what is whole over some tokens is so over more, and what
  may stand outside function bodies may stand inside.
* `Stmt.allWhole_iff` — slots are whole if each of them is filled with a whole statement.
-/

namespace LoxLang

/-- A token is one of some tokens, and of one of some kinds. -/
def Token.Among (t : Token) (tokens : List Token) (kinds : List Token.Kind) : Prop :=
  t ∈ tokens ∧ t.kind ∈ kinds

/-- A token among some is among more. -/
lemma Token.Among.mono {t : Token} {tokens more : List Token} {kinds : List Token.Kind}
    (h : t.Among tokens kinds) (hmore : tokens ⊆ more) : t.Among more kinds := ⟨hmore h.1, h.2⟩

namespace Token.Kind

/-- The operators that work on two numbers alone. -/
def arithmetic : List Token.Kind :=
  [minus, star, slash, greater, greaterEqual, less, lessEqual]

/-- The operators between two values that always take both. -/
def binary : List Token.Kind := equalEqual :: bangEqual :: plus :: arithmetic

end Token.Kind

mutual

/-- An expression whose tokens are among some, and of kinds that fit their places. -/
def Expr.Whole (tokens : List Token) : Expr → Prop
  | .literal _ => True
  | .grouping inner => inner.Whole tokens
  | .unary operator operand => operator.Among tokens [.bang, .minus] ∧ operand.Whole tokens
  | .binary left operator right =>
    left.Whole tokens ∧ operator.Among tokens Token.Kind.binary ∧ right.Whole tokens
  | .logical left operator right =>
    left.Whole tokens ∧ operator.Among tokens [.orWord, .andWord] ∧ right.Whole tokens
  | .variable name => name.Among tokens [.identifier]
  | .assign name value => name.Among tokens [.identifier] ∧ value.Whole tokens
  | .call callee paren arguments =>
    callee.Whole tokens ∧ paren.Among tokens [.rightParen] ∧ Expr.AllWhole tokens arguments

/-- Expressions that are whole. -/
def Expr.AllWhole (tokens : List Token) : List Expr → Prop
  | [] => True
  | e :: rest => e.Whole tokens ∧ Expr.AllWhole tokens rest

end

mutual

/-- A statement, inside or outside a function body, in which no slot is empty, whose tokens are
among some and of kinds that fit their places, and which returns from function bodies only. -/
def Stmt.Whole (tokens : List Token) (inFunction : Bool) : Stmt → Prop
  | .expression value => value.Whole tokens
  | .print value => value.Whole tokens
  | .var name initial =>
    name.Among tokens [.identifier] ∧ ∀ value ∈ initial, value.Whole tokens
  | .block body => Stmt.AllWhole tokens inFunction body
  | .branch condition whenTrue none =>
    condition.Whole tokens ∧ whenTrue.Whole tokens inFunction
  | .branch condition whenTrue (some whenFalse) =>
    condition.Whole tokens ∧ whenTrue.Whole tokens inFunction ∧ whenFalse.Whole tokens inFunction
  | .loop condition body => condition.Whole tokens ∧ body.Whole tokens inFunction
  | .function name parameters body =>
    name.Among tokens [.identifier] ∧ (∀ p ∈ parameters, p.Among tokens [.identifier]) ∧
      Stmt.AllWhole tokens true body
  | .return keyword value =>
    inFunction = true ∧ keyword.Among tokens [.returnWord] ∧ ∀ e ∈ value, e.Whole tokens

/-- Slots that are all filled, with whole statements. -/
def Stmt.AllWhole (tokens : List Token) (inFunction : Bool) : List (Option Stmt) → Prop
  | [] => True
  | none :: _ => False
  | some statement :: rest =>
    statement.Whole tokens inFunction ∧ Stmt.AllWhole tokens inFunction rest

end

variable {tokens more : List Token}

mutual

/-- An expression that is whole over some tokens is so over more. -/
lemma Expr.Whole.mono {e : Expr} (h : e.Whole tokens) (hmore : tokens ⊆ more) :
    e.Whole more := by
  cases e with
  | literal => trivial
  | grouping inner => exact Expr.Whole.mono (e := inner) h hmore
  | unary operator operand => exact ⟨h.1.mono hmore, Expr.Whole.mono h.2 hmore⟩
  | binary left operator right | logical left operator right =>
    exact ⟨Expr.Whole.mono h.1 hmore, h.2.1.mono hmore, Expr.Whole.mono h.2.2 hmore⟩
  | «variable» name => exact Token.Among.mono h hmore
  | assign name value => exact ⟨h.1.mono hmore, Expr.Whole.mono h.2 hmore⟩
  | call callee paren arguments =>
    exact ⟨Expr.Whole.mono h.1 hmore, h.2.1.mono hmore, Expr.AllWhole.mono h.2.2 hmore⟩

/-- The same for expressions in a row. -/
lemma Expr.AllWhole.mono {es : List Expr} (h : Expr.AllWhole tokens es) (hmore : tokens ⊆ more) :
    Expr.AllWhole more es := by
  cases es with
  | nil => trivial
  | cons e rest => exact ⟨Expr.Whole.mono h.1 hmore, Expr.AllWhole.mono h.2 hmore⟩

end

mutual

/-- A statement that is whole over some tokens is so over more, and inside function bodies if it is
outside. -/
lemma Stmt.Whole.mono {inFunction within : Bool} {st : Stmt} (h : st.Whole tokens inFunction)
    (hmore : tokens ⊆ more) (hin : inFunction = true → within = true) :
    st.Whole more within := by
  cases st with
  | expression value | print value => exact Expr.Whole.mono h hmore
  | var name initial =>
    exact ⟨h.1.mono hmore, fun value hvalue => (h.2 value hvalue).mono hmore⟩
  | block body =>
    have hbody : Stmt.AllWhole tokens inFunction body := h
    exact Stmt.AllWhole.mono hbody hmore hin
  | branch condition whenTrue whenFalse =>
    cases whenFalse with
    | none => exact ⟨h.1.mono hmore, Stmt.Whole.mono h.2 hmore hin⟩
    | some whenFalse =>
      exact ⟨h.1.mono hmore, Stmt.Whole.mono h.2.1 hmore hin, Stmt.Whole.mono h.2.2 hmore hin⟩
  | loop condition body => exact ⟨h.1.mono hmore, Stmt.Whole.mono h.2 hmore hin⟩
  | function name parameters body =>
    exact ⟨h.1.mono hmore, fun p hp => (h.2.1 p hp).mono hmore,
      Stmt.AllWhole.mono h.2.2 hmore id⟩
  | «return» keyword value =>
    exact ⟨hin h.1, h.2.1.mono hmore, fun e he => (h.2.2 e he).mono hmore⟩

/-- The same for slots. -/
lemma Stmt.AllWhole.mono {inFunction within : Bool} {slots : Slots}
    (h : Stmt.AllWhole tokens inFunction slots) (hmore : tokens ⊆ more)
    (hin : inFunction = true → within = true) : Stmt.AllWhole more within slots := by
  cases slots with
  | nil => trivial
  | cons slot rest =>
    cases slot with
    | none => exact h.elim
    | some statement => exact ⟨Stmt.Whole.mono h.1 hmore hin, Stmt.AllWhole.mono h.2 hmore hin⟩

end

/-- **Slots are whole if each of them is filled with a whole statement.** -/
theorem Stmt.allWhole_iff {inFunction : Bool} {slots : Slots} :
    Stmt.AllWhole tokens inFunction slots ↔
      ∀ slot ∈ slots, ∃ st, slot = some st ∧ st.Whole tokens inFunction := by
  induction slots with
  | nil => simp [AllWhole]
  | cons slot rest ih =>
    cases slot with
    | none => simp [AllWhole]
    | some st => simp [AllWhole, ih]

/-- A statement in whole slots is whole. -/
lemma Stmt.AllWhole.of_mem {inFunction : Bool} {slots : Slots} {st : Stmt}
    (h : Stmt.AllWhole tokens inFunction slots) (hst : some st ∈ slots) :
    st.Whole tokens inFunction := by
  obtain ⟨st', heq, hwhole⟩ := Stmt.allWhole_iff.1 h _ hst
  exact Option.some.inj heq ▸ hwhole

end LoxLang
