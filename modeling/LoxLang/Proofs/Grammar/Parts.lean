import LoxLang.Proofs.Evaluation.Names
import LoxLang.Proofs.Grammar.WellFormed

set_option autoImplicit false

/-!
# The parts of what is read

A source is read as a program or as an expression, with or without faults. Every statement at any
place of the program is as well formed as the program is, and so is every expression in it.

## Main definitions

* `Stmt.expressions`, `Expr.operands` — the expressions that a statement or an expression is made
  of.
* `Stmt.ReadFrom`, `Expr.ReadFrom` — statements and expressions at any place of what is read.

## Main results

* `Stmt.Facing.formed` — what stands in formed slots is formed.
* `Stmt.ReadFrom.formed`, `Expr.ReadFrom.wellFormed` — what is read from a source is well formed at
  every place.
-/

namespace LoxLang

variable {tokens : List Token}

/-! ## Parts of statements and expressions -/

mutual

/-- What stands in formed slots is formed. -/
lemma Stmt.Facing.formed {P : Expr → Prop} {p p' : Slots} {s s' : Stmt} (h : Facing p p' s s')
    (hp : Stmt.AllFormed tokens P p) : s.Formed tokens P :=
  match h with
  | .member h => (h.allFormed hp).1
  | @Facing.whenTrue _ _ _ _ _ _ none _ h => (h.formed hp).2.2
  | @Facing.whenTrue _ _ _ _ _ _ (some _) _ h => (h.formed hp).2.1.2
  | .whenFalse h => (h.formed hp).2.2.2
  | .body h => (h.formed hp).2.2

/-- Slots in formed slots are formed. -/
lemma Stmt.FacingIn.allFormed {P : Expr → Prop} {p p' b b' : Slots} (h : FacingIn p p' b b')
    (hp : Stmt.AllFormed tokens P p) : Stmt.AllFormed tokens P b :=
  match h with
  | .program => hp
  | @FacingIn.later _ _ none _ _ _ h => h.allFormed hp
  | @FacingIn.later _ _ (some _) _ _ _ h => (h.allFormed hp).2
  | .block h => h.formed hp
  | .function h => (h.formed hp).2.2

end

/-- The expressions that a statement has itself. -/
def Stmt.expressions : Stmt → List Expr
  | .expression value | .print value => [value]
  | .var _ initial => initial.toList
  | .branch condition _ _ | .loop condition _ => [condition]
  | .return _ value => value.toList
  | .block _ | .function _ _ _ => []

/-- The expressions that an expression is made of. -/
def Expr.operands : Expr → List Expr
  | .literal _ | .variable _ => []
  | .grouping inner | .unary _ inner | .assign _ inner => [inner]
  | .binary left _ right | .logical left _ right => [left, right]
  | .call callee _ arguments => callee :: arguments

/-- The expressions of a formed statement have the property. -/
lemma Stmt.Formed.of_mem_expressions {P : Expr → Prop} {s : Stmt} {e : Expr}
    (h : s.Formed tokens P) (he : e ∈ s.expressions) : P e := by
  cases s with
  | expression value | print value =>
    obtain rfl := List.mem_singleton.1 he
    exact h
  | var name initial => exact h.2 e (Option.mem_toList.1 he)
  | block body | function name parameters body => simp [Stmt.expressions] at he
  | branch condition whenTrue whenFalse =>
    obtain rfl := List.mem_singleton.1 he
    cases whenFalse <;> exact h.1
  | loop condition body =>
    obtain rfl := List.mem_singleton.1 he
    exact h.1
  | «return» keyword value => exact h.2 e (Option.mem_toList.1 he)

/-- Of expressions in a row that are well formed each one is. -/
lemma Expr.wellFormed_of_mem {es : List Expr} {e : Expr} (hw : Expr.AllWhole tokens es)
    (hg : Expr.AllGraded es) (he : e ∈ es) : e.WellFormed tokens := by
  induction es with
  | nil => simp at he
  | cons first rest ih =>
    rcases List.mem_cons.1 he with rfl | he
    · exact ⟨hw.1, hg.1⟩
    · exact ih hw.2 hg.2 he

/-- What a well-formed expression is made of is well formed. -/
lemma Expr.WellFormed.of_mem_operands {e e' : Expr} (h : e.WellFormed tokens)
    (he : e' ∈ e.operands) : e'.WellFormed tokens := by
  obtain ⟨hw, hg⟩ := h
  cases e with
  | literal | «variable» => simp [Expr.operands] at he
  | grouping inner =>
    obtain rfl := List.mem_singleton.1 he
    exact ⟨hw, hg⟩
  | unary operator inner =>
    obtain rfl := List.mem_singleton.1 he
    exact ⟨hw.2, hg.2⟩
  | assign name inner =>
    obtain rfl := List.mem_singleton.1 he
    exact ⟨hw.2, hg⟩
  | binary left operator right | logical left operator right =>
    rcases List.mem_pair.1 he with rfl | rfl
    · exact ⟨hw.1, hg.1.2⟩
    · exact ⟨hw.2.2, hg.2.2⟩
  | call callee paren arguments =>
    rcases List.mem_cons.1 he with rfl | he
    · exact ⟨hw.1, hg.1.2⟩
    · exact Expr.wellFormed_of_mem hw.2.2 hg.2 he

/-! ## Parts of what is read from a source -/

/-- A statement is part of a program that is read from a source, with or without faults, at any
place in it. -/
def Stmt.ReadFrom (source : String) (s : Stmt) : Prop :=
  ∃ depth program faults,
    Grammar.parse depth (scan source).tokens = .done program faults ∧ s.StandsIn program

/-- An expression is read from a source, with or without faults: by itself, or in a statement, or
within another expression. -/
inductive Expr.ReadFrom (source : String) : Expr → Prop
  | alone {depth : Nat} {e : Expr} {faults : List SyntaxFault}
    (h : Grammar.parseExpression depth (scan source).tokens = .done (some e) faults) :
    ReadFrom source e
  | ofStatement {s : Stmt} {e : Expr} (h : s.ReadFrom source) (he : e ∈ s.expressions) :
    ReadFrom source e
  | operand {e e' : Expr} (h : ReadFrom source e) (he : e' ∈ e.operands) : ReadFrom source e'

/-- A statement that is read is well formed. -/
lemma Stmt.ReadFrom.formed {source : String} {s : Stmt} (h : s.ReadFrom source) :
    s.Formed (scan source).tokens (Expr.WellFormed (scan source).tokens) := by
  obtain ⟨depth, program, faults, hread, hs⟩ := h
  exact Stmt.Facing.formed hs ((Grammar.parse_wellFormed depth source).2.1 program faults hread).1

/-- An expression that is read is well formed. -/
lemma Expr.ReadFrom.wellFormed {source : String} {e : Expr} (h : e.ReadFrom source) :
    e.WellFormed (scan source).tokens := by
  induction h with
  | alone h => exact (Grammar.parse_wellFormed _ source).2.2 _ _ h
  | ofStatement h he => exact h.formed.of_mem_expressions he
  | operand _ he ih => exact ih.of_mem_operands he

end LoxLang
