import LoxLang.Proofs.Evaluation.Simulation
import LoxLang.Proofs.Scan.Written

set_option autoImplicit false

/-!
# What a run does not depend on

Parentheses, empty slots, whatever follows a return in the same row of statements, and the lines of
all tokens make no difference to a run. Programs that are the same without them print the same, end
in the same way and leave the same globals behind, up to the same differences in the bodies of
functions.

## Main definitions

* `Expr.core`, `Stmt.core`, `Stmt.coreSlots` — trees without parentheses, empty slots, statements
  behind a return, and lines.
* `Token.SameWord` — tokens that differ in their lines only.
* `Ending.Alike` — endings that differ in the line of a fault only.

## Main results

* `Machine.interpret_of_coreSlots_eq` — programs with the same core run alike.
-/

namespace LoxLang

/-! ## The core of a program -/

mutual

/-- An expression without parentheses and lines. -/
def Expr.core : Expr → Expr
  | .literal value => .literal value
  | .grouping inner => inner.core
  | .unary operator operand => .unary operator.unplaced operand.core
  | .binary left operator right => .binary left.core operator.unplaced right.core
  | .logical left operator right => .logical left.core operator.unplaced right.core
  | .variable name => .variable name.unplaced
  | .assign name value => .assign name.unplaced value.core
  | .call callee paren arguments =>
    .call callee.core paren.unplaced (Expr.coreAll arguments)

/-- Expressions without parentheses and lines. -/
def Expr.coreAll : List Expr → List Expr
  | [] => []
  | e :: rest => e.core :: Expr.coreAll rest

end

mutual

/-- A statement without parentheses, empty slots, statements behind a return, and lines. -/
def Stmt.core : Stmt → Stmt
  | .expression value => .expression value.core
  | .print value => .print value.core
  | .var name none => .var name.unplaced none
  | .var name (some initial) => .var name.unplaced (some initial.core)
  | .block body => .block (Stmt.coreSlots body)
  | .branch condition whenTrue none => .branch condition.core whenTrue.core none
  | .branch condition whenTrue (some whenFalse) =>
    .branch condition.core whenTrue.core (some whenFalse.core)
  | .loop condition body => .loop condition.core body.core
  | .function name parameters body =>
    .function name.unplaced (parameters.map Token.unplaced) (Stmt.coreSlots body)
  | .return keyword none => .return keyword.unplaced none
  | .return keyword (some value) => .return keyword.unplaced (some value.core)

/-- Statements without parentheses, empty slots, statements behind a return, and lines. -/
def Stmt.coreSlots : Slots → Slots
  | [] => []
  | none :: rest => Stmt.coreSlots rest
  | some statement :: rest =>
    some statement.core ::
      match statement with
      | .return _ _ => []
      | _ => Stmt.coreSlots rest

end

/-- Tokens that differ in their lines only. -/
structure Token.SameWord (t t' : Token) : Prop where
  kind : t'.kind = t.kind
  lexeme : t'.lexeme = t.lexeme

lemma Token.sameWord_of_unplaced {t t' : Token} (h : t.unplaced = t'.unplaced) :
    t.SameWord t' := by
  simp only [unplaced, Token.mk.injEq] at h
  exact ⟨h.1.symm, h.2.1.symm⟩

/-- Names that are the same without their lines differ in their lines only. -/
lemma Token.sameWords_of_unplaced {ts ts' : List Token}
    (h : ts.map Token.unplaced = ts'.map Token.unplaced) : List.Forall₂ Token.SameWord ts ts' := by
  rw [← List.forall₂_eq_eq_eq, List.forall₂_map_left_iff, List.forall₂_map_right_iff] at h
  exact h.imp fun _ _ => Token.sameWord_of_unplaced

/-! ## Programs with the same core -/

/-- Expressions in a row with the same core have the same core one by one. -/
lemma Expr.forall₂_of_coreAll {es es' : List Expr} (h : Expr.coreAll es = Expr.coreAll es') :
    List.Forall₂ (fun e e' => e.core = e'.core) es es' := by
  induction es generalizing es' with
  | nil =>
    cases es' with
    | nil => exact .nil
    | cons => simp [coreAll] at h
  | cons e es ih =>
    cases es' with
    | nil => simp [coreAll] at h
    | cons e' es' =>
      simp only [coreAll, List.cons.injEq] at h
      exact .cons h.1 (ih h.2)

/-- Expressions with the same core have one form and parts with the same core, unless one of them is
in parentheses. -/
lemma Expr.congruent_of_core {e e' : Expr} (h : e.core = e'.core)
    (he : ∀ inner, e ≠ .grouping inner) (he' : ∀ inner, e' ≠ .grouping inner) :
    Expr.Congruent Token.SameWord Token.SameWord (fun e e' => e.core = e'.core) e e' := by
  cases e with
  | grouping inner => exact absurd rfl (he inner)
  | literal value =>
    cases e' with
    | grouping inner => exact absurd rfl (he' inner)
    | literal value' =>
      obtain rfl : value = value' := by simpa [core] using h
      exact .literal value
    | _ => simp [core] at h
  | unary operator operand =>
    cases e' with
    | grouping inner => exact absurd rfl (he' inner)
    | unary operator' operand' =>
      simp only [core, Expr.unary.injEq] at h
      exact .unary (Token.sameWord_of_unplaced h.1) h.2
    | _ => simp [core] at h
  | binary left operator right =>
    cases e' with
    | grouping inner => exact absurd rfl (he' inner)
    | binary left' operator' right' =>
      simp only [core, Expr.binary.injEq] at h
      exact .binary h.1 (Token.sameWord_of_unplaced h.2.1) h.2.2
    | _ => simp [core] at h
  | logical left operator right =>
    cases e' with
    | grouping inner => exact absurd rfl (he' inner)
    | logical left' operator' right' =>
      simp only [core, Expr.logical.injEq] at h
      exact .logical h.1 (Token.sameWord_of_unplaced h.2.1) h.2.2
    | _ => simp [core] at h
  | «variable» name =>
    cases e' with
    | grouping inner => exact absurd rfl (he' inner)
    | «variable» name' =>
      simp only [core, Expr.variable.injEq] at h
      exact .variable (Token.sameWord_of_unplaced h)
    | _ => simp [core] at h
  | assign name value =>
    cases e' with
    | grouping inner => exact absurd rfl (he' inner)
    | assign name' value' =>
      simp only [core, Expr.assign.injEq] at h
      exact .assign (Token.sameWord_of_unplaced h.1) h.2
    | _ => simp [core] at h
  | call callee paren arguments =>
    cases e' with
    | grouping inner => exact absurd rfl (he' inner)
    | call callee' paren' arguments' =>
      simp only [core, Expr.call.injEq] at h
      exact .call h.1 (Token.sameWord_of_unplaced h.2.1) (Expr.forall₂_of_coreAll h.2.2)
    | _ => simp [core] at h

/-- Statements with the same core have one form and parts with the same core. -/
lemma Stmt.congruent_of_core {s s' : Stmt} (h : s.core = s'.core) :
    Stmt.Congruent Token.SameWord Token.SameWord (fun e e' => e.core = e'.core)
      (fun s s' => s.core = s'.core) (fun b b' => coreSlots b = coreSlots b') False s s' := by
  cases s with
  | expression value =>
    cases s' with
    | expression value' => exact .expression (by simpa [core] using h)
    | var _ i | branch _ _ i | «return» _ i => cases i <;> simp [core] at h
    | _ => simp [core] at h
  | print value =>
    cases s' with
    | print value' => exact .print (by simpa [core] using h)
    | var _ i | branch _ _ i | «return» _ i => cases i <;> simp [core] at h
    | _ => simp [core] at h
  | var name initial =>
    cases s' with
    | var name' initial' =>
      cases initial <;> cases initial' <;> simp [core] at h
      · exact .var (Token.sameWord_of_unplaced h) .none
      · exact .var (Token.sameWord_of_unplaced h.1) (.some h.2)
    | branch _ _ i | «return» _ i => cases initial <;> cases i <;> simp [core] at h
    | _ => cases initial <;> simp [core] at h
  | block body =>
    cases s' with
    | block body' => exact .block (by simpa [core] using h)
    | var _ i | branch _ _ i | «return» _ i => cases i <;> simp [core] at h
    | _ => simp [core] at h
  | branch condition whenTrue whenFalse =>
    cases s' with
    | branch condition' whenTrue' whenFalse' =>
      cases whenFalse <;> cases whenFalse' <;> simp [core] at h
      · exact .branch h.1 h.2 .none False.elim False.elim
      · exact .branch h.1 h.2.1 (.some h.2.2) False.elim False.elim
    | var _ i | «return» _ i => cases whenFalse <;> cases i <;> simp [core] at h
    | _ => cases whenFalse <;> simp [core] at h
  | loop condition body =>
    cases s' with
    | loop condition' body' =>
      simp only [core, Stmt.loop.injEq] at h
      exact .loop h.1 h.2 False.elim
    | var _ i | branch _ _ i | «return» _ i => cases i <;> simp [core] at h
    | _ => simp [core] at h
  | function name parameters body =>
    cases s' with
    | function name' parameters' body' =>
      simp only [core, Stmt.function.injEq] at h
      exact .function (Token.sameWord_of_unplaced h.1) (Token.sameWords_of_unplaced h.2.1) h.2.2
    | var _ i | branch _ _ i | «return» _ i => cases i <;> simp [core] at h
    | _ => simp [core] at h
  | «return» keyword value =>
    cases s' with
    | «return» keyword' value' =>
      cases value <;> cases value' <;> simp [core] at h
      · exact .return (Token.sameWord_of_unplaced h) .none
      · exact .return (Token.sameWord_of_unplaced h.1) (.some h.2)
    | var _ i | branch _ _ i => cases value <;> cases i <;> simp [core] at h
    | _ => cases value <;> simp [core] at h

/-- Only a return has the core of a return. -/
lemma Stmt.exists_return_of_core {s : Stmt} {keyword : Token} {value : Option Expr}
    (h : (Stmt.return keyword value).core = s.core) : ∃ k v, s = .return k v := by
  cases Stmt.congruent_of_core h with
  | «return» => exact ⟨_, _, rfl⟩

/-- Slots with the same core begin alike. -/
lemma Stmt.aligned_of_coreSlots {b b' : Slots} (h : coreSlots b = coreSlots b') :
    Stmt.Aligned (fun s s' => s.core = s'.core) (fun b b' => coreSlots b = coreSlots b') b b' := by
  have hcons : ∀ (s : Stmt) (rest : Slots), (∀ k v, s ≠ .return k v) →
      coreSlots (some s :: rest) = some s.core :: coreSlots rest := by
    intro s rest hs
    cases s with
    | «return» k v => exact absurd rfl (hs k v)
    | _ => rfl
  match b, b' with
  | [], [] => exact .nil
  | [], none :: rest' => exact .gapRight h
  | none :: rest, b' => exact .gapLeft h
  | some s :: rest, none :: rest' => exact .gapRight h
  | [], some s' :: rest' => simp [coreSlots] at h
  | some s :: rest, [] => simp [coreSlots] at h
  | some s :: rest, some s' :: rest' =>
    have hhead : s.core = s'.core := by
      simp only [coreSlots, List.cons.injEq, Option.some.injEq] at h
      exact h.1
    by_cases hs : ∃ k v, s = .return k v
    · obtain ⟨k, v, rfl⟩ := hs
      obtain ⟨k', v', rfl⟩ := Stmt.exists_return_of_core hhead
      exact .ended hhead
    · have hs' : ∀ k v, s' ≠ .return k v := by
        rintro k v rfl
        exact hs (Stmt.exists_return_of_core hhead.symm)
      rw [hcons s rest fun k v heq => hs ⟨k, v, heq⟩, hcons s' rest' hs'] at h
      exact .cons hhead (List.cons.inj h).2

/-- To have the same core is a correspondence, which leaves the store as it is. -/
def Correspondence.core : Correspondence where
  room := .either
  braces := False
  rename := id
  Name := Token.SameWord
  Mark := Token.SameWord
  Exprs e e' := e.core = e'.core
  Stmts s s' := s.core = s'.core
  Bodies b b' := Stmt.coreSlots b = Stmt.coreSlots b'
  rename_injective := Function.injective_id
  rename_native := Native.id_name
  lexeme_name _ _ h := h.lexeme
  kind_mark _ _ h := h.kind
  lexeme_mark _ _ h := h.lexeme
  unfold_expr e e' h := by
    by_cases he : ∃ inner, e = .grouping inner
    · obtain ⟨inner, rfl⟩ := he
      exact .inr ⟨rfl, .inl ⟨inner, rfl, h⟩⟩
    by_cases he' : ∃ inner, e' = .grouping inner
    · obtain ⟨inner, rfl⟩ := he'
      exact .inr ⟨rfl, .inr ⟨inner, rfl, h⟩⟩
    · exact .inl (Expr.congruent_of_core h (not_exists.1 he) (not_exists.1 he'))
  unfold_stmt _ _ h := .inl (Stmt.congruent_of_core h)
  unfold_bodies _ _ h := Stmt.aligned_of_coreSlots h

/-! ## Runs of programs with the same core -/

/-- Two runs end alike: both reach the end, or they end with faults that have one message, at tokens
that differ in their lines only. -/
inductive Ending.Alike : Ending → Ending → Prop
  | finished : Alike .finished .finished
  | faulted {f f' : RuntimeFault} (message : f'.message = f.message)
    (token : f.token.SameWord f'.token) : Alike (.faulted f) (.faulted f')

/-- Endings that correspond are alike. -/
lemma Ending.alike_of_core {ending ending' : Ending}
    (h : Correspondence.core.Endings ending ending') : ending.Alike ending' := by
  cases h with
  | finished => exact .finished
  | faulted hf =>
    cases hf with
    | undefined ht =>
      exact .faulted (congrArg (fun n => (RuntimeFault.Cause.undefinedVariable n).message)
        ht.lexeme) ht
    | other ht => exact .faulted rfl ht

/-- Values that are the same up to the core of function bodies, and the lines of the names and
parameters of functions. -/
def Value.SameCore : Value → Value → Prop :=
  Value.Similar Token.SameWord fun b b' => Stmt.coreSlots b = Stmt.coreSlots b'

/-- **Programs with the same core run alike.** If neither run is cut short by its limits, they print
the same, end alike, and leave globals of the same names with the same values up to the core of
function bodies.

**Proof sketch.** To have the same core is a relation that can be taken apart layer by layer: two
trees with the same core have one form and parts with the same core, but for parentheses, empty slots
and what a return keeps from being reached. So the runs correspond, step by step. -/
theorem Machine.interpret_of_coreSlots_eq {program other : Slots}
    (h : Stmt.coreSlots program = Stmt.coreSlots other) (limits limits' : Limits) (clock : Clock) :
    let run := (Machine.initial clock).interpret limits program
    let run' := (Machine.initial clock).interpret limits' other
    ¬ run.2.Cut → ¬ run'.2.Cut →
      run.1.output = run'.1.output ∧ run.2.Alike run'.2 ∧
      List.Forall₂ (fun b b' => b'.1 = b.1 ∧ b.2.SameCore b'.2) run.1.globals run'.1.globals := by
  intro run run' hrun hrun'
  have hdeep : Correspondence.core.room.Deep limits.depth limits'.depth := trivial
  have hlong : Correspondence.core.room.Long limits.rounds limits'.rounds := trivial
  have hbodies : Correspondence.core.Bodies program other := h
  rcases Correspondence.interpret hdeep hlong hbodies (Correspondence.machines_initial _ clock) with
    hspared | hagree | ⟨hroom, -⟩
  · exact absurd hspared (not_or.2 ⟨hrun, hrun'⟩)
  · exact ⟨hagree.output_eq rfl, Ending.alike_of_core hagree.endings, hagree.globals rfl⟩
  · contradiction

/-- A function with its value in parentheses, an empty slot and a statement that is never reached,
and the same function without them on another line, are called alike. -/
theorem Machine.interpret_of_coreSlots_eq_nothing :
    let word := fun (lexeme : String) (line : Nat) => (⟨.identifier, lexeme, line⟩ : Token)
    let calling : Option Stmt :=
      some (.print (.call (.variable (word "f" 9)) ⟨.rightParen, ")", 9⟩ []))
    let program : Slots := [none, some (.function (word "f" 1) []
      [some (.return ⟨.returnWord, "return", 2⟩ (some (.grouping (.literal .nil)))),
        some (.print (.literal .nil))]), calling]
    let other : Slots := [some (.function (word "f" 5) []
      [none, some (.return ⟨.returnWord, "return", 5⟩ (some (.literal .nil)))]), calling]
    ((Machine.initial (fun _ => 0)).interpret ⟨9, 9, 9, 9⟩ program).1.output =
        ((Machine.initial (fun _ => 0)).interpret ⟨9, 9, 9, 9⟩ other).1.output ∧
      ((Machine.initial (fun _ => 0)).interpret ⟨9, 9, 9, 9⟩ program).1.output = #["nil"] := by
  intro word calling program other
  have hcore : Stmt.coreSlots program = Stmt.coreSlots other := rfl
  have hrun : ¬ ((Machine.initial (fun _ => 0)).interpret ⟨9, 9, 9, 9⟩ program).2.Cut := by decide +kernel
  have hrun' : ¬ ((Machine.initial (fun _ => 0)).interpret ⟨9, 9, 9, 9⟩ other).2.Cut := by
    decide +kernel
  obtain ⟨houtput, -⟩ :=
    Machine.interpret_of_coreSlots_eq hcore ⟨9, 9, 9, 9⟩ ⟨9, 9, 9, 9⟩ (fun _ => 0) hrun hrun'
  exact ⟨houtput, by decide +kernel⟩

end LoxLang
