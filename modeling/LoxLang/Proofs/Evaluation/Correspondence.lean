import Mathlib.Data.List.Forall2
import LoxLang.Proofs.Evaluation.Steps
import LoxLang.Proofs.Syntax.Braces

set_option autoImplicit false

/-!
# Programs that correspond

Two programs may differ in ways that make no difference to their runs: in the names that they use, in
parentheses, in slots that are empty, in statements that a return keeps from being reached, and in
braces around a statement. What is common to these is a relation between trees that can be taken
apart layer by layer: two related trees have the same form and related parts, but for the differences
that are allowed.

Values correspond if they are the same, or function values with one identity whose declarations
correspond. No operator can tell such values apart.

## Main definitions

* `Value.Similar` — values that differ in the declarations of function values only.
* `Expr.Congruent`, `Stmt.Congruent`, `Stmt.Aligned` — one layer of related trees.
* `Room` — which of two runs may be cut short while the other one goes on.
* `Correspondence` — relations between trees that can be taken apart.

## Main results

* `Value.Similar.unary_eq`, `Value.Similar.binary_eq` — operators give the same for similar values.
-/

namespace LoxLang

/-! ## Similar values -/

/-- Values that are the same, or function values with one identity and related declarations. -/
inductive Value.Similar (Name : Token → Token → Prop) (Bodies : Slots → Slots → Prop) :
    Value → Value → Prop
  | plain {v : Value} (h : ∀ f, v ≠ .closure f) : Similar Name Bodies v v
  | closure {f g : Closure} (identity : f.identity = g.identity) (name : Name f.name g.name)
    (parameters : List.Forall₂ Name f.parameters g.parameters) (body : Bodies f.body g.body) :
    Similar Name Bodies (.closure f) (.closure g)

namespace Value.Similar

variable {Name : Token → Token → Prop} {Bodies : Slots → Slots → Prop} {v v' w w' : Value}

lemma mono {Name' : Token → Token → Prop} {Bodies' : Slots → Slots → Prop}
    (h : v.Similar Name Bodies v') (hn : ∀ t u, Name t u → Name' t u)
    (hb : ∀ b b', Bodies b b' → Bodies' b b') : v.Similar Name' Bodies' v' := by
  cases h with
  | plain hv => exact .plain hv
  | closure identity name parameters body =>
    exact .closure identity (hn _ _ name) (parameters.imp fun t u => hn t u) (hb _ _ body)

lemma truthy_eq (h : v.Similar Name Bodies v') : v'.truthy = v.truthy := by
  cases h <;> rfl

lemma settles_eq (h : v.Similar Name Bodies v') {operator operator' : Token.Kind}
    (ho : operator' = operator) : v'.settles operator' = v.settles operator := by
  subst ho
  simp only [settles, h.truthy_eq]

/-- Similar values are equal to similar values. -/
lemma equals_eq (h : v.Similar Name Bodies v') (hw : w.Similar Name Bodies w') :
    v'.equals w' = v.equals w := by
  cases h with
  | plain hv =>
    cases hw with
    | plain => rfl
    | @closure f => cases v <;> first | rfl | exact absurd rfl (hv _)
  | closure identity =>
    cases hw with
    | plain hw => cases w <;> first | rfl | exact absurd rfl (hw _)
    | closure identity' => simp only [equals, identity, identity']

/-- **An operator in front of similar values gives the same.** -/
lemma unary_eq (h : v.Similar Name Bodies v') {operator operator' : Token.Kind}
    (ho : operator' = operator) : v'.unary operator' = v.unary operator := by
  subst ho
  cases h with
  | plain => rfl
  | closure => cases operator' <;> rfl

/-- **An operator between similar values gives the same.** -/
lemma binary_eq (h : v.Similar Name Bodies v') (hw : w.Similar Name Bodies w')
    {operator operator' : Token} (hk : operator'.kind = operator.kind)
    (hl : operator'.lexeme = operator.lexeme) :
    binary operator' v' w' = binary operator v w := by
  have hequals := h.equals_eq hw
  have hsum : sum v' w' = sum v w := by
    cases h with
    | plain hv =>
      cases hw with
      | plain => rfl
      | closure => cases v <;> rfl
    | closure =>
      cases hw with
      | plain hw => cases w <;> rfl
      | closure => rfl
  have harithmetic : ∀ x y, arithmetic operator' x y = arithmetic operator x y := by
    intro x y
    simp only [arithmetic, hk, hl]
  unfold binary
  rw [hk, hequals, hsum]
  cases h with
  | plain hv =>
    cases hw with
    | plain => simp only [harithmetic]
    | closure => cases v <;> rfl
  | closure =>
    cases hw with
    | plain hw => cases w <;> rfl
    | closure => rfl

end Value.Similar

/-! ## One layer of related trees -/

section Layers

variable (Name Mark : Token → Token → Prop) (Exprs : Expr → Expr → Prop)
  (Stmts : Stmt → Stmt → Prop) (Bodies : Slots → Slots → Prop) (braces : Prop)

/-- Expressions of one form with related parts. -/
inductive Expr.Congruent : Expr → Expr → Prop
  | literal (value : Literal) : Congruent (.literal value) (.literal value)
  | grouping {e e' : Expr} (he : Exprs e e') : Congruent (.grouping e) (.grouping e')
  | unary {o o' : Token} {e e' : Expr} (ho : Mark o o') (he : Exprs e e') :
    Congruent (.unary o e) (.unary o' e')
  | binary {o o' : Token} {l l' r r' : Expr} (hl : Exprs l l') (ho : Mark o o') (hr : Exprs r r') :
    Congruent (.binary l o r) (.binary l' o' r')
  | logical {o o' : Token} {l l' r r' : Expr} (hl : Exprs l l') (ho : Mark o o')
    (hr : Exprs r r') : Congruent (.logical l o r) (.logical l' o' r')
  | «variable» {n n' : Token} (hn : Name n n') : Congruent (.variable n) (.variable n')
  | assign {n n' : Token} {e e' : Expr} (hn : Name n n') (he : Exprs e e') :
    Congruent (.assign n e) (.assign n' e')
  | call {p p' : Token} {e e' : Expr} {es es' : List Expr} (he : Exprs e e') (hp : Mark p p')
    (hes : List.Forall₂ Exprs es es') : Congruent (.call e p es) (.call e' p' es')

/-- Statements of one form with related parts. Where braces may be put around statements, no branch
and no body of a loop may be a declaration: braces would change what it binds. -/
inductive Stmt.Congruent : Stmt → Stmt → Prop
  | expression {e e' : Expr} (he : Exprs e e') : Congruent (.expression e) (.expression e')
  | print {e e' : Expr} (he : Exprs e e') : Congruent (.print e) (.print e')
  | var {n n' : Token} {e e' : Option Expr} (hn : Name n n') (he : Option.Rel Exprs e e') :
    Congruent (.var n e) (.var n' e')
  | block {b b' : Slots} (hb : Bodies b b') : Congruent (.block b) (.block b')
  | branch {e e' : Expr} {s s' : Stmt} {r r' : Option Stmt} (he : Exprs e e') (hs : Stmts s s')
    (hr : Option.Rel Stmts r r') (hds : braces → s.isDeclaration = false)
    (hdr : braces → ∀ t ∈ r, t.isDeclaration = false) :
    Congruent (.branch e s r) (.branch e' s' r')
  | loop {e e' : Expr} {s s' : Stmt} (he : Exprs e e') (hs : Stmts s s')
    (hds : braces → s.isDeclaration = false) : Congruent (.loop e s) (.loop e' s')
  | function {n n' : Token} {ps ps' : List Token} {b b' : Slots} (hn : Name n n')
    (hps : List.Forall₂ Name ps ps') (hb : Bodies b b') :
    Congruent (.function n ps b) (.function n' ps' b')
  | return {k k' : Token} {e e' : Option Expr} (hk : Mark k k') (he : Option.Rel Exprs e e') :
    Congruent (.return k e) (.return k' e')

/-- Slots that begin alike: each of them may have an empty slot in front, and nothing matters that
comes after a return. -/
inductive Stmt.Aligned : Slots → Slots → Prop
  | nil : Aligned [] []
  | cons {s s' : Stmt} {b b' : Slots} (hs : Stmts s s') (hb : Bodies b b') :
    Aligned (some s :: b) (some s' :: b')
  | gaps {b b' : Slots} (hb : Bodies b b') : Aligned (none :: b) (none :: b')
  | gapLeft {b b' : Slots} (hb : Bodies b b') : Aligned (none :: b) b'
  | gapRight {b b' : Slots} (hb : Bodies b b') : Aligned b (none :: b')
  | ended {k k' : Token} {e e' : Option Expr} {b b' : Slots}
    (hs : Stmts (.return k e) (.return k' e')) :
    Aligned (some (.return k e) :: b) (some (.return k' e') :: b')

end Layers

/-! ## Correspondences -/

/-- Which of two runs may be cut short by its limits while the other one goes on. -/
inductive Room
  /-- Either of them, whatever their limits. -/
  | either
  /-- The first one only: the second has twice its depth. -/
  | first
  /-- The second one only: it has no more room than the first. -/
  | second
  /-- None of them: they have the same limits, and are cut short together. -/
  | same

/-- To rename nothing leaves the native functions alone. -/
lemma Native.id_name (f : Native) : id f.name = f.name := rfl

/-- Relations between trees that can be taken apart layer by layer, with a renaming of variables that
joins no two names and leaves the native functions alone. Parentheses may be left out only where
either run may be cut short. Braces are put only around what is no declaration, and only where runs
are not cut short together. -/
structure Correspondence where
  room : Room
  /-- Whether braces may be put around a statement on the second side. -/
  braces : Prop
  rename : String → String
  /-- Names of variables, parameters and functions. -/
  Name : Token → Token → Prop
  /-- All other tokens: operators, parentheses and the keywords of returns. -/
  Mark : Token → Token → Prop
  Exprs : Expr → Expr → Prop
  Stmts : Stmt → Stmt → Prop
  Bodies : Slots → Slots → Prop
  rename_injective : Function.Injective rename
  rename_native : ∀ f : Native, rename f.name = f.name
  lexeme_name : ∀ t u, Name t u → u.lexeme = rename t.lexeme
  kind_mark : ∀ t u, Mark t u → u.kind = t.kind
  lexeme_mark : ∀ t u, Mark t u → u.lexeme = t.lexeme
  unfold_expr : ∀ e e', Exprs e e' → Expr.Congruent Name Mark Exprs e e' ∨
    room = .either ∧ ((∃ inner, e = .grouping inner ∧ Exprs inner e') ∨
      ∃ inner, e' = .grouping inner ∧ Exprs e inner)
  unfold_stmt : ∀ s s', Stmts s s' → Stmt.Congruent Name Mark Exprs Stmts Bodies braces s s' ∨
    (braces ∧ room ≠ .same) ∧ s.isDeclaration = false ∧
      ∃ t, s' = .block [some t] ∧ Stmt.Congruent Name Mark Exprs Stmts Bodies braces s t
  unfold_bodies : ∀ b b', Bodies b b' → Stmt.Aligned Stmts Bodies b b'

end LoxLang
