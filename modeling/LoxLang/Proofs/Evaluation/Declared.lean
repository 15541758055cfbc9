import LoxLang.Proofs.Store.Rebinding

set_option autoImplicit false

/-!
# The names that a statement declares

What a statement declares can be read off its text. Only these names are bound in the scope at hand
by executing it, and so the body of a function binds nothing but its own names in any of the scopes
that are between it and the scope of its function value.

## Main definitions

* `Stmt.declared`, `Stmt.declaredIn` — the names that statements declare.
* `Closure.ownNames` — the names of a function's own: its parameters, and what its body declares.
* `Run.Gains` — scopes come to bind no names but some.

## Main results

* `gains_execute` — a statement binds names in the scope at hand that it declares only.
-/

namespace LoxLang

namespace Stmt

mutual

/-- The names that a statement declares, at any place in it but in the bodies of functions. -/
def declared : Stmt → List String
  | .expression _ | .print _ | .return _ _ => []
  | .var name _ | .function name _ _ => [name.lexeme]
  | .block body => declaredIn body
  | .branch _ whenTrue none => whenTrue.declared
  | .branch _ whenTrue (some whenFalse) => whenTrue.declared ++ whenFalse.declared
  | .loop _ body => body.declared

/-- The names that statements in slots declare. -/
def declaredIn : List (Option Stmt) → List String
  | [] => []
  | none :: rest => declaredIn rest
  | some statement :: rest => statement.declared ++ declaredIn rest

end

end Stmt

/-- The names of a function's own: its parameters, and what its body declares. -/
def Closure.ownNames (f : Closure) : List String :=
  f.parameters.map Token.lexeme ++ Stmt.declaredIn f.body

namespace Run

variable {α β : Type} {names more : Set String} {x : Run α}

/-- However a run ends, no scope is gone, and none came to bind a name that is not among some. -/
def Gains (names : Set String) (x : Run α) : Prop :=
  ∀ m : Machine, m.store.Gains names (x.left m).store

namespace Gains

lemma mono (h : x.Gains names) (hsub : names ⊆ more) : x.Gains more := fun m => (h m).mono hsub

/-- One run after another. -/
lemma bind {k : α → Run β} (hx : x.Gains names) (hk : ∀ a, (k a).Gains names) :
    (x >>= k).Gains names := by
  intro m
  rw [left_bind]
  have hm := hx m
  cases hr : x m with
  | ok a n =>
    rw [left_of_ok hr] at hm
    exact hm.trans (hk a n)
  | error halt n =>
    rw [left_of_error hr] at hm
    exact hm

end Gains

/-- Where names are kept no name is gained. -/
lemma KeepsNames.gains (h : x.KeepsNames ∅) (names : Set String) : x.Gains names :=
  fun m => (h m).gains names

lemma gains_pure (names : Set String) (a : α) : (pure a : Run α).Gains names :=
  (keepsNames_pure ∅ a).gains names

lemma gains_declare (name : Token) (scope : ScopeId) (v : Value) :
    (declare name scope v).Gains {name.lexeme} :=
  fun _ => Store.gains_define scope name.lexeme v

/-- Binding parameters gains their names. -/
lemma gains_declareAll (scope : ScopeId) (parameters : List Token) (values : List Value) :
    (declareAll scope parameters values).Gains { name | name ∈ parameters.map Token.lexeme } := by
  induction parameters generalizing values with
  | nil => exact gains_pure _ ()
  | cons parameter parameters ih =>
    cases values with
    | nil => exact gains_pure _ ()
    | cons v values =>
      refine ((gains_declare parameter scope v).mono ?_).bind fun _ => (ih values).mono ?_
      · rintro _ rfl
        exact List.mem_cons_self
      · exact fun name hname => List.mem_cons_of_mem _ hname

lemma gains_iterate {condition : Run Value} {body : Run Completion}
    (hcondition : condition.Gains names) (hbody : body.Gains names) (rounds : Nat) :
    (iterate condition body rounds).Gains names := by
  induction rounds with
  | zero => exact (keepsNames_throw ∅ _).gains names
  | succ rounds ih =>
    refine hcondition.bind fun v => ?_
    split
    · refine hbody.bind fun completion => ?_
      cases completion with
      | normal => exact ih
      | returned v keyword => exact gains_pure names _
    · exact gains_pure names _

end Run

open Run

/-- **A statement binds names in the scope at hand that it declares only**, whatever the machine and
however the run ends.

**Proof sketch.** Induction on the depth. Only a branch and the body of a loop are executed in the
scope at hand itself, and what these declare the statement declares. -/
theorem gains_execute (rounds depth : Nat) (scope : ScopeId) (s : Stmt) :
    (execute rounds depth scope s).Gains { name | name ∈ s.declared } := by
  induction depth generalizing s with
  | zero => exact (keepsNames_throw ∅ _).gains _
  | succ depth ih =>
    obtain ⟨he, hs⟩ := keepsNamesAt rounds depth
    cases s with
    | expression value =>
      exact ((he scope value).bind fun _ => keepsNames_pure ∅ _).gains _
    | print value =>
      refine ((he scope value).gains _).bind fun v => .bind ?_ fun _ => gains_pure _ _
      exact KeepsNames.gains (.of_store_eq fun _ => rfl) _
    | var name initial =>
      have hdeclare : ∀ v, (declare name scope v).Gains { n | n ∈ (Stmt.var name initial).declared } :=
        fun v => (gains_declare name scope v).mono (by simp [Stmt.declared])
      cases initial with
      | none => exact (hdeclare .nil).bind fun _ => gains_pure _ _
      | some initial =>
        refine ((he scope initial).gains _).bind fun v => ?_
        exact (hdeclare v).bind fun _ => gains_pure _ _
    | block body =>
      have hbody : (execute rounds (depth + 1) scope (.block body)).KeepsNames ∅ :=
        .opened scope fun inner => keepsNames_sequence fun s _ => hs inner s
      exact hbody.gains _
    | branch condition whenTrue whenFalse =>
      refine ((he scope condition).gains _).bind fun v => ?_
      cases whenFalse with
      | none =>
        split
        · exact (ih whenTrue).mono fun name hname => by simpa [Stmt.declared] using hname
        · exact gains_pure _ _
      | some whenFalse =>
        split
        · exact (ih whenTrue).mono fun name hname => by simp_all [Stmt.declared]
        · exact (ih whenFalse).mono fun name hname => by simp_all [Stmt.declared]
    | loop condition body =>
      have hloop : (iterate (evaluate rounds depth scope condition) (execute rounds depth scope body)
          rounds).Gains { name | name ∈ body.declared } :=
        gains_iterate ((he scope condition).gains _) (ih body) rounds
      exact hloop.mono fun name hname => by simpa [Stmt.declared] using hname
    | function name parameters body =>
      refine .bind (KeepsNames.gains (.of_store_eq fun _ => rfl) _) fun v => ?_
      refine .bind ?_ fun _ => gains_pure _ _
      exact (gains_declare name scope v).mono (by simp [Stmt.declared])
    | «return» keyword value =>
      cases value with
      | none => exact gains_pure _ _
      | some value => exact ((he scope value).bind fun _ => keepsNames_pure ∅ _).gains _

end LoxLang
