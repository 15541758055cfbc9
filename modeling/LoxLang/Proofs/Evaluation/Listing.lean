import LoxLang.Proofs.Evaluation.Steps

set_option autoImplicit false

/-!
# Lists along a run

What happens in a run can be listed in the order of time, whatever the entries of the list are. Given
the entries of each expression and of each statement, those of a row of them and of a loop follow. A
run that is halted has no entries behind the halt.

## Main definitions

* `Run.listing` — the entries of a run and of what follows it.
* `Run.listAll`, `Run.listSequence`, `Run.listIterate` — the entries of expressions and of statements
  in a row, and of a loop.

## Main results

* `Run.listing_nil` — what follows without an entry adds none.
* `Run.listSequence_singleton` — a statement by itself has the entries of a statement in a row.
-/

namespace LoxLang.Run

variable {ε : Type}

/-- The entries from within a run, and from what follows it if it is not halted. -/
def listing {α : Type} (x : Run α) (within : Machine → List ε) (follow : α → Machine → List ε)
    (m : Machine) : List ε :=
  within m ++
    match x m with
    | .ok value n => follow value n
    | .error _ _ => []

/-- What follows without an entry adds none. -/
lemma listing_nil {α : Type} (x : Run α) (within : Machine → List ε) :
    x.listing within (fun _ _ => []) = within := by
  funext m
  unfold listing
  cases x m <;> simp

/-- The entries while expressions are evaluated from left to right. -/
def listAll (evaluate : Expr → Run Value) (entries : Expr → Machine → List ε) :
    List Expr → Machine → List ε
  | [] => fun _ => []
  | e :: rest => (evaluate e).listing (entries e) fun _ => listAll evaluate entries rest

/-- The entries while statements in slots are executed, up to the first return. -/
def listSequence (execute : Stmt → Run Completion) (entries : Stmt → Machine → List ε) :
    Slots → Machine → List ε
  | [] => fun _ => []
  | none :: rest => listSequence execute entries rest
  | some statement :: rest =>
    (execute statement).listing (entries statement) fun completion =>
      match completion with
      | .normal => listSequence execute entries rest
      | .returned _ _ => fun _ => []

/-- The entries while a loop goes round. -/
def listIterate (condition : Run Value) (body : Run Completion)
    (inCondition inBody : Machine → List ε) : Nat → Machine → List ε
  | 0 => fun _ => []
  | rounds + 1 =>
    condition.listing inCondition fun value =>
      if value.truthy then
        body.listing inBody fun completion =>
          match completion with
          | .normal => listIterate condition body inCondition inBody rounds
          | .returned _ _ => fun _ => []
      else fun _ => []

variable {execute : Stmt → Run Completion} {s : Stmt}

/-- Nothing is listed after a statement that never completes normally. -/
lemma listSequence_of_ne_normal (h : ∀ m n, execute s m ≠ .ok .normal n)
    (entries : Stmt → Machine → List ε) (rest : Slots) :
    listSequence execute entries (some s :: rest) = entries s := by
  funext m
  rw [listSequence, listing]
  cases hr : execute s m with
  | error => simp
  | ok completion n =>
    cases completion with
    | normal => exact absurd hr (h m n)
    | returned => simp

/-- A statement by itself has the entries of a statement in a row. -/
lemma listSequence_singleton (execute : Stmt → Run Completion)
    (entries : Stmt → Machine → List ε) (s : Stmt) :
    listSequence execute entries [some s] = entries s := by
  funext m
  rw [listSequence, listing]
  cases execute s m with
  | error => simp
  | ok completion n => cases completion <;> simp [listSequence]

end LoxLang.Run
