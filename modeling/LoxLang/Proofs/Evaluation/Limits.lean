import LoxLang.Proofs.Evaluation.Steps

set_option autoImplicit false

/-!
# Limits only cut runs short

A run with less room for nesting and for rounds goes like one with more room, up to the place where
it is given up because of a limit. Nothing that follows takes back what was printed until then.

## Main definitions

* `Limits.Within` — limits that are no wider than others.
* `Halt.IsLimit` — a run is given up because of a limit.
* `Run.Grows` — what was printed before a run stays printed.
* `Run.Below` — a run goes like another one, or it is cut short.

## Main results

* `Run.Below.bind` — runs one after the other are cut short together.
* `belowAt` — evaluation at a smaller depth goes like evaluation at a greater one.
* `Machine.interpret_within` — the run of a program under limits that are no wider.
-/

namespace LoxLang

/-- Limits that are no wider than others. -/
structure Limits.Within (limits wider : Limits) : Prop where
  reading : limits.reading ≤ wider.reading
  depth : limits.depth ≤ wider.depth
  rounds : limits.rounds ≤ wider.rounds

/-- A run is given up because of a limit, and not because of a fault. -/
def Halt.IsLimit : Halt → Prop
  | .fault _ => False
  | .tooDeep | .tooLong => True

/-- What one machine printed, the other printed to begin with. -/
def Machine.PrintsBefore (m n : Machine) : Prop := m.output.toList <+: n.output.toList

namespace Machine.PrintsBefore

variable {m n k : Machine}

lemma refl (m : Machine) : m.PrintsBefore m := List.prefix_rfl

lemma trans (h : m.PrintsBefore n) (h' : n.PrintsBefore k) : m.PrintsBefore k :=
  List.IsPrefix.trans h h'

end Machine.PrintsBefore

namespace Run

variable {α β : Type}

/-- What was printed before a run stays printed. -/
def Grows (x : Run α) : Prop := ∀ m : Machine, m.PrintsBefore (x.left m)

/-- A run goes like another one, or it is cut short by a limit when it has printed the beginning of
what the other one prints. -/
structure Below (x y : Run α) : Prop where
  grows : y.Grows
  agrees : ∀ m, x m = y m ∨
    ∃ halt n, x m = .error halt n ∧ halt.IsLimit ∧ n.PrintsBefore (y.left m)

lemma Grows.bind {x : Run α} {f : α → Run β} (hx : x.Grows) (hf : ∀ a, (f a).Grows) :
    (x >>= f).Grows := by
  intro m
  have hm := hx m
  rw [left_bind]
  cases hr : x m with
  | ok a n =>
    rw [left_of_ok hr] at hm
    exact hm.trans (hf a n)
  | error halt n =>
    rw [left_of_error hr] at hm
    exact hm

/-! ## The steps -/

lemma grows_pure (a : α) : (pure a : Run α).Grows := fun m => .refl m

lemma grows_throw (halt : Halt) : (throw halt : Run α).Grows := fun m => .refl m

namespace Below

variable {x y : Run α}

/-- A run that takes nothing back goes like itself. -/
lemma of_grows (h : x.Grows) : x.Below x := ⟨h, fun _ => .inl rfl⟩

lemma pure (a : α) : (pure a : Run α).Below (pure a) := of_grows (grows_pure a)

lemma fault (token : Token) (cause : RuntimeFault.Cause) :
    (fault token cause : Run α).Below (fault token cause) := of_grows (grows_throw _)

lemma ofExcept (token : Token) (result : Except RuntimeFault.Cause α) :
    (ofExcept token result).Below (ofExcept token result) := by
  cases result with
  | ok value => exact .pure value
  | error cause => exact .fault token cause

/-- A run that is cut short at once is below any that takes nothing back. -/
lemma cut {halt : Halt} (h : halt.IsLimit) (hy : y.Grows) : (throw halt : Run α).Below y :=
  ⟨hy, fun m => .inr ⟨halt, m, rfl, h, hy m⟩⟩

/-- **Runs one after the other are cut short together.** If the first is cut short, the second one
can only add to what the first would print. -/
theorem bind {f g : α → Run β} (h : x.Below y) (hf : ∀ a, (f a).Below (g a)) :
    (x >>= f).Below (y >>= g) := by
  have hgrows : (y >>= g).Grows := h.grows.bind fun a => (hf a).grows
  refine ⟨hgrows, fun m => ?_⟩
  rw [bind_apply, bind_apply, left_bind]
  rcases h.agrees m with hxy | ⟨halt, n, hx, hlimit, hprints⟩
  · rw [hxy]
    cases y m with
    | ok a n => exact (hf a).agrees n
    | error halt n => exact .inl rfl
  · refine .inr ⟨halt, n, by rw [hx], hlimit, ?_⟩
    cases hy : y m with
    | ok a k =>
      rw [left_of_ok hy] at hprints
      exact hprints.trans ((hf a).grows k)
    | error halt k =>
      rwa [left_of_error hy] at hprints

lemma lookUp (name : Token) (scope : ScopeId) :
    (lookUp name scope).Below (lookUp name scope) := by
  refine of_grows fun m => ?_
  simp only [left, lookUp_apply]
  cases m.store.get? scope name.lexeme <;> exact .refl m

lemma assign (name : Token) (scope : ScopeId) (value : Value) :
    (assign name scope value).Below (assign name scope value) := by
  refine of_grows fun m => ?_
  simp only [left, assign_apply]
  cases m.store.resolve? name.lexeme scope <;> exact .refl m

lemma declare (name : Token) (scope : ScopeId) (value : Value) :
    (declare name scope value).Below (declare name scope value) :=
  of_grows fun m => .refl m

lemma declareAll (scope : ScopeId) (names : List Token) (values : List Value) :
    (declareAll scope names values).Below (declareAll scope names values) := by
  induction names generalizing values with
  | nil => exact .pure ()
  | cons name names ih =>
    cases values with
    | nil => exact .pure ()
    | cons value values => exact (declare name scope value).bind fun _ => ih values

lemma openScope (parent : ScopeId) : (openScope parent).Below (openScope parent) :=
  of_grows fun m => .refl m

lemma print (text : String) : (print text).Below (print text) := by
  refine of_grows fun m => ?_
  simp [left, Machine.PrintsBefore]

lemma close (name : Token) (parameters : List Token) (body : Slots) (scope : ScopeId) :
    (close name parameters body scope).Below (close name parameters body scope) :=
  of_grows fun m => .refl m

lemma callNative (f : Native) : (callNative f).Below (callNative f) := by
  cases f with
  | clock => exact of_grows fun m => .refl m

/-! ## Loops and calls -/

/-- Expressions are cut short together. -/
lemma all {x y : Expr → Run Value} (h : ∀ e, (x e).Below (y e)) (es : List Expr) :
    (all x es).Below (all y es) := by
  suffices honto : ∀ values, (allOnto x values es).Below (allOnto y values es) from honto []
  induction es with
  | nil => exact fun values => .pure _
  | cons e es ih => exact fun values => (h e).bind fun value => ih (value :: values)

/-- Statements are cut short together. -/
lemma sequence {x y : Stmt → Run Completion} (h : ∀ s, (x s).Below (y s)) (body : Slots) :
    (sequence x body).Below (sequence y body) := by
  induction body with
  | nil => exact .pure _
  | cons slot rest ih =>
    cases slot with
    | none => exact ih
    | some s =>
      refine (h s).bind fun completion => ?_
      cases completion with
      | normal => exact ih
      | returned value keyword => exact .pure _

/-- A loop that may go round less often is cut short.

**Proof sketch.** Induction on the rounds of the longer loop. Where the shorter one has none left, it
is enough that the longer one takes nothing back, as it is below itself. -/
lemma iterate {x x' : Run Value} {y y' : Run Completion} (hx : x.Below x') (hy : y.Below y')
    {rounds more : Nat} (hr : rounds ≤ more) :
    (iterate x y rounds).Below (iterate x' y' more) := by
  have hround : ∀ {r r' : Nat}, (Run.iterate x y r).Below (Run.iterate x' y' r') →
      (Run.iterate x y (r + 1)).Below (Run.iterate x' y' (r' + 1)) := by
    intro r r' hrest
    refine hx.bind fun value => ?_
    split
    · refine hy.bind fun completion => ?_
      cases completion with
      | normal => exact hrest
      | returned value keyword => exact .pure _
    · exact .pure _
  induction more generalizing rounds with
  | zero =>
    obtain rfl : rounds = 0 := by omega
    exact of_grows (grows_throw _)
  | succ more ih =>
    cases rounds with
    | zero => exact .cut trivial (hround (ih (Nat.le_refl more))).grows
    | succ rounds => exact hround (ih (by omega))

/-- A call is cut short with its statements. -/
lemma call {x y : ScopeId → Stmt → Run Completion} (h : ∀ scope s, (x scope s).Below (y scope s))
    (callee : Value) (paren : Token) (arguments : List Value) :
    (call x callee paren arguments).Below (call y callee paren arguments) := by
  cases callee with
  | closure c =>
    rw [call_closure, call_closure]
    split
    · refine (openScope _).bind fun scope => (declareAll scope _ _).bind fun _ => ?_
      exact (sequence (h scope) c.body).bind fun _ => .pure _
    · exact .fault paren _
  | native n =>
    rw [call_native, call_native]
    split
    · exact .callNative n
    · exact .fault paren _
  | nil | bool | number | string => exact .fault paren _

end Below

end Run

/-! ## Evaluation with less room -/

open Run

section Evaluation

variable {rounds more depth deeper : Nat}

/-- Evaluation with fewer rounds at one depth goes like evaluation with more rounds at another. -/
def BelowAt (rounds more depth deeper : Nat) : Prop :=
  (∀ scope e, (evaluate rounds depth scope e).Below (evaluate more deeper scope e)) ∧
  (∀ scope s, (execute rounds depth scope s).Below (execute more deeper scope s))

lemma below_evaluate_succ (h : BelowAt rounds more depth deeper) (scope : ScopeId) (e : Expr) :
    (evaluate rounds (depth + 1) scope e).Below (evaluate more (deeper + 1) scope e) := by
  obtain ⟨he, hs⟩ := h
  cases e with
  | literal value => exact .pure _
  | grouping inner => exact he scope inner
  | «variable» name => exact .lookUp name scope
  | assign name value =>
    exact (he scope value).bind fun v => (Below.assign name scope v).bind fun _ => .pure v
  | unary operator operand => exact (he scope operand).bind fun v => .ofExcept operator _
  | binary left operator right =>
    exact (he scope left).bind fun v => (he scope right).bind fun w => .ofExcept operator _
  | logical left operator right =>
    refine (he scope left).bind fun v => ?_
    split
    · exact .pure v
    · exact he scope right
  | call callee paren arguments =>
    refine (he scope callee).bind fun v => ?_
    exact (Below.all (he scope) arguments).bind fun vs => .call hs v paren vs

lemma below_execute_succ (hr : rounds ≤ more) (h : BelowAt rounds more depth deeper)
    (scope : ScopeId) (s : Stmt) :
    (execute rounds (depth + 1) scope s).Below (execute more (deeper + 1) scope s) := by
  obtain ⟨he, hs⟩ := h
  cases s with
  | expression value => exact (he scope value).bind fun _ => .pure _
  | print value => exact (he scope value).bind fun v => (Below.print _).bind fun _ => .pure _
  | var name initial =>
    cases initial with
    | none => exact (Below.declare name scope .nil).bind fun _ => .pure _
    | some initial =>
      exact (he scope initial).bind fun v => (Below.declare name scope v).bind fun _ => .pure _
  | block body => exact (Below.openScope scope).bind fun inner => .sequence (hs inner) body
  | branch condition whenTrue whenFalse =>
    refine (he scope condition).bind fun v => ?_
    split
    · exact hs scope whenTrue
    · cases whenFalse with
      | none => exact .pure _
      | some whenFalse => exact hs scope whenFalse
  | loop condition body => exact .iterate (he scope condition) (hs scope body) hr
  | function name parameters body =>
    exact (Below.close name parameters body scope).bind fun v =>
      (Below.declare name scope v).bind fun _ => .pure _
  | «return» keyword value =>
    cases value with
    | none => exact .pure _
    | some value => exact (he scope value).bind fun _ => .pure _

/-- **Evaluation with less room goes like evaluation with more**, or it is cut short.

**Proof sketch.** Induction on the greater depth: each kind of expression and statement is made of
steps that are the same and of evaluation at a smaller depth. Where the smaller depth is used up, it
is enough that evaluation with more room takes nothing back, as it is below itself. -/
theorem belowAt (hr : rounds ≤ more) (hd : depth ≤ deeper) : BelowAt rounds more depth deeper := by
  induction deeper generalizing rounds depth with
  | zero =>
    obtain rfl : depth = 0 := by omega
    exact ⟨fun _ _ => .of_grows (grows_throw _), fun _ _ => .of_grows (grows_throw _)⟩
  | succ deeper ih =>
    cases depth with
    | zero =>
      have hself : BelowAt more more deeper deeper := ih (Nat.le_refl more) (Nat.le_refl deeper)
      exact ⟨fun scope e => .cut trivial (below_evaluate_succ hself scope e).grows,
        fun scope s => .cut trivial (below_execute_succ (Nat.le_refl more) hself scope s).grows⟩
    | succ depth =>
      have hless : BelowAt rounds more depth deeper := ih hr (by omega)
      exact ⟨below_evaluate_succ hless, below_execute_succ hr hless⟩

end Evaluation

/-- **The run of a program under limits that are no wider** is the same, or a limit cuts it short
when it has printed the beginning of what the program prints under the wider ones. -/
theorem Machine.interpret_within {limits wider : Limits} (h : limits.Within wider) (program : Slots)
    (m : Machine) :
    m.interpret limits program = m.interpret wider program ∨
      ((m.interpret limits program).2 = .tooDeep ∨ (m.interpret limits program).2 = .tooLong) ∧
        (m.interpret limits program).1.PrintsBefore (m.interpret wider program).1 := by
  have hbelow := Below.sequence ((belowAt h.rounds h.depth).2 Store.root) program
  rcases hbelow.agrees m with heq | ⟨halt, n, hrun, hlimit, hprints⟩
  · left
    simp only [interpret, heq]
  · right
    rw [interpret_fst wider]
    cases halt with
    | fault => exact absurd hlimit id
    | tooDeep | tooLong =>
      simp only [interpret, hrun]
      exact ⟨by simp, hprints⟩

end LoxLang
