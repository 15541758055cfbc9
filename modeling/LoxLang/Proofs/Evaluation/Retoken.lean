import LoxLang.Proofs.Evaluation.Printed
import LoxLang.Proofs.Syntax.Retoken

set_option autoImplicit false

/-!
# Runs with other names and marks

A run compares names with each other, and of marks it looks at the kind; nothing else is done with
tokens but to keep them. So if names are changed so that different ones stay different, and marks so
that their kinds and lexemes stay, a run goes as before, with the tokens in all that it keeps changed
as well. It prints the same values, changed so, whatever was printed before.

## Main definitions

* `Retokening` — a change of names and marks that makes no difference to a run.
* `Value.retoken`, `Store.retoken`, `Machine.retoken`, `Ending.retoken` — with names and marks changed.
* `Run.Echoes` — a run does what another does, with names and marks changed.

## Main results

* `echoesAt` — evaluation echoes itself.
* `Machine.interpret_retoken` — the run of a program with names and marks changed.
* `Machine.output_interpret` — the output of a program is what it prints, behind what was there.
-/

namespace LoxLang

/-- A change of names and marks. Names are changed by their lexemes, different ones stay different,
and marks keep kind and lexeme. -/
structure Retokening where
  name : Token → Token
  mark : Token → Token
  word : String → String
  lexeme_name : ∀ t, (name t).lexeme = word t.lexeme
  kind_mark : ∀ t, (mark t).kind = t.kind
  lexeme_mark : ∀ t, (mark t).lexeme = t.lexeme
  injective : ∀ {v w}, word v = word w → v = w

namespace Retokening

/-- The change that leaves all as it is. -/
def refl : Retokening where
  name := id
  mark := id
  word := id
  lexeme_name _ := rfl
  kind_mark _ := rfl
  lexeme_mark _ := rfl
  injective h := h

variable (r : Retokening)

attribute [simp] lexeme_name kind_mark lexeme_mark

/-- Names are the same with their lexemes changed exactly if they are the same. -/
@[simp] lemma word_beq (v w : String) : (r.word v == r.word w) = (v == w) := by
  rw [Bool.eq_iff_iff, beq_iff_eq, beq_iff_eq]
  exact ⟨r.injective, congrArg r.word⟩

end Retokening

/-! ## What is kept, with names and marks changed -/

section Changes

variable (r : Retokening)

/-- A function value with names and marks changed. -/
def Closure.retoken (c : Closure) : Closure where
  identity := c.identity
  name := r.name c.name
  parameters := c.parameters.map r.name
  body := Stmt.retokenSlots r.name r.mark c.body
  scope := c.scope

/-- A value with names and marks changed. -/
def Value.retoken : Value → Value
  | .closure c => .closure (c.retoken r)
  | v => v

/-- A scope with names and marks changed. -/
def Scope.retoken (s : Scope) : Scope where
  parent := s.parent
  bindings := s.bindings.map fun b => (r.word b.1, b.2.retoken r)

/-- A store with names and marks changed. -/
def Store.retoken (s : Store) : Store := ⟨s.scopes.map (Scope.retoken r)⟩

/-- A machine with names and marks changed, and with other output. -/
def Machine.retoken (output : Array String) (m : Machine) : Machine where
  store := m.store.retoken r
  nextIdentity := m.nextIdentity
  output := output
  clock := m.clock

/-- A fault with names and marks changed. The token of an undefined variable is a name, and any other
is a mark. -/
def RuntimeFault.retoken : RuntimeFault → RuntimeFault
  | ⟨.undefinedVariable n, token⟩ => ⟨.undefinedVariable (r.word n), r.name token⟩
  | ⟨cause, token⟩ => ⟨cause, r.mark token⟩

/-- A halt with names and marks changed. -/
def Halt.retoken : Halt → Halt
  | .fault f => .fault (f.retoken r)
  | halt => halt

/-- A completion with names and marks changed. -/
def Completion.retoken : Completion → Completion
  | .normal => .normal
  | .returned value keyword => .returned (value.retoken r) (r.mark keyword)

/-- The ending of a run with names and marks changed. -/
def Ending.retoken : Ending → Ending
  | .faulted f => .faulted (f.retoken r)
  | ending => ending

/-- What is printed for values with names and marks changed. -/
def Retokening.shown (values : List Value) : Array String :=
  (values.map fun v => (v.retoken r).display).toArray

@[simp] lemma Retokening.shown_append (vs ws : List Value) :
    r.shown (vs ++ ws) = r.shown vs ++ r.shown ws := by
  simp [shown]

end Changes

/-! ### Changing nothing -/

@[simp] lemma Value.retoken_refl : Value.retoken .refl = id := by
  funext v
  cases v with
  | closure c =>
    simp [retoken, Closure.retoken, Retokening.refl, Stmt.retokenSlots_self, Stmt.mapSlots_id]
  | _ => rfl

@[simp] lemma Scope.retoken_refl : Scope.retoken .refl = id := by
  funext s
  simp only [retoken, Value.retoken_refl]
  simp [Retokening.refl]

@[simp] lemma Machine.retoken_refl (m : Machine) : m.retoken .refl m.output = m := by
  simp [retoken, Store.retoken]

lemma Machine.output_retoken (r : Retokening) (output : Array String) (m : Machine) :
    (m.retoken r output).output = output := rfl

/-! ## Values and stores with names and marks changed -/

namespace Value

variable (r : Retokening)

@[simp] lemma retoken_ofLiteral (v : Literal) : (Value.ofLiteral v).retoken r = .ofLiteral v := by
  cases v <;> rfl

@[simp] lemma truthy_retoken (v : Value) : (v.retoken r).truthy = v.truthy := by cases v <;> rfl

@[simp] lemma equals_retoken (v w : Value) : (v.retoken r).equals (w.retoken r) = v.equals w := by
  cases v <;> cases w <;> rfl

@[simp] lemma settles_retoken (operator : Token) (v : Value) :
    (v.retoken r).settles (r.mark operator).kind = v.settles operator.kind := by
  simp [settles]

/-- An operator in front of a value does the same. -/
lemma unary_retoken (operator : Token.Kind) (v : Value) :
    (v.retoken r).unary operator = (v.unary operator).map (retoken r) := by
  cases v <;> cases operator <;> rfl

/-- An operator between two values does the same. -/
lemma binary_retoken (operator : Token) (v w : Value) :
    binary (r.mark operator) (v.retoken r) (w.retoken r) =
      (binary operator v w).map (retoken r) := by
  have harithmetic : ∀ x y, arithmetic (r.mark operator) x y =
      (arithmetic operator x y).map (retoken r) := by
    intro x y
    simp only [arithmetic, Retokening.kind_mark, Retokening.lexeme_mark]
    split <;> rfl
  have hsum : sum (v.retoken r) (w.retoken r) = (sum v w).map (retoken r) := by
    cases v <;> cases w <;> rfl
  unfold binary
  simp only [Retokening.kind_mark, equals_retoken, hsum]
  split
  · rfl
  · rfl
  · rfl
  · cases v <;> cases w <;> first | exact harithmetic _ _ | rfl

/-- An operator in front of a value misses no variable. -/
lemma unary_ne_undefined (operator : Token.Kind) (v : Value) (name : String) :
    v.unary operator ≠ .error (.undefinedVariable name) := by
  unfold unary
  split <;> simp

/-- An operator between two values misses no variable. -/
lemma binary_ne_undefined (operator : Token) (v w : Value) (name : String) :
    binary operator v w ≠ .error (.undefinedVariable name) := by
  unfold binary sum arithmetic
  repeat' split
  all_goals simp

end Value

namespace Scope

variable (r : Retokening) (s : Scope) (name : String)

@[simp] lemma parent_retoken : (s.retoken r).parent = s.parent := rfl

@[simp] lemma binds_retoken : (s.retoken r).binds (r.word name) = s.binds name := by
  simp [binds, retoken, List.any_map, Function.comp_def]

@[simp] lemma get?_retoken :
    (s.retoken r).get? (r.word name) = (s.get? name).map (Value.retoken r) := by
  unfold get? retoken
  dsimp only
  induction s.bindings with
  | nil => rfl
  | cons b rest ih =>
    obtain ⟨n, v⟩ := b
    simp only [List.map_cons, List.lookup_cons, ih, Retokening.word_beq]
    cases name == n <;> rfl

lemma define_retoken (value : Value) :
    (s.retoken r).define (r.word name) (value.retoken r) = (s.define name value).retoken r := by
  have hbind : ∀ bindings : List (String × Value),
      bind (r.word name) (value.retoken r)
          (bindings.map fun b => (r.word b.1, b.2.retoken r)) =
        (bind name value bindings).map fun b => (r.word b.1, b.2.retoken r) := by
    intro bindings
    induction bindings with
    | nil => rfl
    | cons b rest ih =>
      obtain ⟨n, v⟩ := b
      simp only [List.map_cons, bind, Retokening.word_beq]
      split
      · rfl
      · rw [ih, List.map_cons]
  simp [define, retoken, hbind]

end Scope

namespace Store

variable (r : Retokening) (s : Store) (name : String) (scope : ScopeId)

lemma getElem?_retoken (i : Nat) :
    (s.retoken r).scopes[i]? = s.scopes[i]?.map (Scope.retoken r) := by
  simp [retoken]

@[simp] lemma resolve?_retoken :
    (s.retoken r).resolve? (r.word name) scope = s.resolve? name scope := by
  fun_induction s.resolve? name scope with
  | case1 scope h => rw [resolve?, getElem?_retoken, h]; rfl
  | case2 scope here h hb => rw [resolve?, getElem?_retoken, h]; simp [hb]
  | case3 scope here h hb hp => rw [resolve?, getElem?_retoken, h]; simp [hb, hp]
  | case4 scope here h hb parent hp hlt ih =>
    rw [resolve?, getElem?_retoken, h]
    simp [hb, hp, hlt, ih]
  | case5 scope here h hb parent hp hlt =>
    rw [resolve?, getElem?_retoken, h]
    simp [hb, hp, hlt]

@[simp] lemma get?_retoken :
    (s.retoken r).get? scope (r.word name) = (s.get? scope name).map (Value.retoken r) := by
  unfold get?
  rw [resolve?_retoken]
  cases s.resolve? name scope with
  | none => rfl
  | some place =>
    simp only [Option.bind_eq_bind, Option.bind_some, getElem?_retoken]
    cases s.scopes[place]? <;> simp

lemma define_retoken (value : Value) :
    (s.retoken r).define scope (r.word name) (value.retoken r) =
      (s.define scope name value).retoken r := by
  have hscopes : (s.scopes.map (Scope.retoken r)).modify scope
      (·.define (r.word name) (value.retoken r)) =
        (s.scopes.modify scope (·.define name value)).map (Scope.retoken r) := by
    apply Array.ext_getElem?
    intro i
    simp only [Array.getElem?_modify, Array.getElem?_map]
    split
    · cases s.scopes[i]? <;> simp [Scope.define_retoken]
    · rfl
  exact congrArg Store.mk hscopes

lemma child_retoken : (s.retoken r).child scope = (s.child scope).retoken r := by
  simp [child, retoken, Scope.retoken]

@[simp] lemma next_retoken : (s.retoken r).next = s.next := by
  simp [next, retoken]

end Store

/-- The globals of a machine with names and marks changed. -/
lemma Machine.globals_retoken (r : Retokening) (output : Array String) (m : Machine) :
    (m.retoken r output).globals = m.globals.map fun b => (r.word b.1, b.2.retoken r) := by
  unfold globals
  have hroot := Store.getElem?_retoken r m.store Store.root
  simp only [retoken, hroot]
  cases m.store.scopes[Store.root]? <;> rfl

/-! ## Runs that echo others -/

namespace Run

/-- What a run comes to, with names and marks changed and with other output. -/
def retokened {α : Type} (r : Retokening) (φ : α → α) (output : Array String) :
    EStateM.Result Halt Machine α → EStateM.Result Halt Machine α
  | .ok value m => .ok (φ value) (m.retoken r output)
  | .error halt m => .error (halt.retoken r) (m.retoken r output)

/-- A run does what another does, with names and marks changed. Its value changes by a function, and
whatever was printed before, it prints the values that the other prints, changed so. -/
def Echoes {α : Type} (r : Retokening) (φ : α → α) (printed : Machine → List Value)
    (x y : Run α) : Prop :=
  ∀ m before, y (m.retoken r before) = retokened r φ (before ++ r.shown (printed m)) (x m)

section Steps

variable {α β : Type} {r : Retokening} {φ : α → α} {ψ : β → β} {printed : Machine → List Value}
  {x y : Run α}

/-- A run that prints nothing. -/
lemma echoes_of_silent (h : ∀ m before, y (m.retoken r before) = retokened r φ before (x m)) :
    Echoes r φ (fun _ => []) x y := by
  intro m before
  rw [h m before]
  simp [Retokening.shown]

lemma echoes_pure {a b : α} (h : b = φ a) : Echoes r φ (fun _ => []) (pure a) (pure b) := by
  subst h
  exact echoes_of_silent fun _ _ => rfl

lemma echoes_throw {halt halt' : Halt} (h : halt' = halt.retoken r) :
    Echoes r φ (fun _ => []) (throw halt) (throw halt') := by
  subst h
  exact echoes_of_silent fun _ _ => rfl

namespace Echoes

/-- **Runs one after the other echo each other** if each of them does. -/
lemma bind {k l : α → Run β} {follow : α → Machine → List Value} (hx : Echoes r φ printed x y)
    (hk : ∀ a, Echoes r ψ (follow a) (k a) (l (φ a))) :
    Echoes r ψ (x.listing printed follow) (x >>= k) (y >>= l) := by
  intro m before
  rw [bind_apply, bind_apply, hx m before, listing]
  cases x m with
  | ok a n =>
    simp only [Retokening.shown_append, ← Array.append_assoc]
    exact hk a n _
  | error halt n =>
    rw [List.append_nil]
    rfl

/-- Runs one after the other, of which the second prints nothing. -/
lemma bind_silent {k l : α → Run β} (hx : Echoes r φ printed x y)
    (hk : ∀ a, Echoes r ψ (fun _ => []) (k a) (l (φ a))) :
    Echoes r ψ printed (x >>= k) (y >>= l) := by
  have h := hx.bind hk
  rwa [listing_nil] at h

end Echoes

lemma echoes_fault {token token' : Token} {cause cause' : RuntimeFault.Cause}
    (h : ⟨cause', token'⟩ = RuntimeFault.retoken r ⟨cause, token⟩) :
    Echoes r φ (fun _ => []) (fault token cause) (fault token' cause') :=
  echoes_throw (congrArg Halt.fault h)

/-- What goes on or gives up for a reason that names no variable does so alike. -/
lemma echoes_ofExcept (token : Token) {result : Except RuntimeFault.Cause α}
    (h : ∀ name, result ≠ .error (.undefinedVariable name)) :
    Echoes r φ (fun _ => []) (ofExcept token result) (ofExcept (r.mark token) (result.map φ)) := by
  cases result with
  | ok value => exact echoes_pure rfl
  | error cause =>
    refine echoes_fault ?_
    cases cause with
    | undefinedVariable name => exact absurd rfl (h name)
    | _ => rfl

lemma echoes_lookUp (name : Token) (scope : ScopeId) :
    Echoes r (Value.retoken r) (fun _ => []) (lookUp name scope) (lookUp (r.name name) scope) := by
  refine echoes_of_silent fun m before => ?_
  have hget : (m.retoken r before).store.get? scope (r.name name).lexeme =
      (m.store.get? scope name.lexeme).map (Value.retoken r) := by
    rw [r.lexeme_name]
    exact Store.get?_retoken r m.store _ scope
  rw [lookUp_apply, lookUp_apply, hget]
  cases m.store.get? scope name.lexeme with
  | some value => rfl
  | none => simp [retokened, Halt.retoken, RuntimeFault.retoken]

lemma echoes_declare (name : Token) (scope : ScopeId) (value : Value) :
    Echoes r id (fun _ => []) (declare name scope value)
      (declare (r.name name) scope (value.retoken r)) := by
  refine echoes_of_silent fun m before => ?_
  simp only [declare_apply, retokened, Machine.retoken, r.lexeme_name, Store.define_retoken, id]

lemma echoes_assign (name : Token) (scope : ScopeId) (value : Value) :
    Echoes r id (fun _ => []) (assign name scope value)
      (assign (r.name name) scope (value.retoken r)) := by
  refine echoes_of_silent fun m before => ?_
  have hresolve : (m.retoken r before).store.resolve? (r.name name).lexeme scope =
      m.store.resolve? name.lexeme scope := by
    rw [r.lexeme_name]
    exact Store.resolve?_retoken r m.store _ scope
  rw [assign_apply, assign_apply, hresolve]
  cases m.store.resolve? name.lexeme scope with
  | none => simp [retokened, Halt.retoken, RuntimeFault.retoken]
  | some place =>
    simp only [retokened, Machine.retoken, r.lexeme_name, Store.define_retoken, id]

lemma echoes_openScope (parent : ScopeId) :
    Echoes r id (fun _ => []) (openScope parent) (openScope parent) := by
  refine echoes_of_silent fun m before => ?_
  simp only [openScope_apply, retokened, Machine.retoken, Store.child_retoken, Store.next_retoken,
    id]

/-- What goes on in a new scope goes on alike. -/
lemma Echoes.opened {k l : ScopeId → Run β} {follow : ScopeId → Machine → List Value}
    (parent : ScopeId) (hk : ∀ scope, Echoes r ψ (follow scope) (k scope) (l scope)) :
    Echoes r ψ ((openScope parent).listing (fun _ => []) follow) (openScope parent >>= k)
      (openScope parent >>= l) :=
  (echoes_openScope parent).bind (l := l) hk

lemma echoes_print (value : Value) :
    Echoes r id (fun _ => [value]) (print value.display) (print (value.retoken r).display) := by
  intro m before
  simp [retokened, Machine.retoken, Retokening.shown]

lemma echoes_close (name : Token) (parameters : List Token) (body : Slots) (scope : ScopeId) :
    Echoes r (Value.retoken r) (fun _ => []) (close name parameters body scope)
      (close (r.name name) (parameters.map r.name) (Stmt.retokenSlots r.name r.mark body) scope) :=
  echoes_of_silent fun _ _ => rfl

lemma echoes_callNative (native : Native) :
    Echoes r (Value.retoken r) (fun _ => []) (callNative native) (callNative native) := by
  cases native
  exact echoes_of_silent fun _ _ => rfl

lemma echoes_declareAll (scope : ScopeId) (names : List Token) (values : List Value) :
    Echoes r id (fun _ => []) (declareAll scope names values)
      (declareAll scope (names.map r.name) (values.map (Value.retoken r))) := by
  induction names generalizing values with
  | nil => exact echoes_pure rfl
  | cons name names ih =>
    cases values with
    | nil => exact echoes_pure rfl
    | cons value values => exact (echoes_declare name scope value).bind_silent fun _ => ih values

end Steps

/-! ### Loops -/

section Loops

variable {r : Retokening}

/-- Expressions are evaluated alike if each of them is. -/
lemma echoes_all {x y : Expr → Run Value} {printed : Expr → Machine → List Value}
    (h : ∀ e, Echoes r (Value.retoken r) (printed e) (x e) (y (e.retoken r.name r.mark)))
    (es : List Expr) :
    Echoes r (List.map (Value.retoken r)) (listAll x printed es) (all x es)
      (all y (Expr.retokenAll r.name r.mark es)) := by
  suffices honto : ∀ values, Echoes r (List.map (Value.retoken r)) (listAll x printed es)
      (allOnto x values es) (allOnto y (values.map (Value.retoken r))
        (Expr.retokenAll r.name r.mark es)) from honto []
  induction es with
  | nil => exact fun values => echoes_pure (by simp)
  | cons e es ih => exact fun values => (h e).bind fun value => ih (value :: values)

/-- Statements are executed alike if each of them is. -/
lemma echoes_sequence {x y : Stmt → Run Completion} {printed : Stmt → Machine → List Value}
    (h : ∀ s, Echoes r (Completion.retoken r) (printed s) (x s) (y (s.retoken r.name r.mark)))
    (body : Slots) :
    Echoes r (Completion.retoken r) (listSequence x printed body) (sequence x body)
      (sequence y (Stmt.retokenSlots r.name r.mark body)) := by
  induction body with
  | nil => exact echoes_pure rfl
  | cons slot rest ih =>
    cases slot with
    | none => exact ih
    | some s =>
      refine (h s).bind fun completion => ?_
      cases completion with
      | normal => exact ih
      | returned value keyword => exact echoes_pure rfl

/-- A loop goes round alike if its condition and its body do. -/
lemma echoes_iterate {x x' : Run Value} {y y' : Run Completion}
    {inCondition inBody : Machine → List Value} (hx : Echoes r (Value.retoken r) inCondition x x')
    (hy : Echoes r (Completion.retoken r) inBody y y') (rounds : Nat) :
    Echoes r (Completion.retoken r) (listIterate x y inCondition inBody rounds)
      (iterate x y rounds) (iterate x' y' rounds) := by
  induction rounds with
  | zero => exact echoes_throw rfl
  | succ rounds ih =>
    refine hx.bind fun value => ?_
    rw [Value.truthy_retoken]
    split
    · refine hy.bind fun completion => ?_
      cases completion with
      | normal => exact ih
      | returned value keyword => exact echoes_pure rfl
    · exact echoes_pure rfl

/-- A call is made alike if statements are executed alike. -/
lemma echoes_call {x y : ScopeId → Stmt → Run Completion}
    {printed : ScopeId → Stmt → Machine → List Value}
    (h : ∀ scope s, Echoes r (Completion.retoken r) (printed scope s) (x scope s)
      (y scope (s.retoken r.name r.mark)))
    (callee : Value) (paren : Token) (arguments : List Value) :
    Echoes r (Value.retoken r) (returnsBody x printed callee arguments)
      (call x callee paren arguments)
      (call y (callee.retoken r) (r.mark paren) (arguments.map (Value.retoken r))) := by
  cases callee with
  | closure c =>
    have harity : (c.retoken r).arity = c.arity := List.length_map _
    rw [Value.retoken, call_closure, call_closure, List.length_map, harity, returnsBody]
    split
    · refine .opened c.scope fun scope => ?_
      refine (echoes_declareAll scope _ _).bind fun _ => ?_
      refine (echoes_sequence (h scope) _).bind_silent fun completion => ?_
      exact echoes_pure (by cases completion <;> rfl)
    · exact echoes_fault rfl
  | native n =>
    rw [Value.retoken, call_native, call_native, List.length_map]
    · split
      · exact echoes_callNative n
      · exact echoes_fault rfl
    · simp
  | nil | bool | number | string => exact echoes_fault rfl

end Loops

end Run

/-! ## Evaluation -/

open Run

section Evaluation

variable {r : Retokening} {rounds depth : Nat}

/-- Evaluation at some depth echoes itself. -/
def EchoesAt (r : Retokening) (rounds depth : Nat) : Prop :=
  (∀ scope e, Echoes r (Value.retoken r) (Expr.printed rounds depth scope e)
    (evaluate rounds depth scope e) (evaluate rounds depth scope (e.retoken r.name r.mark))) ∧
  ∀ scope s, Echoes r (Completion.retoken r) (Stmt.printed rounds depth scope s)
    (execute rounds depth scope s) (execute rounds depth scope (s.retoken r.name r.mark))

lemma echoes_evaluate_succ (h : EchoesAt r rounds depth) (scope : ScopeId) (e : Expr) :
    Echoes r (Value.retoken r) (Expr.printed rounds (depth + 1) scope e)
      (evaluate rounds (depth + 1) scope e)
      (evaluate rounds (depth + 1) scope (e.retoken r.name r.mark)) := by
  obtain ⟨he, hs⟩ := h
  cases e with
  | literal value => exact echoes_pure (by simp)
  | grouping inner => exact he scope inner
  | «variable» name => exact echoes_lookUp name scope
  | assign name value =>
    refine (he scope value).bind_silent fun v => ?_
    exact (echoes_assign name scope v).bind_silent fun _ => echoes_pure rfl
  | unary operator operand =>
    refine (he scope operand).bind_silent fun v => ?_
    rw [r.kind_mark, Value.unary_retoken]
    exact echoes_ofExcept operator (Value.unary_ne_undefined _ _)
  | binary left operator right =>
    refine (he scope left).bind fun v => (he scope right).bind_silent fun w => ?_
    rw [Value.binary_retoken]
    exact echoes_ofExcept operator (Value.binary_ne_undefined _ _ _)
  | logical left operator right =>
    refine (he scope left).bind fun v => ?_
    rw [Value.settles_retoken]
    split
    · exact echoes_pure rfl
    · exact he scope right
  | call callee paren arguments =>
    refine (he scope callee).bind fun v => ?_
    exact (echoes_all (he scope) arguments).bind fun vs => echoes_call hs v paren vs

lemma echoes_execute_succ (h : EchoesAt r rounds depth) (scope : ScopeId) (s : Stmt) :
    Echoes r (Completion.retoken r) (Stmt.printed rounds (depth + 1) scope s)
      (execute rounds (depth + 1) scope s)
      (execute rounds (depth + 1) scope (s.retoken r.name r.mark)) := by
  obtain ⟨he, hs⟩ := h
  cases s with
  | expression value => exact (he scope value).bind_silent fun _ => echoes_pure rfl
  | print value =>
    refine (he scope value).bind fun v => ?_
    exact (echoes_print v).bind_silent fun _ => echoes_pure rfl
  | var name initial =>
    cases initial with
    | none => exact (echoes_declare name scope .nil).bind_silent fun _ => echoes_pure rfl
    | some initial =>
      refine (he scope initial).bind_silent fun v => ?_
      exact (echoes_declare name scope v).bind_silent fun _ => echoes_pure rfl
  | block body =>
    exact .opened scope fun inner => echoes_sequence (hs inner) body
  | branch condition whenTrue whenFalse =>
    refine (he scope condition).bind fun v => ?_
    rw [Value.truthy_retoken]
    split
    · exact hs scope whenTrue
    · cases whenFalse with
      | none => exact echoes_pure rfl
      | some whenFalse => exact hs scope whenFalse
  | loop condition body => exact echoes_iterate (he scope condition) (hs scope body) rounds
  | function name parameters body =>
    refine (echoes_close name parameters body scope).bind_silent fun v => ?_
    exact (echoes_declare name scope v).bind_silent fun _ => echoes_pure rfl
  | «return» keyword value =>
    cases value with
    | none => exact echoes_pure rfl
    | some value => exact (he scope value).bind_silent fun _ => echoes_pure rfl

/-- **Evaluation echoes itself** when names and marks are changed.

**Proof sketch.** Induction on the depth: each kind of expression and statement is made of steps
that echo each other, and of evaluation at a smaller depth. -/
theorem echoesAt (r : Retokening) (rounds depth : Nat) : EchoesAt r rounds depth := by
  induction depth with
  | zero => exact ⟨fun _ _ => echoes_throw rfl, fun _ _ => echoes_throw rfl⟩
  | succ depth ih => exact ⟨echoes_evaluate_succ ih, echoes_execute_succ ih⟩

end Evaluation

/-! ## Programs -/

/-- **A program with names and marks changed** runs as before, with these changed in all that it
leaves behind. It prints the same values, changed so, whatever was printed before. -/
theorem Machine.interpret_retoken (r : Retokening) (limits : Limits) (before : Array String)
    (program : Slots) (m : Machine) :
    (m.retoken r before).interpret limits (Stmt.retokenSlots r.name r.mark program) =
      let (n, ending) := m.interpret limits program
      (n.retoken r (before ++ r.shown (m.printed limits program)), ending.retoken r) := by
  have hprogram := echoes_sequence ((echoesAt r limits.rounds limits.depth).2 Store.root) program
  unfold interpret
  rw [hprogram m before]
  cases sequence (execute limits.rounds limits.depth Store.root) program m with
  | ok completion n => cases completion <;> rfl
  | error halt n => cases halt <;> rfl

/-- **The output of a program** is what it prints, behind what was printed before. -/
theorem Machine.output_interpret (limits : Limits) (program : Slots) (m : Machine) :
    (m.interpret limits program).1.output =
      m.output ++ ((m.printed limits program).map Value.display).toArray := by
  have h := interpret_retoken .refl limits m.output program m
  have hprogram : Stmt.retokenSlots Retokening.refl.name Retokening.refl.mark program = program :=
    (Stmt.retokenSlots_self id program).trans (Stmt.mapSlots_id program)
  rw [retoken_refl, hprogram] at h
  rw [h]
  simp [output_retoken, Retokening.shown]

end LoxLang
