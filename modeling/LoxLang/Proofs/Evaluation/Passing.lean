import LoxLang.Proofs.Console.Scopes
import LoxLang.Proofs.Evaluation.Events
import LoxLang.Proofs.Store.History

set_option autoImplicit false

/-!
# Values that are passed on

A value that is bound to a variable, assigned to it or given for a parameter is what the variable
then gives. A return passes its value out of every statement around it, and the call gives it on. A
logical operator gives the value of one of its sides. In each case it is the very value and not one
like it.

## Main definitions

* `Machine.Reads` — what a variable gives.
* `Stmt.Exits` — a return by which a statement may complete.
* `ReturnGives` — what a return gives.
* `Machine.PassesOn` — what is evaluated from a machine on passes values on.

## Main results

* `execute_returned` — a return passes its value out of every statement around it.
* `Run.reads_enter` — parameters give the arguments.
* `Machine.passesOn` — values are passed on from every machine whose scopes make up a tree.
-/

namespace LoxLang

/-! ## Reading what was bound -/

namespace Store

variable {s : Store} {scope place : ScopeId} {name : String} {v : Value}

/-- What a scope binds itself is seen from it. -/
lemma get?_of_own? (h : s.own? scope name = some v) : s.get? scope name = some v := by
  unfold own? at h
  obtain ⟨a, ha, hv⟩ := Option.bind_eq_some_iff.1 h
  have hb : a.binds name = true := by rw [Scope.binds_iff, hv, Option.isSome_some]
  have hr : s.resolve? name scope = some scope := by
    rw [resolve?, ha]
    simp [hb]
  simp [get?, hr, ha, hv]

/-- A name goes on to be found where it is, if it is bound anew there. -/
lemma resolve?_define (h : s.resolve? name scope = some place) (v : Value) :
    (s.define place name v).resolve? name scope = some place := by
  fun_induction s.resolve? name scope with
  | case1 | case3 | case5 => contradiction
  | case2 scope here hs hb =>
    obtain rfl : scope = place := by simpa using h
    rw [resolve?, getElem?_define, hs]
    simp [binds_define hb]
  | case4 scope here hs hb parent hp hlt ih =>
    -- the name is found further up, so this scope is not the one in which it is bound
    have hne : place ≠ scope := by
      rintro rfl
      obtain ⟨a, ha, hbound⟩ := binds_of_resolve? h
      rw [hs] at ha
      exact hb (Option.some.inj ha ▸ hbound)
    rw [resolve?, getElem?_define, if_neg hne, hs]
    simp [hb, hp, hlt, ih h]

/-- What is bound in a scope is seen from it. -/
lemma get?_define_self (hlt : scope < s.next) (name : String) (v : Value) :
    (s.define scope name v).get? scope name = some v :=
  get?_of_own? (by simp [own?_define hlt])

/-- What is bound where a name is found is seen from the scope it was looked up from. -/
lemma get?_define_of_resolve? (h : s.resolve? name scope = some place) (v : Value) :
    (s.define place name v).get? scope name = some v := by
  obtain ⟨a, ha, -⟩ := binds_of_resolve? h
  have hplace := own?_define (lt_next_iff.2 ⟨a, ha⟩) name v place name
  rw [if_pos ⟨rfl, rfl⟩] at hplace
  unfold get?
  rw [resolve?_define h v]
  exact hplace

end Store

/-- What a variable of some name gives, read from a scope. Reading it changes nothing. -/
def Machine.Reads (m : Machine) (scope : ScopeId) (name : String) (v : Value) : Prop :=
  ∀ rounds depth (token : Token), token.lexeme = name →
    evaluate rounds (depth + 1) scope (.variable token) m = .ok v m

lemma Machine.reads_of_get? {m : Machine} {scope : ScopeId} {name : String} {v : Value}
    (h : m.store.get? scope name = some v) : m.Reads scope name v := by
  rintro rounds depth token rfl
  show Run.lookUp token scope m = _
  rw [Run.lookUp_apply, h]

/-! ## Parameters -/

namespace Run

variable {scope : ScopeId} {names : List Token} {values : List Value} {m n : Machine}

/-- Binding parameters leaves other names alone. -/
lemma own?_declareAll {name : String} (hlt : scope < m.store.next)
    (hr : declareAll scope names values m = .ok () n) (hname : name ∉ names.map Token.lexeme) :
    n.store.own? scope name = m.store.own? scope name := by
  induction names generalizing m values with
  | nil =>
    cases hr
    rfl
  | cons parameter names ih =>
    cases values with
    | nil =>
      cases hr
      rfl
    | cons v values =>
      obtain ⟨_, k, hk, hrest⟩ := bind_eq_ok.1 hr
      obtain ⟨hne, hname⟩ := not_or.1 (mt List.mem_cons.2 hname)
      cases hk
      rw [ih (by simpa using hlt) hrest hname]
      simp [Store.own?_define hlt, hne]

/-- The last parameter of a name gives its argument. -/
lemma own?_declareAll_getElem (hlt : scope < m.store.next)
    (hr : declareAll scope names values m = .ok () n) {i : Nat} {name : Token} {v : Value}
    (hname : names[i]? = some name) (hv : values[i]? = some v)
    (hlast : name.lexeme ∉ (names.drop (i + 1)).map Token.lexeme) :
    n.store.own? scope name.lexeme = some v := by
  induction names generalizing m values i with
  | nil => simp at hname
  | cons parameter names ih =>
    cases values with
    | nil => simp at hv
    | cons w values =>
      obtain ⟨_, k, hk, hrest⟩ := bind_eq_ok.1 hr
      cases hk
      have hlt' : scope < (m.store.define scope parameter.lexeme w).next := by simpa using hlt
      cases i with
      | zero =>
        obtain rfl : parameter = name := by simpa using hname
        obtain rfl : w = v := by simpa using hv
        rw [own?_declareAll hlt' hrest hlast]
        simp [Store.own?_define hlt]
      | succ i => exact ih hlt' hrest hname hv hlast

/-- **Parameters give the arguments.** The last one counts if several have one name. -/
theorem reads_enter {f : Closure} {arguments : List Value} {inner : ScopeId}
    (hr : enter f arguments m = .ok inner n) {i : Nat} {name : Token} {v : Value}
    (hname : f.parameters[i]? = some name) (hv : arguments[i]? = some v)
    (hlast : name.lexeme ∉ (f.parameters.drop (i + 1)).map Token.lexeme) :
    n.Reads inner name.lexeme v := by
  obtain ⟨_, k, hopen, hr⟩ := bind_eq_ok.1 hr
  cases hopen
  obtain ⟨_, k, hall, hr⟩ := bind_eq_ok.1 hr
  cases hr
  have hlt : m.store.next < (m.store.child f.scope).next := by simp
  exact Machine.reads_of_get?
    (Store.get?_of_own? (own?_declareAll_getElem hlt hall hname hv hlast))

/-! ## Arguments -/

/-- Each value of expressions in a row is the value of one of them. -/
lemma forall₂_of_allOnto {evaluate : Expr → Run Value} {es : List Expr} {before vs : List Value}
    (hr : allOnto evaluate before es m = .ok vs n) :
    ∃ after, vs = before.reverse ++ after ∧
      List.Forall₂ (fun e v => ∃ k k', evaluate e k = .ok v k') es after := by
  induction es generalizing m before with
  | nil =>
    cases hr
    exact ⟨[], (List.append_nil _).symm, .nil⟩
  | cons e es ih =>
    obtain ⟨v, k, hv, hr⟩ := bind_eq_ok.1 hr
    obtain ⟨after, rfl, hafter⟩ := ih hr
    exact ⟨v :: after, by simp, .cons ⟨m, k, hv⟩ hafter⟩

/-! ## Returns -/

variable {v : Value} {keyword : Token}

/-- A row of statements returns by one of them. -/
lemma sequence_returned {execute : Stmt → Run Completion} {slots : Slots}
    (hr : sequence execute slots m = .ok (.returned v keyword) n) :
    ∃ s, some s ∈ slots ∧ ∃ k, execute s k = .ok (.returned v keyword) n := by
  induction slots generalizing m with
  | nil => cases hr
  | cons slot rest ih =>
    cases slot with
    | none =>
      obtain ⟨s, hs, k, hk⟩ := ih hr
      exact ⟨s, List.mem_cons_of_mem _ hs, k, hk⟩
    | some s =>
      obtain ⟨completion, k, hk, hr⟩ := bind_eq_ok.1 hr
      cases completion with
      | normal =>
        obtain ⟨t, ht, j, hj⟩ := ih hr
        exact ⟨t, List.mem_cons_of_mem _ ht, j, hj⟩
      | returned w kw =>
        cases hr
        exact ⟨s, List.mem_cons_self, m, hk⟩

/-- A loop returns by its body. -/
lemma iterate_returned {condition : Run Value} {body : Run Completion} {rounds : Nat}
    (hr : iterate condition body rounds m = .ok (.returned v keyword) n) :
    ∃ k, body k = .ok (.returned v keyword) n := by
  induction rounds generalizing m with
  | zero => cases hr
  | succ rounds ih =>
    obtain ⟨w, k, -, hr⟩ := bind_eq_ok.1 hr
    split at hr
    · obtain ⟨completion, j, hj, hr⟩ := bind_eq_ok.1 hr
      cases completion with
      | normal => exact ih hr
      | returned u kw =>
        cases hr
        exact ⟨k, hj⟩
    · cases hr

end Run

open Run

/-- A return by which a statement may complete: it is nested in the statement, but in no function
there. -/
inductive Stmt.Exits (keyword : Token) (value : Option Expr) : Stmt → Prop
  | here : Exits keyword value (.return keyword value)
  | block {body : Slots} {s : Stmt} (hs : some s ∈ body) (h : Exits keyword value s) :
    Exits keyword value (.block body)
  | whenTrue {condition : Expr} {s : Stmt} {whenFalse : Option Stmt} (h : Exits keyword value s) :
    Exits keyword value (.branch condition s whenFalse)
  | whenFalse {condition : Expr} {whenTrue s : Stmt} (h : Exits keyword value s) :
    Exits keyword value (.branch condition whenTrue (some s))
  | loop {condition : Expr} {s : Stmt} (h : Exits keyword value s) :
    Exits keyword value (.loop condition s)

/-- What a return gives, at less than some depth, and the machine that it leaves behind: the value
of its expression, or nil if it has none. -/
def ReturnGives (rounds depth : Nat) (value : Option Expr) (v : Value) (n : Machine) : Prop :=
  match value with
  | none => v = .nil
  | some e => ∃ d < depth, ∃ scope k, evaluate rounds d scope e k = .ok v n

variable {rounds depth : Nat} {scope : ScopeId} {m n : Machine} {v : Value} {keyword : Token}

lemma ReturnGives.deeper {value : Option Expr} (h : ReturnGives rounds depth value v n) :
    ReturnGives rounds (depth + 1) value v n := by
  cases value with
  | none => exact h
  | some e =>
    obtain ⟨d, hd, hrun⟩ := h
    exact ⟨d, Nat.lt_succ_of_lt hd, hrun⟩

/-- **A return passes its value out of every statement around it**, and nothing is done after it.

**Proof sketch.** By induction on the depth. A statement that returns is a return or does so by a
statement that is nested in it. -/
theorem execute_returned {s : Stmt}
    (hr : execute rounds depth scope s m = .ok (.returned v keyword) n) :
    ∃ value, s.Exits keyword value ∧ ReturnGives rounds depth value v n := by
  induction depth generalizing scope s m with
  | zero => cases hr
  | succ depth ih =>
    cases s with
    | expression value | print value | function name parameters body =>
      obtain ⟨w, k, -, hr⟩ := bind_eq_ok.1 hr
      obtain ⟨⟩ := hr
    | var name initial =>
      cases initial with
      | none => cases hr
      | some initial =>
        obtain ⟨w, k, -, hr⟩ := bind_eq_ok.1 hr
        cases hr
    | block body =>
      obtain ⟨inner, k, -, hr⟩ := bind_eq_ok.1 hr
      obtain ⟨s, hs, j, hj⟩ := sequence_returned hr
      obtain ⟨value, hexits, hgives⟩ := ih hj
      exact ⟨value, .block hs hexits, hgives.deeper⟩
    | branch condition whenTrue whenFalse =>
      obtain ⟨w, k, -, hr⟩ := bind_eq_ok.1 hr
      split at hr
      · obtain ⟨value, hexits, hgives⟩ := ih hr
        exact ⟨value, .whenTrue hexits, hgives.deeper⟩
      · cases whenFalse with
        | none => cases hr
        | some whenFalse =>
          obtain ⟨value, hexits, hgives⟩ := ih hr
          exact ⟨value, .whenFalse hexits, hgives.deeper⟩
    | loop condition body =>
      obtain ⟨k, hk⟩ := iterate_returned hr
      obtain ⟨value, hexits, hgives⟩ := ih hk
      exact ⟨value, .loop hexits, hgives.deeper⟩
    | «return» kw value =>
      cases value with
      | none =>
        cases hr
        exact ⟨none, .here, rfl⟩
      | some e =>
        obtain ⟨w, k, hw, hr⟩ := bind_eq_ok.1 hr
        cases hr
        exact ⟨some e, .here, depth, Nat.lt_succ_self depth, scope, m, hw⟩

/-! ## Evaluation -/

/-- What is evaluated in a scope, from a machine on, passes values on as they are. -/
structure Machine.PassesOn (m : Machine) (rounds depth : Nat) (scope : ScopeId) : Prop where
  /-- A variable gives the value with which it is declared. -/
  var : ∀ name initial n,
    execute rounds (depth + 1) scope (.var name (some initial)) m = .ok .normal n →
    ∃ v k, evaluate rounds depth scope initial m = .ok v k ∧ n.Reads scope name.lexeme v
  /-- It gives the value that is assigned to it, and so does the assignment. -/
  assign : ∀ name value v n,
    evaluate rounds (depth + 1) scope (.assign name value) m = .ok v n →
    (∃ k, evaluate rounds depth scope value m = .ok v k) ∧ n.Reads scope name.lexeme v
  /-- A logical operator gives the value of its left side if that settles it, or else that of its
  right side. -/
  logical : ∀ left operator right v n,
    evaluate rounds (depth + 1) scope (.logical left operator right) m = .ok v n →
    ∃ w k, evaluate rounds depth scope left m = .ok w k ∧
      if w.settles operator.kind then v = w else evaluate rounds depth scope right k = .ok v n
  /-- In the body of a function that is called each parameter gives its argument, the last one if
  several have one name. The call gives what a return in the body gives, or nil if the body reaches
  its end. -/
  call : ∀ callee paren arguments v n,
    evaluate rounds (depth + 1) scope (.call callee paren arguments) m = .ok v n →
    ∀ f k, evaluate rounds depth scope callee m = .ok (.closure f) k →
    ∃ vs inner j, vs.length = f.arity ∧
      List.Forall₂ (fun e v => ∃ k k', evaluate rounds depth scope e k = .ok v k') arguments vs ∧
      (∀ i name v, f.parameters[i]? = some name → vs[i]? = some v →
        name.lexeme ∉ (f.parameters.drop (i + 1)).map Token.lexeme → j.Reads inner name.lexeme v) ∧
      (sequence (execute rounds depth inner) f.body j = .ok .normal n ∧ v = .nil ∨
        ∃ keyword s value,
          sequence (execute rounds depth inner) f.body j = .ok (.returned v keyword) n ∧
          some s ∈ f.body ∧ s.Exits keyword value ∧ ReturnGives rounds depth value v n)

/-- **Values are passed on** from every machine whose scopes make up a tree. -/
theorem Machine.passesOn (hm : m.store.Sound) (hlt : scope < m.store.next) (rounds depth : Nat) :
    m.PassesOn rounds depth scope where
  var name initial n hr := by
    obtain ⟨v, k, hv, hr⟩ := bind_eq_ok.1 hr
    cases hr
    -- evaluation loses no scope
    have hready : Discipline.scopes.Ready m scope [] := ⟨hm, hlt, by simp⟩
    have htracks := (Discipline.scopes.evaluates_executes rounds depth).1 scope initial m [] hready
    obtain ⟨-, hext, -⟩ := htracks.of_ok hv
    refine ⟨v, k, hv, reads_of_get? ?_⟩
    exact Store.get?_define_self (hext.lt_next hlt) name.lexeme v
  assign name value v n hr := by
    obtain ⟨w, k, hw, hr⟩ := bind_eq_ok.1 hr
    obtain ⟨_, j, hassign, hr⟩ := bind_eq_ok.1 hr
    cases hr
    rw [assign_apply] at hassign
    cases hp : k.store.resolve? name.lexeme scope with
    | none => simp [hp] at hassign
    | some place =>
      rw [hp] at hassign
      cases hassign
      exact ⟨⟨k, hw⟩, reads_of_get? (Store.get?_define_of_resolve? hp v)⟩
  logical left operator right v n hr := by
    obtain ⟨w, k, hw, hr⟩ := bind_eq_ok.1 hr
    refine ⟨w, k, hw, ?_⟩
    split at hr
    · rename_i hsettles
      cases hr
      rw [if_pos hsettles]
    · rename_i hsettles
      rwa [if_neg hsettles]
  call callee paren arguments v n hr f k hf := by
    obtain ⟨g, k', hg, hr⟩ := bind_eq_ok.1 hr
    obtain ⟨rfl, rfl⟩ := EStateM.Result.ok.inj (hf.symm.trans hg)
    obtain ⟨vs, j, hvs, hr⟩ := bind_eq_ok.1 hr
    obtain ⟨after, hafter, hall⟩ := forall₂_of_allOnto hvs
    obtain rfl : vs = after := by simpa using hafter
    by_cases harity : vs.length = f.arity
    · rw [call_closure_enter _ f paren harity] at hr
      obtain ⟨inner, i, henter, hr⟩ := bind_eq_ok.1 hr
      obtain ⟨completion, k', hbody, hr⟩ := bind_eq_ok.1 hr
      cases hr
      refine ⟨vs, inner, i, harity, hall, fun _ _ _ => reads_enter henter, ?_⟩
      cases completion with
      | normal => exact .inl ⟨hbody, rfl⟩
      | returned w keyword =>
        obtain ⟨s, hs, _, hrun⟩ := sequence_returned hbody
        obtain ⟨value, hexits, hgives⟩ := execute_returned hrun
        exact .inr ⟨keyword, s, value, hbody, hs, hexits, hgives⟩
    · rw [call_closure, if_neg harity] at hr
      cases hr

end LoxLang
