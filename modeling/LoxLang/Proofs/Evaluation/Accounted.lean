import LoxLang.Proofs.Evaluation.Blame
import LoxLang.Proofs.Evaluation.Discipline

set_option autoImplicit false

/-!
# Runs of whole trees

If all trees at hand are whole, those of the function values included, they are so at every moment of
a run, and one of the moments is to blame for the fault that ends it. A whole statement outside
function bodies never completes with a return.

## Main definitions

* `Accounted` — a run of whole trees and the list of its moments, with one of them to blame for the
  fault that ends it.
* `Run.Normal` — a run that never completes with a return.

## Main results

* `Accounted.bind`, `Accounted.framed` — runs put together are accounted for if their parts are.
* `Accounted.evaluates_executes` — whole expressions and statements are accounted for.
* `Stmt.Whole.normal` — outside function bodies whole statements complete normally.
* `Accounted.interpret` — whole programs are accounted for.
-/

namespace LoxLang

/-! ## Runs that are accounted for -/

/-- A run and the list of its moments are accounted for: all trees are whole at each of the moments
and at the end, and if a fault ends the run, either it is the run's own, or one of the moments is to
blame for it. -/
inductive Accounted {α : Type} (tokens : List Token) (rounds : Nat) (own : RuntimeFault → Prop)
    (Q : α → Prop) (x : Run α) (m : Machine) (moments : List Moment) : Prop
  | ended {a : α} {n : Machine} (hr : x m = .ok a n) (hmoments : ∀ a ∈ moments, a.Whole tokens)
    (hn : n.Whole tokens) (ha : Q a)
  | halted {halt : Halt} {n : Machine} (hr : x m = .error halt n)
    (hmoments : ∀ a ∈ moments, a.Whole tokens) (hn : n.Whole tokens)
    (hblame : ∀ f, halt = .fault f → own f ∨ ∃ a ∈ moments, a.Blames rounds f)

namespace Accounted

variable {α β : Type} {tokens : List Token} {rounds : Nat} {own : RuntimeFault → Prop}
  {Q : α → Prop} {R : β → Prop} {x : Run α} {k : α → Run β} {m n : Machine}
  {moments : List Moment} {scope : ScopeId} {held : List Value}

/-- **One run after another.** -/
theorem bind {follow : α → Machine → List Moment} (hx : Accounted tokens rounds own Q x m moments)
    (hk : ∀ a n, x m = .ok a n → n.Whole tokens → Q a →
      Accounted tokens rounds own R (k a) n (follow a n)) :
    Accounted tokens rounds own R (x >>= k) m (moments ++ x.next m follow) := by
  cases hx with
  | @ended a n hr hmoments hn ha =>
    rw [Run.next_of_ok hr]
    have hbind : (x >>= k) m = k a n := Run.bind_of_ok hr k
    cases hk a n hr hn ha with
    | ended hr' hmoments' hn' ha' =>
      exact .ended (hbind.trans hr') (List.forall_mem_append.2 ⟨hmoments, hmoments'⟩) hn' ha'
    | halted hr' hmoments' hn' hblame =>
      refine .halted (hbind.trans hr') (List.forall_mem_append.2 ⟨hmoments, hmoments'⟩) hn' ?_
      intro f hf
      refine (hblame f hf).imp_right ?_
      rintro ⟨b, hb, hblames⟩
      exact ⟨b, List.mem_append_right _ hb, hblames⟩
  | halted hr hmoments hn hblame =>
    rw [Run.next_of_error hr, List.append_nil]
    exact .halted (Run.bind_of_error hr k) hmoments hn hblame

/-- One run after another, where the second is noted nowhere. -/
lemma bind_quiet (hx : Accounted tokens rounds own Q x m moments)
    (hk : ∀ a n, x m = .ok a n → n.Whole tokens → Q a → Accounted tokens rounds own R (k a) n []) :
    Accounted tokens rounds own R (x >>= k) m moments := by
  have h := hx.bind hk
  rwa [Run.next_nil, List.append_nil] at h

/-- One step and a run after it. -/
lemma step_bind {follow : α → Machine → List Moment} (hx : Accounted tokens rounds own Q x m [])
    (hk : ∀ a n, x m = .ok a n → n.Whole tokens → Q a →
      Accounted tokens rounds own R (k a) n (follow a n)) :
    Accounted tokens rounds own R (x >>= k) m (x.next m follow) := by
  simpa using hx.bind hk

/-- The first moment of a run. -/
lemma cons {a : Moment} (hx : Accounted tokens rounds own Q x m moments) (ha : a.Whole tokens) :
    Accounted tokens rounds own Q x m (a :: moments) := by
  cases hx with
  | ended hr hmoments hn hq => exact .ended hr (List.forall_mem_cons.2 ⟨ha, hmoments⟩) hn hq
  | halted hr hmoments hn hblame =>
    refine .halted hr (List.forall_mem_cons.2 ⟨ha, hmoments⟩) hn fun f hf => ?_
    refine (hblame f hf).imp_right ?_
    rintro ⟨b, hb, hblames⟩
    exact ⟨b, List.mem_cons_of_mem _ hb, hblames⟩

/-- **What begins, goes on and ends.** For the run's own faults the moment at which it begins is to
blame. -/
lemma framed (self : RuntimeFault → Prop) {begun ended : Phase} {give : α → List Value}
    (hx : Accounted tokens rounds self Q x m moments)
    (hbegun : Moment.Whole tokens ⟨begun, m, held⟩) (hended : ended.Whole tokens)
    (hgive : ∀ a, Q a → ∀ v ∈ give a, v.Whole tokens)
    (hself : ∀ f, self f → Moment.Blames rounds ⟨begun, m, held⟩ f) :
    Accounted tokens rounds own Q x m (x.framed begun ended give moments m held) := by
  unfold Run.framed
  cases hx with
  | @ended a n hr hmoments hn ha =>
    rw [Run.next_of_ok hr]
    have hlast : Moment.Whole tokens ⟨ended, n, give a ++ held⟩ :=
      ⟨hended, hn, List.forall_mem_append.2 ⟨hgive a ha, hbegun.held⟩⟩
    refine .ended hr (List.forall_mem_cons.2 ⟨hbegun, ?_⟩) hn ha
    exact List.forall_mem_append.2 ⟨hmoments, by simpa using hlast⟩
  | halted hr hmoments hn hblame =>
    rw [Run.next_of_error hr, List.append_nil]
    refine .halted hr (List.forall_mem_cons.2 ⟨hbegun, hmoments⟩) hn fun f hf => .inr ?_
    rcases hblame f hf with hf | ⟨b, hb, hblames⟩
    · exact ⟨_, List.mem_cons_self, hself f hf⟩
    · exact ⟨b, List.mem_cons_of_mem _ hb, hblames⟩

/-! ## The steps -/

open Run

lemma of_ok {a : α} (hr : x m = .ok a n) (hn : n.Whole tokens) (ha : Q a) :
    Accounted tokens rounds own Q x m [] := .ended hr (by simp) hn ha

lemma pure {a : α} (hm : m.Whole tokens) (ha : Q a) :
    Accounted tokens rounds own Q (Pure.pure a) m [] := of_ok rfl hm ha

lemma fault (hm : m.Whole tokens) {token : Token} {cause : RuntimeFault.Cause}
    (h : own ⟨cause, token⟩) : Accounted tokens rounds own Q (Run.fault token cause) m [] := by
  refine .halted rfl (by simp) hm ?_
  rintro f ⟨⟩
  exact .inl h

lemma ofExcept (hm : m.Whole tokens) {token : Token} {result : Except RuntimeFault.Cause α}
    (hok : ∀ a, result = .ok a → Q a) (hown : ∀ cause, result = .error cause → own ⟨cause, token⟩) :
    Accounted tokens rounds own Q (Run.ofExcept token result) m [] := by
  cases result with
  | ok a => exact pure hm (hok a rfl)
  | error cause => exact fault hm (hown cause rfl)

lemma lookUp (hm : m.Whole tokens) {name : Token}
    (hown : m.store.get? scope name.lexeme = none → own ⟨.undefinedVariable name.lexeme, name⟩) :
    Accounted tokens rounds own (Value.Whole tokens) (Run.lookUp name scope) m [] := by
  have hrun := lookUp_apply m name scope
  cases hv : m.store.get? scope name.lexeme with
  | some v => exact of_ok (by rw [hrun, hv]) hm (hm.get? hv)
  | none =>
    refine .halted (by rw [hrun, hv]) (by simp) hm ?_
    rintro f ⟨⟩
    exact .inl (hown hv)

lemma assign (hm : m.Whole tokens) {name : Token} {v : Value} (hv : v.Whole tokens)
    (hown : m.store.resolve? name.lexeme scope = none →
      own ⟨.undefinedVariable name.lexeme, name⟩) :
    Accounted tokens rounds own (fun _ => True) (Run.assign name scope v) m [] := by
  have hrun := assign_apply m name scope v
  cases hp : m.store.resolve? name.lexeme scope with
  | some place =>
    exact of_ok (by rw [hrun, hp]) (hm.define hv place name.lexeme) trivial
  | none =>
    refine .halted (by rw [hrun, hp]) (by simp) hm ?_
    rintro f ⟨⟩
    exact .inl (hown hp)

lemma declare (hm : m.Whole tokens) (name : Token) {v : Value} (hv : v.Whole tokens) :
    Accounted tokens rounds own (fun _ => True) (Run.declare name scope v) m [] :=
  of_ok (declare_apply m name scope v) (hm.define hv scope name.lexeme) trivial

lemma openScope (hm : m.Whole tokens) :
    Accounted tokens rounds own (fun _ => True) (Run.openScope scope) m [] :=
  of_ok (openScope_apply m scope) (hm.child scope) trivial

/-! ## The loops -/

/-- Parameters are bound one by one. -/
lemma declareAll {names : List Token} {values : List Value} (hm : m.Whole tokens)
    (hheld : ∀ v ∈ held, v.Whole tokens) (hvs : ∀ v ∈ values, v.Whole tokens) :
    Accounted tokens rounds own (fun _ => True) (Run.declareAll scope names values) m
      (traceDeclareAll scope names values m held) := by
  induction names generalizing m values with
  | nil => exact pure hm trivial
  | cons name names ih =>
    cases values with
    | nil => exact pure hm trivial
    | cons v values =>
      refine (declare hm name (hvs v List.mem_cons_self)).step_bind fun _ n _ hn _ => ?_
      have hrest := ih hn fun w hw => hvs w (List.mem_cons_of_mem v hw)
      exact hrest.cons ⟨trivial, hn, hheld⟩

/-- Expressions are evaluated from left to right. -/
lemma allOnto {evaluate : Expr → Run Value} {trace : Expr → Machine → List Value → List Moment}
    (he : ∀ e m held, e.Whole tokens → m.Whole tokens → (∀ v ∈ held, v.Whole tokens) →
      Accounted tokens rounds own (Value.Whole tokens) (evaluate e) m (trace e m held))
    {es : List Expr} {values : List Value} (hes : Expr.AllWhole tokens es) (hm : m.Whole tokens)
    (hheld : ∀ v ∈ held, v.Whole tokens) (hvs : ∀ v ∈ values, v.Whole tokens) :
    Accounted tokens rounds own (fun vs => ∀ v ∈ vs, v.Whole tokens)
      (Run.allOnto evaluate values es) m (traceAll evaluate trace es m held) := by
  induction es generalizing m held values with
  | nil => exact pure hm (by simpa using hvs)
  | cons e rest ih =>
    refine (he e m held hes.1 hm hheld).bind fun v n _ hn hv => ?_
    exact ih hes.2 hn (List.forall_mem_cons.2 ⟨hv, hheld⟩) (List.forall_mem_cons.2 ⟨hv, hvs⟩)

/-- Statements are executed in order. -/
lemma sequence {execute : Stmt → Run Completion} {trace : Stmt → Machine → List Value → List Moment}
    (hs : ∀ st m, st.Whole tokens true → m.Whole tokens →
      Accounted tokens rounds own (Completion.Whole tokens) (execute st) m (trace st m held))
    {slots : Slots} (hslots : Stmt.AllWhole tokens true slots) (hm : m.Whole tokens) :
    Accounted tokens rounds own (Completion.Whole tokens) (Run.sequence execute slots) m
      (traceSequence execute trace slots m held) := by
  induction slots generalizing m with
  | nil => exact pure hm Completion.whole_normal
  | cons slot rest ih =>
    cases slot with
    | none => exact hslots.elim
    | some st =>
      refine (hs st m hslots.1 hm).bind fun completion n _ hn hc => ?_
      cases completion with
      | normal => exact ih hslots.2 hn
      | returned v keyword => exact pure hn hc

/-- A loop goes round and round. -/
lemma iterate {condition : Run Value} {body : Run Completion}
    {traceCondition traceBody : Machine → List Value → List Moment}
    (hcondition : ∀ m, m.Whole tokens →
      Accounted tokens rounds own (Value.Whole tokens) condition m (traceCondition m held))
    (hbody : ∀ m, m.Whole tokens →
      Accounted tokens rounds own (Completion.Whole tokens) body m (traceBody m held))
    {round : Nat} (hm : m.Whole tokens) :
    Accounted tokens rounds own (Completion.Whole tokens) (Run.iterate condition body round) m
      (traceIterate condition body traceCondition traceBody round m held) := by
  induction round generalizing m with
  | zero => exact .halted rfl (by simp [traceIterate]) hm (by simp)
  | succ round ih =>
    refine (hcondition m hm).bind fun v n _ hn _ => ?_
    split
    · refine (hbody n hn).bind fun completion k _ hk hc => ?_
      cases completion with
      | normal => exact ih hk
      | returned v keyword => exact pure hk hc
    · exact pure hn Completion.whole_normal

/-- A call runs a whole body in a new scope, unless it is refused. -/
lemma call {execute : ScopeId → Stmt → Run Completion}
    {trace : ScopeId → Stmt → Machine → List Value → List Moment}
    (hs : ∀ scope st m, st.Whole tokens true → m.Whole tokens →
      Accounted tokens rounds own (Completion.Whole tokens) (execute scope st) m
        (trace scope st m held))
    {callee : Value} {arguments : List Value} {paren : Token} (hm : m.Whole tokens)
    (hheld : ∀ v ∈ held, v.Whole tokens) (hcallee : callee.Whole tokens)
    (hvs : ∀ v ∈ arguments, v.Whole tokens)
    (hown : ∀ cause, callee.refusal? arguments.length = some cause → own ⟨cause, paren⟩) :
    Accounted tokens rounds own (Value.Whole tokens) (Run.call execute callee paren arguments) m
      (traceCall execute trace callee arguments m held) := by
  cases callee with
  | closure f =>
    rw [call_closure]
    unfold traceCall
    dsimp only
    split
    · refine (openScope hm).step_bind fun inner n _ hn _ => ?_
      refine cons ?_ ⟨trivial, hn, hheld⟩
      refine (declareAll hn hheld hvs).bind fun _ k _ hk _ => ?_
      refine (sequence (hs inner) (hcallee f rfl) hk).bind_quiet fun c j _ hj hc => ?_
      exact pure hj hc.value
    · rename_i hne
      exact fault hm (hown _ (if_neg hne))
  | native f =>
    rw [call_native]
    split
    · cases f with
      | clock => exact of_ok rfl hm (Value.whole_of_plain (by simp))
    · rename_i hne
      exact fault hm (hown _ (if_neg hne))
  | nil | bool | number | string => exact fault hm (hown _ rfl)

/-! ## Evaluation -/

/-- Whole expressions are accounted for at a depth. -/
def Evaluates (tokens : List Token) (rounds depth : Nat) : Prop :=
  ∀ own scope e m held, e.Whole tokens → m.Whole tokens → (∀ v ∈ held, v.Whole tokens) →
    Accounted tokens rounds own (Value.Whole tokens) (evaluate rounds depth scope e) m
      (Expr.trace rounds depth scope e m held)

/-- Whole statements are accounted for at a depth. -/
def Executes (tokens : List Token) (rounds depth : Nat) : Prop :=
  ∀ own scope st m held, st.Whole tokens true → m.Whole tokens → (∀ v ∈ held, v.Whole tokens) →
    Accounted tokens rounds own (Completion.Whole tokens)
      (execute rounds depth scope st) m (Stmt.trace rounds depth scope st m held)

variable {depth : Nat}

/-- An expression is accounted for if all that is nested in it is: it is to blame for what is its
own. -/
lemma evaluates_succ (he : Evaluates tokens rounds depth) (hs : Executes tokens rounds depth) :
    Evaluates tokens rounds (depth + 1) := by
  intro own scope e m held hwhole hm hheld
  have hbegun : Moment.Whole tokens ⟨.evaluating scope e, m, held⟩ := ⟨hwhole, hm, hheld⟩
  have hgive : ∀ v : Value, v.Whole tokens → ∀ w ∈ [v], w.Whole tokens := by
    intro v hv w hw
    obtain rfl : w = v := by simpa using hw
    exact hv
  -- The run's own faults are the failures of the form itself, and those begin at this moment.
  refine framed (fun f => e.Fails rounds depth scope m f) ?_ hbegun trivial hgive
    fun f hf => ⟨depth, scope, e, rfl, hf⟩
  cases e with
  | literal value =>
    refine pure hm (Value.whole_of_plain ?_)
    cases value <;> simp [Value.ofLiteral]
  | grouping inner => exact he _ scope inner m held hwhole hm hheld
  | «variable» name => exact lookUp hm .variable
  | assign name value =>
    refine (he _ scope value m held hwhole.2 hm hheld).bind_quiet fun v n hr hn hv => ?_
    refine (assign hn hv (.assign hr)).bind_quiet fun _ k _ hk _ => ?_
    exact pure hk hv
  | unary operator operand =>
    refine (he _ scope operand m held hwhole.2 hm hheld).bind_quiet fun v n hr hn _ => ?_
    refine ofExcept hn (fun w hw => ?_) fun cause => .unary hr
    exact Value.whole_of_plain (Value.unary_ne_closure hw)
  | binary left operator right =>
    obtain ⟨hleft, -, hright⟩ := hwhole
    refine (he _ scope left m held hleft hm hheld).bind fun v n hr hn hv => ?_
    have hheld' := List.forall_mem_cons.2 ⟨hv, hheld⟩
    refine (he _ scope right n _ hright hn hheld').bind_quiet fun w k hr' hk _ => ?_
    refine ofExcept hk (fun u hu => ?_) fun cause => .binary hr hr'
    exact Value.whole_of_plain (Value.binary_ne_closure hu)
  | logical left operator right =>
    obtain ⟨hleft, -, hright⟩ := hwhole
    refine (he _ scope left m held hleft hm hheld).bind fun v n _ hn hv => ?_
    split
    · exact pure hn hv
    · exact he _ scope right n _ hright hn (List.forall_mem_cons.2 ⟨hv, hheld⟩)
  | call callee paren arguments =>
    obtain ⟨hcallee, -, harguments⟩ := hwhole
    refine (he _ scope callee m held hcallee hm hheld).bind fun f n hr hn hf => ?_
    have hheld' := List.forall_mem_cons.2 ⟨hf, hheld⟩
    refine (allOnto (he _ scope) harguments hn hheld' (by simp)).bind fun vs k hr' hk hvs => ?_
    have hheld'' := List.forall_mem_append.2 ⟨hvs, hheld'⟩
    exact call (fun scope st m hst hm => hs _ scope st m _ hst hm hheld'') hk hheld'' hf hvs
      fun cause => .call hr hr'

/-- A statement is accounted for if all that is nested in it is. -/
lemma executes_succ (he : Evaluates tokens rounds depth) (hs : Executes tokens rounds depth) :
    Executes tokens rounds (depth + 1) := by
  intro own scope st m held hwhole hm hheld
  have hnormal : Completion.Whole tokens .normal := Completion.whole_normal
  have hbegun : Moment.Whole tokens ⟨.executing scope st, m, held⟩ := ⟨hwhole, hm, hheld⟩
  -- A statement fails only in an expression of its own or of a body that it runs.
  refine framed (fun _ => False) ?_ hbegun trivial (fun _ hc => hc) fun _ => False.elim
  cases st with
  | expression value =>
    exact (he _ scope value m held hwhole hm hheld).bind_quiet fun _ n _ hn _ => pure hn hnormal
  | print value =>
    refine (he _ scope value m held hwhole hm hheld).bind_quiet fun v n _ hn _ => ?_
    exact of_ok rfl hn hnormal
  | var name initial =>
    cases initial with
    | none =>
      have hnil : Value.nil.Whole tokens := Value.whole_of_plain (by simp)
      exact (declare hm name hnil).bind_quiet fun _ n _ hn _ => pure hn hnormal
    | some initial =>
      refine (he _ scope initial m held (hwhole.2 _ rfl) hm hheld).bind_quiet fun v n _ hn hv => ?_
      exact (declare hn name hv).bind_quiet fun _ k _ hk _ => pure hk hnormal
  | block body =>
    refine (openScope hm).step_bind fun inner n _ hn _ => ?_
    refine cons ?_ ⟨trivial, hn, hheld⟩
    exact sequence (fun st m hst hm => hs _ inner st m held hst hm hheld) hwhole hn
  | branch condition whenTrue whenFalse =>
    cases whenFalse with
    | none =>
      refine (he _ scope condition m held hwhole.1 hm hheld).bind fun v n _ hn _ => ?_
      split
      · exact hs _ scope whenTrue n held hwhole.2 hn hheld
      · exact pure hn hnormal
    | some whenFalse =>
      refine (he _ scope condition m held hwhole.1 hm hheld).bind fun v n _ hn _ => ?_
      split
      · exact hs _ scope whenTrue n held hwhole.2.1 hn hheld
      · exact hs _ scope whenFalse n held hwhole.2.2 hn hheld
  | loop condition body =>
    refine iterate ?_ ?_ hm
    · exact fun n hn => he _ scope condition n held hwhole.1 hn hheld
    · exact fun n hn => hs _ scope body n held hwhole.2 hn hheld
  | function name parameters body =>
    have hvalue : (Value.closure ⟨m.nextIdentity, name, parameters, body, scope⟩).Whole tokens := by
      rintro f ⟨⟩
      exact hwhole.2.2
    have hclose : Accounted tokens rounds (fun _ => False) (Value.Whole tokens)
        (close name parameters body scope) m [] :=
      of_ok (close_apply m name parameters body scope) hm hvalue
    refine hclose.step_bind fun v n _ hn hv => ?_
    refine cons ?_ ⟨trivial, hn, List.forall_mem_cons.2 ⟨hv, hheld⟩⟩
    exact (declare hn name hv).bind_quiet fun _ k _ hk _ => pure hk hnormal
  | «return» keyword value =>
    cases value with
    | none =>
      have hnil : Value.nil.Whole tokens := Value.whole_of_plain (by simp)
      exact pure hm (Completion.whole_returned hnil keyword)
    | some value =>
      refine (he _ scope value m held (hwhole.2.2 _ rfl) hm hheld).bind_quiet fun v n _ hn hv => ?_
      exact pure hn (Completion.whole_returned hv keyword)

/-- **Whole expressions and statements are accounted for.**

**Proof sketch.** By induction on the depth. Each form is put together from evaluations that are
nested less deeply, whose faults have a moment to blame already, and from steps of its own, whose
faults are the failures of the form itself. A call goes on with the body of a function value, which
is whole as all bodies on the machine are. -/
theorem evaluates_executes (tokens : List Token) (rounds depth : Nat) :
    Evaluates tokens rounds depth ∧ Executes tokens rounds depth := by
  induction depth with
  | zero =>
    constructor
    · intro own scope e m held _ hm _
      exact .halted rfl (by simp [Expr.trace]) hm (by simp)
    · intro own scope st m held _ hm _
      exact .halted rfl (by simp [Stmt.trace]) hm (by simp)
  | succ depth ih => exact ⟨evaluates_succ ih.1 ih.2, executes_succ ih.1 ih.2⟩

end Accounted

/-! ## Statements outside function bodies -/

/-- A run that never completes with a return. -/
def Run.Normal (x : Run Completion) : Prop :=
  ∀ m completion n, x m = .ok completion n → completion = .normal

namespace Run

variable {α : Type}

lemma normal_pure : (pure .normal : Run Completion).Normal := by
  rintro m completion n ⟨⟩
  rfl

lemma normal_bind {x : Run α} {k : α → Run Completion} (hk : ∀ a, (k a).Normal) :
    (x >>= k).Normal := by
  intro m completion n hr
  cases hx : x m with
  | ok a j =>
    rw [bind_of_ok hx] at hr
    exact hk a j completion n hr
  | error halt j =>
    rw [bind_of_error hx] at hr
    contradiction

/-- Of two runs one after the other, each completes normally. -/
lemma normal_followed {x : Run Completion} {next : Run Completion} (hx : x.Normal)
    (hnext : next.Normal) : Run.Normal (do
      match ← x with
      | .normal => next
      | .returned v keyword => return .returned v keyword) := by
  intro m completion n hr
  cases hrun : x m with
  | ok c j =>
    obtain rfl := hx m c j hrun
    rw [bind_of_ok hrun] at hr
    exact hnext j completion n hr
  | error halt j =>
    rw [bind_of_error hrun] at hr
    contradiction

/-- Statements in order complete normally if each of them does. -/
lemma normal_sequence {execute : Stmt → Run Completion} {slots : Slots}
    (hs : ∀ st, some st ∈ slots → (execute st).Normal) : (sequence execute slots).Normal := by
  induction slots with
  | nil => exact normal_pure
  | cons slot rest ih =>
    have hrest := ih fun st hst => hs st (List.mem_cons_of_mem _ hst)
    cases slot with
    | none => exact hrest
    | some st => exact normal_followed (hs st List.mem_cons_self) hrest

/-- A loop completes normally if its body does. -/
lemma normal_iterate {condition : Run Value} {body : Run Completion} (hbody : body.Normal)
    (rounds : Nat) : (iterate condition body rounds).Normal := by
  induction rounds with
  | zero => exact fun m completion n hr => by contradiction
  | succ rounds ih =>
    refine normal_bind fun v => ?_
    split
    · exact normal_followed hbody ih
    · exact normal_pure

end Run

/-- **Outside function bodies whole statements complete normally**, whatever machine they run on. -/
theorem Stmt.Whole.normal {tokens : List Token} {st : Stmt} (h : st.Whole tokens false)
    (rounds depth : Nat) (scope : ScopeId) : (execute rounds depth scope st).Normal := by
  induction depth generalizing st scope with
  | zero => exact fun m completion n hr => by contradiction
  | succ depth ih =>
    cases st with
    | expression value => exact Run.normal_bind fun _ => Run.normal_pure
    | print value => exact Run.normal_bind fun _ => Run.normal_bind fun _ => Run.normal_pure
    | var name initial =>
      cases initial with
      | none => exact Run.normal_bind fun _ => Run.normal_pure
      | some initial => exact Run.normal_bind fun _ => Run.normal_bind fun _ => Run.normal_pure
    | block body =>
      have hbody : Stmt.AllWhole tokens false body := h
      refine Run.normal_bind fun inner => Run.normal_sequence fun st hst => ?_
      exact ih (hbody.of_mem hst) inner
    | branch condition whenTrue whenFalse =>
      cases whenFalse with
      | none =>
        refine Run.normal_bind fun v => ?_
        split
        · exact ih h.2 scope
        · exact Run.normal_pure
      | some whenFalse =>
        refine Run.normal_bind fun v => ?_
        split
        · exact ih h.2.1 scope
        · exact ih h.2.2 scope
    | loop condition body => exact Run.normal_iterate (ih h.2 scope) rounds
    | function name parameters body =>
      exact Run.normal_bind fun _ => Run.normal_bind fun _ => Run.normal_pure
    | «return» keyword value => exact absurd h.1 (by simp)

/-! ## Whole programs -/

/-- **Whole programs are accounted for.** All trees are whole at every moment and on the machine that
is left behind. The program does not end with a return, and for the fault that it ends with, if
any, one of the moments is to blame. -/
theorem Accounted.interpret {tokens : List Token} {program : Slots} {m : Machine} (limits : Limits)
    (hprogram : Stmt.AllWhole tokens false program) (hm : m.Whole tokens) :
    (∀ a ∈ m.trace limits program, a.Whole tokens) ∧
      (m.interpret limits program).1.Whole tokens ∧
      ∀ f, (m.interpret limits program).2 = .faulted f →
        f.Ordinary tokens ∧ ∃ a ∈ m.trace limits program, a.Blames limits.rounds f := by
  have hwhole : Stmt.AllWhole tokens true program :=
    hprogram.mono (List.Subset.refl tokens) fun _ => rfl
  have hs := (evaluates_executes tokens limits.rounds limits.depth).2 (fun _ => False) Store.root
  have hrun : Accounted tokens limits.rounds (fun _ => False) (Completion.Whole tokens)
      (Run.sequence (execute limits.rounds limits.depth Store.root) program) m
      (m.trace limits program) :=
    sequence (fun st m hst hm => hs st m [] hst hm (by simp)) hwhole hm
  have hnormal : (Run.sequence (execute limits.rounds limits.depth Store.root) program).Normal :=
    Run.normal_sequence fun st hst =>
      (hprogram.of_mem hst).normal limits.rounds limits.depth Store.root
  unfold Machine.interpret
  cases hrun with
  | @ended completion n hr hmoments hn _ =>
    obtain rfl := hnormal m completion n hr
    rw [hr]
    exact ⟨hmoments, hn, by simp⟩
  | @halted halt n hr hmoments hn hblame =>
    rw [hr]
    cases halt with
    | tooDeep | tooLong => exact ⟨hmoments, hn, by simp⟩
    | fault f =>
      refine ⟨hmoments, hn, ?_⟩
      rintro g ⟨⟩
      obtain ⟨a, ha, hblames⟩ := (hblame f rfl).resolve_left id
      obtain ⟨depth, scope, e, hphase, hfails⟩ := id hblames
      have he : a.phase.Whole tokens := (hmoments a ha).phase
      rw [hphase] at he
      exact ⟨hfails.ordinary he, a, ha, hblames⟩

end LoxLang
