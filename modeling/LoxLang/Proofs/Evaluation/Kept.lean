import LoxLang.Proofs.Evaluation.Discipline

set_option autoImplicit false

/-!
# Every run keeps every discipline

The steps that read or change a machine keep a discipline by its laws, and evaluation is put together
from them, one expression and one statement after another.

## Main definitions

* `Discipline.Evaluates`, `Discipline.Executes` — expressions and statements keep a discipline at a
  depth.

## Main results

* `Discipline.tracks_call` — a call keeps every discipline if the statements of its body do.
* `Discipline.evaluates_executes` — evaluation and execution keep every discipline.
* `Discipline.path_program` — so does the run of a program, however it ends.
-/

namespace LoxLang

namespace Discipline

variable {d : Discipline} {α : Type} {E : Machine → Machine → Prop} {Q : Machine → α → Prop}
  {m : Machine} {scope : ScopeId} {held : List Value}

/-! ## The steps -/

open Run

lemma tracks_fault (hm : d.Holds m) (token : Token) (cause : RuntimeFault.Cause) :
    d.Tracks E Q (fault token cause) m [] := tracks_throw hm _

lemma tracks_ofExcept (hm : d.Holds m) (token : Token) {result : Except RuntimeFault.Cause α}
    (h : ∀ a, result = .ok a → Q m a) : d.Tracks Eq Q (Run.ofExcept token result) m [] := by
  cases result with
  | ok a => exact tracks_pure hm (h a rfl)
  | error cause => exact tracks_fault hm token cause

lemma tracks_lookUp (h : d.Ready m scope held) (name : Token) :
    d.Tracks Eq d.Sound (lookUp name scope) m [] := by
  have hrun := lookUp_apply m name scope
  cases hv : m.store.get? scope name.lexeme with
  | none => exact tracks_of_error (by rw [hrun, hv]) h.holds
  | some v => exact tracks_of_ok (by rw [hrun, hv]) rfl h.holds (d.sound_get h.holds h.place hv)

lemma tracks_assign {v : Value} (h : d.Ready m scope held) (hv : d.Sound m v) (name : Token) :
    d.Tracks d.Step (fun n _ => d.Sound n v) (assign name scope v) m [] := by
  have hrun := assign_apply m name scope v
  cases hp : m.store.resolve? name.lexeme scope with
  | none => exact tracks_of_error (by rw [hrun, hp]) h.holds
  | some place =>
    obtain ⟨hholds, hleads⟩ := d.define name.lexeme h.holds (d.place_resolve h.holds h.place hp) hv
    exact tracks_of_ok (by rw [hrun, hp]) ⟨.binds _ _ _, hleads⟩ hholds (d.sound_mono hleads hv)

lemma tracks_declare {v : Value} (h : d.Ready m scope held) (hv : d.Sound m v) (name : Token) :
    d.Tracks d.Step (fun _ _ => True) (declare name scope v) m [] := by
  obtain ⟨hholds, hleads⟩ := d.define name.lexeme h.holds h.place hv
  exact tracks_of_ok (declare_apply m name scope v) ⟨.binds _ _ _, hleads⟩ hholds trivial

lemma tracks_openScope (h : d.Ready m scope held) :
    d.Tracks d.Step d.Place (openScope scope) m [] := by
  obtain ⟨hholds, hleads, hplace⟩ := d.child h.holds h.place
  exact tracks_of_ok (openScope_apply m scope) ⟨.opens _, hleads⟩ hholds hplace

lemma tracks_print (hm : d.Holds m) (text : String) :
    d.Tracks d.Step (fun _ _ => True) (Run.print text) m [] := by
  obtain ⟨hholds, hleads⟩ := d.print (m.output.push text) hm
  exact tracks_of_ok (print_apply m text) ⟨.prints _, hleads⟩ hholds trivial

lemma tracks_close (h : d.Ready m scope held) (name : Token) (parameters : List Token)
    (body : Slots) :
    d.Tracks d.Step d.Sound (Run.close name parameters body scope) m [] := by
  obtain ⟨hholds, hleads, hsound⟩ := d.close name parameters body h.holds h.place
  exact tracks_of_ok (close_apply m name parameters body scope) ⟨.closes, hleads⟩ hholds hsound

lemma tracks_callNative (hm : d.Holds m) (f : Native) :
    d.Tracks d.Step d.Sound (callNative f) m [] := by
  cases f with
  | clock =>
    obtain ⟨hholds, hleads⟩ := d.tick hm
    exact tracks_of_ok (callNative_clock_apply m) ⟨.ticks, hleads⟩ hholds
      (d.sound_plain _ _ (by simp))

/-! ## The loops -/

/-- What completions hold is sound. -/
def Completes (d : Discipline) (m : Machine) (completion : Completion) : Prop :=
  ∀ v ∈ completion.held, d.Sound m v

lemma Completes.value {completion : Completion} (h : d.Completes m completion) :
    d.Sound m completion.value := by
  cases completion with
  | normal => exact d.sound_plain m _ (by simp [Completion.value])
  | returned v keyword => exact h v (by simp [Completion.held])

lemma completes_normal : d.Completes m .normal := by
  simp [Completes, Completion.held]

lemma completes_returned {v : Value} (h : d.Sound m v) (keyword : Token) :
    d.Completes m (.returned v keyword) := by
  simpa [Completes, Completion.held] using h

/-- Parameters are bound one by one. -/
lemma tracks_declareAll {names : List Token} {values : List Value} (h : d.Ready m scope held)
    (hvs : ∀ v ∈ values, d.Sound m v) :
    d.Tracks Eq (fun _ _ => True) (declareAll scope names values) m
      (traceDeclareAll scope names values m held) := by
  induction names generalizing m values with
  | nil => exact tracks_pure h.holds trivial
  | cons name names ih =>
    cases values with
    | nil => exact tracks_pure h.holds trivial
    | cons v values =>
      refine (tracks_declare h (hvs v (by simp)) name).step_bind fun _ n hn hleads _ => ?_
      have hready := h.later hn hleads
      refine ⟨hready.fits hready.place_mem, ih hready fun w hw => ?_⟩
      exact d.sound_mono hleads (hvs w (List.mem_cons_of_mem v hw))

/-- Expressions are evaluated from left to right. -/
lemma tracks_allOnto {evaluate : Expr → Run Value}
    {trace : Expr → Machine → List Value → List Moment}
    (he : ∀ e m held, d.Ready m scope held → d.Tracks Eq d.Sound (evaluate e) m (trace e m held))
    {es : List Expr} {values : List Value} (h : d.Ready m scope held)
    (hvs : ∀ v ∈ values, d.Sound m v) :
    d.Tracks Eq (fun n vs => ∀ v ∈ vs, d.Sound n v) (allOnto evaluate values es) m
      (traceAll evaluate trace es m held) := by
  induction es generalizing m held values with
  | nil => exact tracks_pure h.holds (by simpa using hvs)
  | cons e rest ih =>
    refine (he e m held h).bind fun v n hn hleads hv => ?_
    apply ih ((h.later hn hleads).hold hv)
    rintro w (_ | ⟨_, hw⟩)
    · exact hv
    · exact d.sound_mono hleads (hvs w hw)

/-- Statements are executed in order. -/
lemma tracks_sequence {execute : Stmt → Run Completion}
    {trace : Stmt → Machine → List Value → List Moment}
    (hs : ∀ st m held, d.Ready m scope held →
      d.Tracks Eq d.Completes (execute st) m (trace st m held))
    {slots : Slots} (h : d.Ready m scope held) :
    d.Tracks Eq d.Completes (sequence execute slots) m
      (traceSequence execute trace slots m held) := by
  induction slots generalizing m with
  | nil => exact tracks_pure h.holds completes_normal
  | cons slot rest ih =>
    cases slot with
    | none => exact ih h
    | some st =>
      refine (hs st m held h).bind fun completion n hn hleads hc => ?_
      cases completion with
      | normal => exact ih (h.later hn hleads)
      | returned v keyword => exact tracks_pure hn hc

/-- A loop goes round and round. -/
lemma tracks_iterate {condition : Run Value} {body : Run Completion}
    {traceCondition traceBody : Machine → List Value → List Moment}
    (hcondition : ∀ m, d.Ready m scope held →
      d.Tracks Eq d.Sound condition m (traceCondition m held))
    (hbody : ∀ m, d.Ready m scope held → d.Tracks Eq d.Completes body m (traceBody m held))
    {rounds : Nat} (h : d.Ready m scope held) :
    d.Tracks Eq d.Completes (iterate condition body rounds) m
      (traceIterate condition body traceCondition traceBody rounds m held) := by
  induction rounds generalizing m with
  | zero => exact tracks_throw h.holds _
  | succ rounds ih =>
    refine (hcondition m h).bind fun v n hn hleads _ => ?_
    have hready := h.later hn hleads
    split
    · refine (hbody n hready).bind fun completion k hk hleads' hc => ?_
      cases completion with
      | normal => exact ih (hready.later hk hleads')
      | returned v keyword => exact tracks_pure hk hc
    · exact tracks_pure hn completes_normal

/-- A call runs a body in a new scope under the scope of the function value. -/
lemma tracks_call {execute : ScopeId → Stmt → Run Completion}
    {trace : ScopeId → Stmt → Machine → List Value → List Moment}
    (hs : ∀ scope st m held, d.Ready m scope held →
      d.Tracks Eq d.Completes (execute scope st) m (trace scope st m held))
    {callee : Value} {arguments : List Value} (paren : Token) (h : d.Ready m scope held)
    (hcallee : d.Sound m callee) (hvs : ∀ v ∈ arguments, d.Sound m v) :
    d.Tracks d.Step d.Sound (call execute callee paren arguments) m
      (traceCall execute trace callee arguments m held) := by
  cases callee with
  | closure f =>
    rw [call_closure]
    unfold traceCall
    dsimp only
    split
    · have hunder := h.within (d.place_closure h.holds hcallee)
      refine (tracks_openScope hunder).step_bind fun inner n hn hleads hp => ?_
      have hready := (h.later hn hleads).within hp
      have hvs' : ∀ v ∈ arguments, d.Sound n v := fun v hv => d.sound_mono hleads (hvs v hv)
      refine ⟨hready.fits hready.place_mem, ?_⟩
      refine (tracks_declareAll hready hvs').bind fun _ k hk hleads' _ => ?_
      have hbody : d.Tracks Eq d.Completes (sequence (execute inner) f.body) k
          (traceSequence (execute inner) (trace inner) f.body k held) :=
        tracks_sequence (hs inner) (hready.later hk hleads')
      exact (hbody.map fun _ _ hc => hc.value).loose
    · exact tracks_fault h.holds paren _
  | native f =>
    rw [call_native]
    split
    · exact tracks_callNative h.holds f
    · exact tracks_fault h.holds paren _
  | nil | bool | number | string => exact tracks_fault h.holds paren _

/-! ## Evaluation -/

/-- Expressions keep a discipline at a depth. -/
def Evaluates (d : Discipline) (rounds depth : Nat) : Prop :=
  ∀ scope e m held, d.Ready m scope held →
    d.Tracks Eq d.Sound (evaluate rounds depth scope e) m (Expr.trace rounds depth scope e m held)

/-- Statements keep a discipline at a depth. -/
def Executes (d : Discipline) (rounds depth : Nat) : Prop :=
  ∀ scope st m held, d.Ready m scope held →
    d.Tracks Eq d.Completes (execute rounds depth scope st) m
      (Stmt.trace rounds depth scope st m held)

variable {rounds depth : Nat}

/-- An expression keeps a discipline if all that is nested in it does. -/
lemma evaluates_succ (he : d.Evaluates rounds depth) (hs : d.Executes rounds depth) :
    d.Evaluates rounds (depth + 1) := by
  intro scope e m held h
  refine Tracks.framed ?_ h h.place_mem rfl ?_
  · cases e with
    | literal value =>
      have hplain : d.Sound m (.ofLiteral value) :=
        d.sound_plain m _ (by cases value <;> simp [Value.ofLiteral])
      exact (tracks_pure h.holds hplain).loose
    | grouping inner => exact (he scope inner m held h).loose
    | «variable» name => exact (tracks_lookUp h name).loose
    | assign name value =>
      refine (he scope value m held h).bind_quiet fun v n hn hleads hv => ?_
      exact (tracks_assign (h.later hn hleads) hv name).map fun _ _ hv' => hv'
    | unary operator operand =>
      refine (he scope operand m held h).bind_quiet fun v n hn _ _ => ?_
      exact (tracks_ofExcept hn operator fun w hw =>
        d.sound_plain n w (Value.unary_ne_closure hw)).loose
    | binary left operator right =>
      refine (he scope left m held h).bind fun v n hn hleads hv => ?_
      have hready := (h.later hn hleads).hold hv
      refine (he scope right n _ hready).bind_quiet fun w k hk _ _ => ?_
      exact (tracks_ofExcept hk operator fun u hu =>
        d.sound_plain k u (Value.binary_ne_closure hu)).loose
    | logical left operator right =>
      refine (he scope left m held h).bind fun v n hn hleads hv => ?_
      split
      · exact (tracks_pure hn hv).loose
      · exact (he scope right n _ ((h.later hn hleads).hold hv)).loose
    | call callee paren arguments =>
      refine (he scope callee m held h).bind fun f n hn hleads hf => ?_
      have hready := (h.later hn hleads).hold hf
      refine (tracks_allOnto (he scope) hready (by simp)).bind fun vs k hk hleads' hvs => ?_
      have hheld := (hready.later hk hleads').holdAll hvs
      exact tracks_call hs paren hheld (d.sound_mono hleads' hf) hvs
  · rintro v n hv w hw
    obtain rfl : w = v := by simpa using hw
    exact hv

/-- A statement keeps a discipline if all that is nested in it does. -/
lemma executes_succ (he : d.Evaluates rounds depth) (hs : d.Executes rounds depth) :
    d.Executes rounds (depth + 1) := by
  intro scope st m held h
  refine Tracks.framed ?_ h h.place_mem rfl fun completion n hc => hc
  cases st with
  | expression value =>
    exact ((he scope value m held h).map fun _ _ _ => completes_normal).loose
  | print value =>
    refine (he scope value m held h).bind_quiet fun v n hn _ _ => ?_
    exact (tracks_print hn v.display).map fun _ _ _ => completes_normal
  | var name initial =>
    cases initial with
    | none =>
      have hnil := d.sound_plain m .nil (by simp)
      exact (tracks_declare h hnil name).map fun _ _ _ => completes_normal
    | some initial =>
      refine (he scope initial m held h).bind_quiet fun v n hn hleads hv => ?_
      exact (tracks_declare (h.later hn hleads) hv name).map fun _ _ _ => completes_normal
  | block body =>
    refine (tracks_openScope h).step_bind fun inner n hn hleads hp => ?_
    have hready := (h.later hn hleads).within hp
    exact ⟨hready.fits hready.place_mem, (tracks_sequence (hs inner) hready).loose⟩
  | branch condition whenTrue whenFalse =>
    refine (he scope condition m held h).bind fun v n hn hleads _ => ?_
    have hready := h.later hn hleads
    split
    · exact (hs scope whenTrue n held hready).loose
    · cases whenFalse with
      | none => exact (tracks_pure hn completes_normal).loose
      | some whenFalse => exact (hs scope whenFalse n held hready).loose
  | loop condition body =>
    apply Tracks.loose
    refine tracks_iterate ?_ ?_ h
    · exact fun n hready => he scope condition n held hready
    · exact fun n hready => hs scope body n held hready
  | function name parameters body =>
    refine (tracks_close h name parameters body).step_bind fun v n hn hleads hv => ?_
    have hready := h.later hn hleads
    refine ⟨(hready.hold hv).fits (by simp [Phase.scope?]), ?_⟩
    exact (tracks_declare hready hv name).map fun _ _ _ => completes_normal
  | «return» keyword value =>
    cases value with
    | none =>
      have hnil := d.sound_plain m .nil (by simp)
      exact (tracks_pure h.holds (completes_returned hnil keyword)).loose
    | some value =>
      have hmap := (he scope value m held h).map fun v n hv => completes_returned hv keyword
      exact hmap.loose

/-- **Evaluation and execution keep every discipline.**

**Proof sketch.** By induction on the depth. Each form of expression and of statement is put together
from evaluations that are nested less deeply and from steps that keep the discipline. A call goes on
in a new scope under that of the function value, which may be used since function values are
sound. -/
theorem evaluates_executes (d : Discipline) (rounds depth : Nat) :
    d.Evaluates rounds depth ∧ d.Executes rounds depth := by
  induction depth with
  | zero =>
    constructor
    · intro scope e m held h
      exact tracks_throw h.holds _
    · intro scope st m held h
      exact tracks_throw h.holds _
  | succ depth ih => exact ⟨evaluates_succ ih.1 ih.2, executes_succ ih.1 ih.2⟩

/-- **The run of a program keeps every discipline**: its moments are a way to the machine that it
leaves behind, however it ends. -/
theorem path_program {d : Discipline} (limits : Limits) (program : Slots)
    (h : d.Ready m Store.root []) :
    d.Path m (m.trace limits program) (m.interpret limits program).1 ∧
      d.Holds (m.interpret limits program).1 := by
  have hs := (evaluates_executes d limits.rounds limits.depth).2 Store.root
  have hrun : d.Tracks Eq d.Completes
      (sequence (execute limits.rounds limits.depth Store.root) program) m
      (m.trace limits program) := tracks_sequence hs h
  unfold Machine.interpret
  cases hrun with
  | @ended k n completion hr hpath hend hn hc =>
    subst hend
    rw [hr]
    cases completion <;> exact ⟨hpath, hn⟩
  | @halted n halt hr hpath hn =>
    rw [hr]
    cases halt <;> exact ⟨hpath, hn⟩

end Discipline

end LoxLang
