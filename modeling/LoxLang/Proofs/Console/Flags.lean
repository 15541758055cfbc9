import LoxLang.Proofs.Console.Complaints
import LoxLang.Proofs.Console.Scopes

set_option autoImplicit false

/-!
# The flags of a session

A session gives a console programs and lines and now and then makes its reporter forget. The flags
of the reporter always tell what has happened since it last forgot, and that anything fatal happened
at all. Nothing that breaks a step off leaves the session: what is fatal ends the step alone.

A step is guarded from outside. A line makes the reporter forget when it ends, also if something
breaks it off, and only behind that does the guard report what broke it off. That is described by
*attempts*, steps without a guard, which end or break off; guarding them gives what a console does.

## Main definitions

* `Console.Step`, `Console.perform` — a step of a session, and what a console makes of it.
* `Console.Attempt`, `Console.attempt` — a step without a guard.
* `Console.Attempt.guarded` — what the guard makes of it.
* `Console.session` — the steps of a session with what came of them.
* `Console.complaints` — what is wrong with a text.
* `Console.Remembered` — a program ended in a way, and only programs came after it.

## Main results

* `Console.guarded_attempt` — nothing breaks out of a step, and guarding it is what a console does.
* `Console.reporter_submit`, `Console.reporter_enter` — what a step does to the flags.
* `Console.session_flags` — the flags tell the truth over any session.
-/

namespace LoxLang

/-! ## What is written -/

lemma Complaint.sorted_eq_nil_iff {complaints : List Complaint} :
    sorted complaints = [] ↔ complaints = [] := by
  rw [← List.length_eq_zero_iff, sorted, List.length_mergeSort, List.length_eq_zero_iff]

namespace Reporter

/-- A complaint is not reported by silence. -/
lemma complain_ne_empty (r : Reporter) (c : Complaint) : (r.complain c).2 ≠ "" := by
  simp [complain]

/-- Complaints are reported by silence only if there are none. -/
lemma complainAll_eq_empty_iff {r : Reporter} {complaints : List Complaint} :
    (r.complainAll complaints).2 = "" ↔ complaints = [] := by
  cases complaints with
  | nil => simp [complainAll]
  | cons c rest => simp [complainAll, complain_ne_empty]

/-- A fault is not reported by silence. -/
lemma fault_ne_empty (r : Reporter) (message : String) (line : Int) :
    (r.fault message line).2 ≠ "" := by
  simp [fault]

/-- What is fatal is not reported by silence. -/
lemma fatal_ne_empty (r : Reporter) (message : String) : (r.fatal message).2 ≠ "" := by
  simp [fatal]

/-- A reporter that has also seen how a program ended. -/
def seen (r : Reporter) : Status → Reporter
  | .ok => r
  | .staticError => { r with hadError := true }
  | .runtimeError => { r with hadRuntimeFault := true }
  | .fatal => { r with hadFatal := true }

end Reporter

namespace Console

/-! ## Steps -/

/-- A step of a session: the console is given something, or its reporter forgets. -/
inductive Step
  | input (input : Input)
  | reset

/-- Whether a step is a program, after which the reporter does not forget. -/
def Step.isProgram : Step → Bool
  | .input (.program _) => true
  | _ => false

/-- What a console makes of a step. Forgetting is answered by nothing. -/
def perform (c : Console) : Step → Console × Answer
  | .input input => c.take input
  | .reset => ({ c with reporter := c.reporter.reset }, ⟨.ok, [], ""⟩)

/-! ## Attempts -/

/-- A step without a guard: what it leaves behind, what it printed and reported, and how it ended or
what broke it off. -/
structure Attempt where
  console : Console
  output : List String
  errors : String
  ending : Except Abort Status

/-- A run of a program that has been read. Nesting too deep breaks it off. -/
def attemptRun (c : Console) (program : Slots) : Attempt :=
  let (machine, ending) := c.machine.cleared.interpret c.limits program
  let output := machine.output.toList
  let c := { c with machine := machine }
  match ending with
  | .finished => ⟨c, output, "", .ok .ok⟩
  | .faulted f =>
    let (reporter, errors) := c.reporter.fault f.message f.token.line
    ⟨{ c with reporter := reporter }, output, errors, .ok .runtimeError⟩
  | .tooDeep => ⟨c, output, "", .error (.fatal runningTooDeep)⟩
  | .tooLong => ⟨c, output, "", .error (.fatal runningTooLong)⟩

/-- A program that is scanned, read and run. Text that nests too deep breaks it off. -/
def attemptSource (c : Console) (source : String) : Attempt :=
  match Grammar.parse c.limits.reading (scan source).tokens with
  | .tooDeep => ⟨c, [], "", .error (.fatal readingTooDeep)⟩
  | .done program faults =>
    let complaints := (scan source).faults.map LexicalFault.complaint ++
      faults.map (SyntaxFault.complaint (scan source).lastLine)
    if complaints.isEmpty then c.attemptRun program
    else
      let (reporter, errors) := c.reporter.complainAll (Complaint.sorted complaints)
      ⟨{ c with reporter := reporter }, [], errors, .ok .staticError⟩

/-- Makes the reporter forget, however an attempt went. -/
def Attempt.finally (a : Attempt) : Attempt :=
  { a with console := { a.console with reporter := a.console.reporter.reset } }

/-- A step without a guard. -/
def attempt (c : Console) : Step → Attempt
  | .input (.program source) => c.attemptSource source
  | .input (.line text) =>
    Attempt.finally <|
      match bare c.limits text with
      | .done (some e) _ => c.attemptRun [some (.print e)]
      | .done none _ => c.attemptSource text
      | .tooDeep => ⟨c, [], "", .error (.fatal readingTooDeep)⟩
  | .reset => ⟨{ c with reporter := c.reporter.reset }, [], "", .ok .ok⟩

/-- What the guard makes of an attempt: it reports what broke it off, or lets that through. -/
def Attempt.guarded (a : Attempt) : Option (Console × Answer) :=
  match a.ending with
  | .ok status => some (a.console, ⟨status, a.output, a.errors⟩)
  | .error abort => (a.console.reporter.absorb abort).map fun (reporter, text) =>
    ({ a.console with reporter := reporter }, ⟨.fatal, a.output, a.errors ++ text⟩)

variable {c : Console}

/-- A run under a guard is what a console makes of it. -/
lemma guarded_attemptRun (c : Console) (program : Slots) :
    (c.attemptRun program).guarded = some (c.execute program) := by
  rw [execute_eq_conclude]
  unfold attemptRun
  obtain ⟨m, ending⟩ := c.machine.cleared.interpret c.limits program
  cases ending with
  | finished | faulted => rfl
  | tooDeep | tooLong =>
    simp [Attempt.guarded, Reporter.absorb, conclude, failed]

/-- A program under a guard is what a console makes of it. -/
lemma guarded_attemptSource (c : Console) (source : String) :
    (c.attemptSource source).guarded = some (c.submit source) := by
  cases hread : Grammar.parse c.limits.reading (scan source).tokens with
  | tooDeep =>
    rw [submit_of_tooDeep hread]
    simp [attemptSource, hread, Attempt.guarded, Reporter.absorb, failed]
  | done program faults =>
    rw [submit_of_parse hread]
    simp only [attemptSource, hread]
    split
    · exact guarded_attemptRun c program
    · rfl

/-- Nothing but what is fatal breaks an attempt off. -/
def Attempt.OnlyFatal (a : Attempt) : Prop :=
  ∀ abort, a.ending = .error abort → ∃ message, abort = .fatal message

lemma onlyFatal_attemptRun (c : Console) (program : Slots) : (c.attemptRun program).OnlyFatal := by
  unfold attemptRun
  obtain ⟨m, ending⟩ := c.machine.cleared.interpret c.limits program
  cases ending with
  | finished | faulted => simp [Attempt.OnlyFatal]
  | tooDeep | tooLong =>
    rintro abort ⟨⟩
    exact ⟨_, rfl⟩

lemma onlyFatal_attemptSource (c : Console) (source : String) :
    (c.attemptSource source).OnlyFatal := by
  unfold attemptSource
  cases Grammar.parse c.limits.reading (scan source).tokens with
  | tooDeep =>
    rintro abort ⟨⟩
    exact ⟨_, rfl⟩
  | done program faults =>
    dsimp only
    split
    · exact onlyFatal_attemptRun c program
    · simp [Attempt.OnlyFatal]

/-- What is fatal may be reported before the reporter forgets or after it: what it writes is the
same, and it does not forget what is fatal. -/
lemma guarded_finally {a : Attempt} (h : a.OnlyFatal) :
    a.finally.guarded = a.guarded.map fun (c, answer) =>
      ({ c with reporter := c.reporter.reset }, answer) := by
  obtain ⟨c, output, errors, ending⟩ := a
  cases ending with
  | ok status => rfl
  | error abort =>
    obtain ⟨message, rfl⟩ := h abort rfl
    rfl

/-- **Nothing breaks out of a step**, and guarding steps is what a console does. -/
theorem guarded_attempt (c : Console) (step : Step) :
    (c.attempt step).guarded = some (c.perform step) := by
  cases step with
  | reset => rfl
  | input input =>
    cases input with
    | program source => exact guarded_attemptSource c source
    | line text =>
      show _ = some (c.enter text)
      unfold attempt enter
      dsimp only
      cases bare c.limits text with
      | tooDeep =>
        rw [guarded_finally (by rintro abort ⟨⟩; exact ⟨_, rfl⟩)]
        simp [Attempt.guarded, Reporter.absorb, failed]
      | done e faults =>
        cases e with
        | some e =>
          rw [guarded_finally (onlyFatal_attemptRun _ _), guarded_attemptRun]
          rfl
        | none =>
          rw [guarded_finally (onlyFatal_attemptSource _ _), guarded_attemptSource]
          rfl

/-! ## What is wrong with a text -/

/-- What is wrong with a text: first what scanning finds, then what parsing finds. -/
def complaints (source : String) (faults : List SyntaxFault) : List Complaint :=
  (scan source).faults.map LexicalFault.complaint ++
    faults.map (SyntaxFault.complaint (scan source).lastLine)

variable {source : String} {program : Slots} {faults : List SyntaxFault}

/-- A program in whose text something is wrong is reported. -/
lemma submit_of_complaints
    (h : Grammar.parse c.limits.reading (scan source).tokens = .done program faults)
    (hwrong : complaints source faults ≠ []) :
    c.submit source =
      let reported := c.reporter.complainAll (Complaint.sorted (complaints source faults))
      ({ c with reporter := reported.1 }, ⟨.staticError, [], reported.2⟩) := by
  rw [submit_of_parse h]
  exact if_neg (mt List.isEmpty_iff.1 hwrong)

/-- A program in whose text nothing is wrong is executed. -/
lemma submit_of_no_complaints
    (h : Grammar.parse c.limits.reading (scan source).tokens = .done program faults)
    (hright : complaints source faults = []) : c.submit source = c.execute program := by
  rw [submit_of_parse h]
  exact if_pos (List.isEmpty_iff.2 hright)

/-! ## What a step does to the flags -/

/-- What came of a program is told by the flags: the reporter has seen how it ended, and it wrote
something exactly if it did not end well. -/
structure Told (r : Reporter) (result : Console × Answer) : Prop where
  reporter_eq : result.1.reporter = r.seen result.2.status
  errors_eq : result.2.errors = "" ↔ result.2.status = .ok

/-- What is fatal is told. -/
lemma told_failed (c : Console) (output : List String) (message : String) :
    Told c.reporter (c.failed output message) := by
  refine ⟨rfl, ?_⟩
  simp [failed, Reporter.fatal_ne_empty]

/-- What came of a run is told. -/
lemma told_execute (c : Console) (program : Slots) : Told c.reporter (c.execute program) := by
  rw [execute_eq_conclude]
  obtain ⟨m, ending⟩ := c.machine.cleared.interpret c.limits program
  cases ending with
  | finished => exact ⟨rfl, by simp [conclude]⟩
  | faulted f => exact ⟨rfl, by simp [conclude, Reporter.fault_ne_empty]⟩
  | tooDeep | tooLong => exact told_failed { c with machine := m } m.output.toList _

/-- **What came of a program is told.** -/
theorem told_submit (c : Console) (source : String) : Told c.reporter (c.submit source) := by
  cases hread : Grammar.parse c.limits.reading (scan source).tokens with
  | tooDeep =>
    rw [submit_of_tooDeep hread]
    exact told_failed c [] readingTooDeep
  | done program faults =>
    by_cases hwrong : complaints source faults = []
    · rw [submit_of_no_complaints hread hwrong]
      exact told_execute c program
    · rw [submit_of_complaints hread hwrong]
      have hsorted := mt Complaint.sorted_eq_nil_iff.1 hwrong
      refine ⟨?_, ?_⟩
      · rw [Reporter.complainAll_eq, if_neg hsorted]
        rfl
      · simp [Reporter.complainAll_eq_empty_iff, hsorted]

/-- What came of a line is told, and then forgotten unless it was fatal. -/
lemma exists_told_enter (c : Console) (line : String) :
    ∃ result, Told c.reporter result ∧
      c.enter line = ({ result.1 with reporter := result.1.reporter.reset }, result.2) := by
  unfold enter
  cases bare c.limits line with
  | tooDeep => exact ⟨_, told_failed c [] readingTooDeep, rfl⟩
  | done e faults =>
    cases e with
    | some e => exact ⟨_, told_execute c [some (.print e)], rfl⟩
    | none => exact ⟨_, told_submit c line, rfl⟩

/-- **What a step does to the flags.** The reporter has seen how the step ended, and then it forgets
unless the step was a program. It wrote something exactly if the step did not end well. -/
theorem perform_flags (c : Console) (step : Step) :
    (c.perform step).1.reporter =
      (if step.isProgram then c.reporter.seen (c.perform step).2.status
        else (c.reporter.seen (c.perform step).2.status).reset) ∧
    ((c.perform step).2.errors = "" ↔ (c.perform step).2.status = .ok) := by
  cases step with
  | reset => exact ⟨rfl, by simp [perform]⟩
  | input input =>
    cases input with
    | program source => exact ⟨(told_submit c source).reporter_eq, (told_submit c source).errors_eq⟩
    | line text =>
      obtain ⟨result, htold, henter⟩ := exists_told_enter c text
      have hperform : c.perform (.input (.line text)) = c.enter text := rfl
      rw [hperform, henter]
      refine ⟨?_, htold.errors_eq⟩
      rw [htold.reporter_eq]
      rfl

/-! ## Sessions -/

/-- A step of a session and what came of it. -/
structure Entry where
  before : Console
  step : Step
  answer : Answer
  after : Console

/-- The steps of a session with what came of them, one after another. -/
def session (c : Console) : List Step → List Entry
  | [] => []
  | step :: rest =>
    let (after, answer) := c.perform step
    ⟨c, step, answer, after⟩ :: after.session rest

/-- A console after a session. -/
def performAll (c : Console) (steps : List Step) : Console :=
  steps.foldl (fun c step => (c.perform step).1) c

/-- In a session a program ended in a way, and only programs came after it. -/
def Remembered (log : List Entry) (status : Status) : Prop :=
  ∃ earlier entry later, log = earlier ++ entry :: later ∧ entry.answer.status = status ∧
    ∀ e ∈ entry :: later, e.step.isProgram = true

variable {log : List Entry} {entry : Entry} {status : Status}

lemma performAll_append (c : Console) (first later : List Step) :
    c.performAll (first ++ later) = (c.performAll first).performAll later := List.foldl_append

/-- Later steps of a session go on from the console that earlier ones left behind. -/
lemma session_append (c : Console) (first later : List Step) :
    c.session (first ++ later) = c.session first ++ (c.performAll first).session later := by
  induction first generalizing c with
  | nil => rfl
  | cons step rest ih =>
    show _ :: (c.perform step).1.session (rest ++ later) = _
    rw [ih]
    rfl

/-- What came of the last step comes last. -/
lemma session_concat (c : Console) (steps : List Step) (step : Step) :
    c.session (steps ++ [step]) = c.session steps ++
      [⟨c.performAll steps, step, ((c.performAll steps).perform step).2,
        ((c.performAll steps).perform step).1⟩] :=
  session_append c steps [step]

lemma performAll_concat (c : Console) (steps : List Step) (step : Step) :
    c.performAll (steps ++ [step]) = ((c.performAll steps).perform step).1 :=
  performAll_append c steps [step]

/-- Nothing is remembered of nothing. -/
lemma not_remembered_nil : ¬ Remembered [] status := by
  rintro ⟨earlier, e, later, heq, -⟩
  simp at heq

/-- Behind a program, that is remembered which was so in front of it, and how it ended. -/
lemma remembered_concat : Remembered (log ++ [entry]) status ↔
    entry.step.isProgram = true ∧ (entry.answer.status = status ∨ Remembered log status) := by
  constructor
  · rintro ⟨earlier, e, later, heq, hstatus, hprograms⟩
    rcases later.eq_nil_or_concat with rfl | ⟨later, last, rfl⟩
    · obtain ⟨-, hlast⟩ := List.append_inj' heq rfl
      obtain rfl : entry = e := List.singleton_inj.1 hlast
      exact ⟨hprograms entry List.mem_cons_self, .inl hstatus⟩
    · rw [List.concat_eq_append] at heq hprograms
      rw [← List.cons_append, ← List.append_assoc] at heq
      obtain ⟨rfl, hlast⟩ := List.append_inj' heq rfl
      obtain rfl : entry = last := List.singleton_inj.1 hlast
      refine ⟨hprograms entry (by simp), .inr ⟨earlier, e, later, rfl, hstatus, fun e he => ?_⟩⟩
      apply hprograms
      rw [← List.cons_append]
      exact List.mem_append_left _ he
  · rintro ⟨hprogram, hstatus | ⟨earlier, e, later, rfl, hstatus, hprograms⟩⟩
    · exact ⟨log, entry, [], rfl, hstatus, by simpa using hprogram⟩
    · refine ⟨earlier, e, later ++ [entry], by simp, hstatus, ?_⟩
      rw [← List.cons_append]
      simpa [or_imp, forall_and, hprogram] using hprograms

/-- What is remembered is how the programs ended with which a session closes. -/
lemma remembered_iff : Remembered log status ↔
    (log.reverse.takeWhile (·.step.isProgram)).any (·.answer.status = status) = true := by
  induction log using List.reverseRecOn with
  | nil => exact iff_of_false not_remembered_nil (by simp)
  | append_singleton log entry ih =>
    rw [remembered_concat, ih, List.reverse_concat]
    cases h : entry.step.isProgram <;> simp [h]

instance : Decidable (Remembered log status) := decidable_of_iff _ remembered_iff.symm

/-- The flags of a reporter tell what a session was like. -/
structure Truthful (r : Reporter) (log : List Entry) : Prop where
  hadError_iff : r.hadError = true ↔ Remembered log .staticError
  hadRuntimeFault_iff : r.hadRuntimeFault = true ↔ Remembered log .runtimeError
  hadFatal_iff : r.hadFatal = true ↔ ∃ e ∈ log, e.answer.status = .fatal

/-- **A step keeps the flags truthful.** -/
theorem Truthful.perform (h : Truthful c.reporter log) (step : Step) :
    Truthful (c.perform step).1.reporter
      (log ++ [⟨c, step, (c.perform step).2, (c.perform step).1⟩]) := by
  obtain ⟨herror, hfault, hfatal⟩ := h
  have hflags := (perform_flags c step).1
  generalize c.perform step = result at hflags ⊢
  obtain ⟨after, answer⟩ := result
  dsimp only at hflags ⊢
  rw [hflags]
  refine ⟨?_, ?_, ?_⟩
  · rw [remembered_concat, ← herror]
    cases step.isProgram <;> cases answer.status <;> simp [Reporter.seen, Reporter.reset]
  · rw [remembered_concat, ← hfault]
    cases step.isProgram <;> cases answer.status <;> simp [Reporter.seen, Reporter.reset]
  · simp only [List.mem_append, List.mem_singleton, or_and_right, exists_or, exists_eq_left,
      ← hfatal]
    cases step.isProgram <;> cases answer.status <;> simp [Reporter.seen, Reporter.reset]

/-- The flags of a console that starts fresh are truthful after any session. -/
lemma truthful_performAll (limits : Limits) (painter : Painter) (clock : Clock) (steps : List Step) :
    Truthful ((fresh limits painter clock).performAll steps).reporter
      ((fresh limits painter clock).session steps) := by
  induction steps using List.reverseRecOn with
  | nil =>
    refine ⟨?_, ?_, ?_⟩
    · exact iff_of_false Bool.false_ne_true not_remembered_nil
    · exact iff_of_false Bool.false_ne_true not_remembered_nil
    · exact iff_of_false Bool.false_ne_true (by simp [session])
  | append_singleton steps step ih =>
    rw [session_concat, performAll_concat]
    exact ih.perform step

/-- A session is told step by step. -/
lemma map_step_session (c : Console) (steps : List Step) :
    (c.session steps).map Entry.step = steps := by
  induction steps generalizing c with
  | nil => rfl
  | cons step rest ih => exact congrArg (step :: ·) (ih _)

/-- What came of a step in a session is what a console makes of it. -/
lemma perform_of_mem_session {steps : List Step} (h : entry ∈ c.session steps) :
    entry.before.perform entry.step = (entry.after, entry.answer) := by
  induction steps generalizing c with
  | nil => simp [session] at h
  | cons step rest ih =>
    rcases List.mem_cons.1 h with rfl | h
    · rfl
    · exact ih h

/-- **The flags tell the truth over any session.** On a console that starts fresh, after any steps:
there was an error exactly if a program ended with one in its text and only programs came after it,
there was a run-time fault exactly if a program ended with one and only programs came after it, and
something was fatal exactly if any step ended with that. The exit status follows from the flags. Every
step ended under its guard, from which nothing broke out, and wrote something exactly if it did not
end well; forgetting writes nothing.

**Proof sketch.** By induction on the session from its end. A reporter has seen how each step ended,
and forgets unless the step was a program; what is fatal it does not forget, so it makes no difference
that the guard reports that last. -/
theorem session_flags (limits : Limits) (painter : Painter) (clock : Clock) (steps : List Step) :
    let log := (fresh limits painter clock).session steps
    let r := ((fresh limits painter clock).performAll steps).reporter
    log.map Entry.step = steps ∧
    (r.hadError = true ↔ Remembered log .staticError) ∧
    (r.hadRuntimeFault = true ↔ Remembered log .runtimeError) ∧
    (r.hadFatal = true ↔ ∃ e ∈ log, e.answer.status = .fatal) ∧
    r.exitCode = (if r.hadError then 65 else if r.hadRuntimeFault || r.hadFatal then 70 else 0) ∧
    ∀ e ∈ log, (e.before.attempt e.step).guarded = some (e.after, e.answer) ∧
      (e.answer.errors ≠ "" ↔ e.answer.status ≠ .ok) ∧
      (e.step = .reset → e.answer.errors = "") := by
  intro log r
  obtain ⟨herror, hfault, hfatal⟩ := truthful_performAll limits painter clock steps
  refine ⟨map_step_session _ steps, herror, hfault, hfatal, rfl, fun e he => ?_⟩
  have hperform := perform_of_mem_session he
  have hwrites := (perform_flags e.before e.step).2
  rw [hperform] at hwrites
  refine ⟨hperform ▸ guarded_attempt e.before e.step, not_congr hwrites, fun hreset => ?_⟩
  rw [hreset] at hperform
  exact congrArg (fun result => result.2.errors) hperform.symm

/-- A stray character, a fault on a line, text that nests too deep and a fault of a program: the first
two are forgotten after the line, what is fatal is not, and the last one is remembered. -/
theorem session_flags_forgotten :
    let steps : List Step := [.input (.program "print @;"), .input (.line "-nil"),
      .input (.program "((((1))));"), .input (.program "-nil;")]
    let log := (fresh ⟨6, 9, 9, 9⟩ .plain (fun _ => 0)).session steps
    let r := ((fresh ⟨6, 9, 9, 9⟩ .plain (fun _ => 0)).performAll steps).reporter
    log.map (fun e => e.answer.status) = [.staticError, .runtimeError, .fatal, .runtimeError] ∧
      r.hadError = false ∧ r.hadRuntimeFault = true ∧ r.exitCode = 70 ∧
      ∀ e ∈ log, e.answer.errors ≠ "" := by
  intro steps log r
  have hstatus : log.map (fun e => e.answer.status) =
      [.staticError, .runtimeError, .fatal, .runtimeError] := by decide +kernel
  have hforgotten : ¬ Remembered log .staticError := by decide +kernel
  have hremembered : Remembered log .runtimeError := by decide +kernel
  obtain ⟨-, herror, hfault, -, hexit, hsteps⟩ := session_flags ⟨6, 9, 9, 9⟩ .plain (fun _ => 0) steps
  have hquiet : r.hadError = false := by
    rw [← Bool.not_eq_true, herror]
    exact hforgotten
  have hloud : r.hadRuntimeFault = true := hfault.2 hremembered
  refine ⟨hstatus, hquiet, hloud, ?_, fun e he => ?_⟩
  · rw [hexit]
    simp [r, hquiet, hloud]
  · apply (hsteps e he).2.1.2
    intro hok
    have hmem : Status.ok ∈ log.map (fun e => e.answer.status) :=
      List.mem_map.2 ⟨e, he, hok⟩
    rw [hstatus] at hmem
    contradiction

end Console

end LoxLang
