import LoxLang.Console
import LoxLang.Proofs.Evaluation.Lines
import LoxLang.Proofs.Grammar.Append
import LoxLang.Proofs.Scan.Newline

set_option autoImplicit false

/-!
# Two programs in one

A source that consists of two programs with a line end between them does what the two do one after
the other, but for the lines of the tokens that come from the second one.

To tell the tokens of the second program from those that the console holds already, the run of the
second program is described with *marks*: tokens from the program are on odd lines, all others on
even ones. Taking the marks off gives either the run by itself or the run behind the first program,
with the lines of the second program moved down.

## Main definitions

* `Console.Accepts` — a source is read as a program without any fault.
* `Console.conclude` — what a console and its reporter make of a run.
* `Line.old`, `Line.new`, `Line.unmark` — putting marks on lines and taking them off.
* `Console.markedRun` — the run of a program that tells its tokens from others by marks.

## Main results

* `Console.accepts_append` — two accepted programs are accepted as one.
* `Machine.interpret_append` — a program in two parts runs part by part.
* `Console.submit_append` — two programs in one do what they do one after the other.
-/

namespace LoxLang

/-! ## Programs in two parts -/

/-- Statements in two parts are executed part by part. -/
lemma Run.sequence_append (execute : Stmt → Run Completion) (program more : Slots) :
    Run.sequence execute (program ++ more) = (do
      match ← Run.sequence execute program with
      | .normal => Run.sequence execute more
      | .returned value keyword => return .returned value keyword) := by
  induction program with
  | nil => simp [sequence]
  | cons slot rest ih =>
    cases slot with
    | none => exact ih
    | some statement =>
      simp only [List.cons_append, sequence, ih, bind_assoc]
      congr 1
      funext completion
      cases completion <;> simp

/-- **A program in two parts runs part by part**: the second does not run if the first ends
early. -/
theorem Machine.interpret_append (limits : Limits) (program more : Slots) (m : Machine) :
    m.interpret limits (program ++ more) =
      match m.interpret limits program with
      | (n, .finished) => n.interpret limits more
      | early => early := by
  unfold interpret
  rw [Run.sequence_append, Run.bind_apply]
  cases Run.sequence (execute limits.rounds limits.depth Store.root) program m with
  | ok completion n => cases completion <;> rfl
  | error halt n => cases halt <;> rfl

/-! ## Marks on lines -/

namespace Line

/-- The mark of a line that is not a program's own. -/
def old (line : Nat) : Nat := 2 * line

/-- The mark of a program's own line. -/
def new (line : Nat) : Nat := 2 * line + 1

/-- Takes marks off, with a program's own lines moved down. -/
def unmark (down line : Nat) : Nat := if line % 2 = 1 then line / 2 + down else line / 2

lemma unmark_old (down : Nat) : unmark down ∘ old = id := by
  funext line
  show unmark down (2 * line) = line
  unfold unmark
  split <;> omega

lemma unmark_new (down : Nat) : unmark down ∘ new = (· + down) := by
  funext line
  show unmark down (2 * line + 1) = line + down
  unfold unmark
  split <;> omega

end Line

/-! ## What a console makes of a run -/

/-- A machine that has printed nothing. -/
def Machine.cleared (m : Machine) : Machine := { m with output := #[] }

/-- Nothing was printed before. -/
@[simp] lemma Machine.behind_empty (m : Machine) : m.behind #[] = m := by
  simp [behind]

/-- What was cleared away was printed before. -/
@[simp] lemma Machine.cleared_behind (m : Machine) : m.cleared.behind m.output = m := by
  simp [cleared, behind]

namespace Console

/-- What a console and its reporter make of a run. -/
def conclude (c : Console) (run : Machine × Ending) : Console × Answer :=
  let (machine, ending) := run
  let output := machine.output.toList
  let c := { c with machine := machine }
  match ending with
  | .finished => (c, ⟨.ok, output, ""⟩)
  | .faulted f =>
    let (reporter, errors) := c.reporter.fault f.message f.token.line
    ({ c with reporter := reporter }, ⟨.runtimeError, output, errors⟩)
  | .tooDeep => c.failed output runningTooDeep
  | .tooLong => c.failed output runningTooLong

variable {c : Console} {program : Slots}

lemma execute_eq_conclude (c : Console) (program : Slots) :
    c.execute program = c.conclude (c.machine.cleared.interpret c.limits program) := rfl

/-- What a console makes of a run has nothing to do with its machine. -/
lemma conclude_of_machine (c : Console) (m : Machine) (run : Machine × Ending) :
    { c with machine := m }.conclude run = c.conclude run := rfl

@[simp] lemma machine_conclude (c : Console) (run : Machine × Ending) :
    (c.conclude run).1.machine = run.1 := by
  obtain ⟨m, ending⟩ := run
  cases ending <;> rfl

@[simp] lemma output_conclude (c : Console) (run : Machine × Ending) :
    (c.conclude run).2.output = run.1.output.toList := by
  obtain ⟨m, ending⟩ := run
  cases ending <;> rfl

/-- The status of a run follows from how it ended. -/
lemma status_conclude (c : Console) (run : Machine × Ending) : (c.conclude run).2.status =
    match run.2 with
    | .finished => .ok
    | .faulted _ => .runtimeError
    | .tooDeep | .tooLong => .fatal := by
  obtain ⟨m, ending⟩ := run
  cases ending <;> rfl

/-- A source is read as a program without any fault. -/
def Accepts (c : Console) (source : String) (program : Slots) : Prop :=
  (scan source).faults = [] ∧
    Grammar.parse c.limits.reading (scan source).tokens = .done program []

/-- An accepted program is executed. -/
lemma submit_of_accepts {source : String} (h : c.Accepts source program) :
    c.submit source = c.execute program := by
  unfold submit
  simp [h.1, h.2]

/-- A source that nests too deep is not even read to its end. -/
lemma submit_of_tooDeep {source : String}
    (h : Grammar.parse c.limits.reading (scan source).tokens = .tooDeep) :
    c.submit source = c.failed [] readingTooDeep := by
  unfold submit
  simp [h]

/-- A source that is read is executed, unless there is something to complain about. -/
lemma submit_of_parse {source : String} {faults : List SyntaxFault}
    (h : Grammar.parse c.limits.reading (scan source).tokens = .done program faults) :
    c.submit source =
      let complaints := (scan source).faults.map LexicalFault.complaint ++
        faults.map (SyntaxFault.complaint (scan source).lastLine)
      let reported := c.reporter.complainAll (Complaint.sorted complaints)
      if complaints.isEmpty then c.execute program
      else ({ c with reporter := reported.1 }, ⟨.staticError, [], reported.2⟩) := by
  unfold submit
  simp only [h]

/-- **Two accepted programs are accepted as one**, in which the second has moved down behind the
first.

**Proof sketch.** Scanning splits at the line end, since every string of the first source is closed.
Moved tokens are read as the moved program, and programs without faults are read one after the
other. -/
theorem accepts_append {first second : String} {more : Slots} (h : c.Accepts first program)
    (h' : c.Accepts second more) :
    c.Accepts (first ++ "\n" ++ second) (program ++
      Stmt.mapSlots (Token.onLine (· + (first.toList.count '\n' + 1))) more) := by
  obtain ⟨hf, hp⟩ := h
  obtain ⟨hf', hp'⟩ := h'
  have hclosed : Scan.Closed first.toList := by
    have hnone : ∀ f ∈ Scan.faultsFrom 1 first.toList, f.cause ≠ .unterminatedString := by
      rw [← Scan.faults_scan, hf]
      simp
    exact Scan.closed_of_faults hnone
  have htext : (first ++ "\n" ++ second).toList = first.toList ++ '\n' :: second.toList := by simp
  constructor
  · rw [Scan.faults_scan, htext, Scan.faultsFrom_append_newline hclosed, Nat.add_assoc,
      Scan.faultsFrom_add, ← Scan.faults_scan, ← Scan.faults_scan, hf, hf']
    rfl
  · rw [Scan.tokens_scan, htext, Scan.tokensFrom_append_newline hclosed, Nat.add_assoc,
      Scan.tokensFrom_add, ← Scan.tokens_scan, ← Scan.tokens_scan]
    exact Grammar.parse_append hp (Grammar.parse_map (fun _ => rfl) (fun _ => rfl) hp')

/-! ## Two programs in one -/

/-- The run of a program on a console that marks the lines of all tokens by whether they come from
the program. -/
def markedRun (c : Console) (program : Slots) : Machine × Ending :=
  (c.machine.cleared.onLines Line.old).interpret c.limits
    (Stmt.mapSlots (Token.onLine Line.new) program)

/-- A marked run behind some output, with the marks taken off and the lines of the program moved
down. -/
def unmarked (down : Nat) (before : Array String) (run : Machine × Ending) : Machine × Ending :=
  ((run.1.onLines (Line.unmark down)).behind before, run.2.onLine (Line.unmark down))

/-- A run is its marked run with the marks taken off. -/
lemma unmarked_markedRun (down : Nat) (before : Array String) (c : Console) (program : Slots) :
    unmarked down before (c.markedRun program) = (c.machine.cleared.behind before).interpret c.limits
      (Stmt.mapSlots (Token.onLine (· + down)) program) := by
  have hrun := Machine.interpret_onLines_behind c.limits (Line.unmark down) before
    (Stmt.mapSlots (Token.onLine Line.new) program) (c.machine.cleared.onLines Line.old)
  rw [Stmt.mapSlots_mapSlots, Token.onLine_comp, Line.unmark_new, Machine.onLines_onLines,
    Line.unmark_old, Machine.onLines_id] at hrun
  exact hrun.symm

/-- **Two programs in one do what they do one after the other.** If the first does not end well, the
second does not run. Otherwise both ways come from one marked run of the second program on what the
first left behind: with the marks taken off where the lines of its tokens are by themselves, and
where they are below the first program. In between the output of both is put together, the status is
the same, and so are the faults and the store but for these lines.

**Proof sketch.** The source of both is accepted as the first program with the second moved down
behind it, and this runs part by part. Lines and earlier output make no difference to a run. -/
theorem submit_append {first second : String} {more : Slots} (h : c.Accepts first program)
    (h' : c.Accepts second more) :
    ((c.submit first).2.status ≠ .ok →
      c.submit (first ++ "\n" ++ second) = c.submit first) ∧
    ((c.submit first).2.status = .ok →
      let alone := c.submit first
      let next := alone.1.submit second
      let joint := c.submit (first ++ "\n" ++ second)
      let marked := alone.1.markedRun more
      let down := first.toList.count '\n' + 1
      next = alone.1.conclude (unmarked 0 #[] marked) ∧
      joint = alone.1.conclude (unmarked down alone.1.machine.output marked) ∧
      joint.2.output = alone.2.output ++ next.2.output ∧
      joint.2.status = next.2.status ∧
      (∀ fault, marked.2 = .faulted fault →
        next.2.errors =
          (c.reporter.fault fault.message (Line.unmark 0 fault.token.line)).2 ∧
        joint.2.errors =
          (c.reporter.fault fault.message (Line.unmark down fault.token.line)).2) ∧
      next.1.machine.store = marked.1.store.onLines (Line.unmark 0) ∧
      joint.1.machine.store = marked.1.store.onLines (Line.unmark down)) := by
  have hjoint := submit_of_accepts (accepts_append h h')
  have halone := submit_of_accepts h
  rw [execute_eq_conclude, Machine.interpret_append] at hjoint
  rw [execute_eq_conclude] at halone
  generalize hfirst : c.machine.cleared.interpret c.limits program = run at hjoint halone
  obtain ⟨m, ending⟩ := run
  refine ⟨fun hstatus => ?_, fun hstatus => ?_⟩
  · cases ending with
    | finished => simp [halone, status_conclude] at hstatus
    | faulted | tooDeep | tooLong => rw [hjoint, halone]
  cases ending with
  | faulted | tooDeep | tooLong => simp [halone, status_conclude] at hstatus
  | finished =>
    have hc : (c.submit first).1 = { c with machine := m } := by
      rw [halone]
      rfl
    have houtput : (c.submit first).2.output = m.output.toList := by
      rw [halone, output_conclude]
    dsimp only
    rw [hc, houtput, hjoint]
    generalize hmarked : ({ c with machine := m } : Console).markedRun more = marked
    have hnext : ({ c with machine := m } : Console).submit second =
        c.conclude (unmarked 0 #[] marked) := by
      have hzero : Stmt.mapSlots (Token.onLine (· + 0)) more = more := Stmt.mapSlots_id more
      rw [submit_of_accepts (show Accepts { c with machine := m } second more from h'),
        execute_eq_conclude, conclude_of_machine, ← hmarked, unmarked_markedRun, hzero,
        Machine.behind_empty]
    have hdown : m.interpret c.limits (Stmt.mapSlots
          (Token.onLine (· + (first.toList.count '\n' + 1))) more) =
        unmarked (first.toList.count '\n' + 1) m.output marked := by
      rw [← hmarked, unmarked_markedRun, Machine.cleared_behind]
    dsimp only
    rw [hnext, hdown, conclude_of_machine, conclude_of_machine]
    obtain ⟨n, ending⟩ := marked
    refine ⟨rfl, rfl, ?_, ?_, ?_, ?_, ?_⟩
    · simp [unmarked, Machine.behind, Machine.onLines]
    · rw [status_conclude, status_conclude]
      cases ending <;> rfl
    · rintro fault rfl
      exact ⟨rfl, rfl⟩
    · rw [machine_conclude]
      rfl
    · rw [machine_conclude]
      rfl

/-- The derivation of `var a;`. -/
def declaringA : StmtPhrase .declarations :=
  .cons (.declared ⟨⟨⟨.varWord, "var", 1⟩, rfl⟩, ⟨⟨.identifier, "a", 1⟩, rfl⟩, none,
    ⟨⟨.semicolon, ";", 1⟩, rfl⟩⟩) .nil

/-- The derivation of `print a;`. -/
def printingA : StmtPhrase .declarations :=
  .cons (.statement (.printing ⟨⟨.printWord, "print", 1⟩, rfl⟩
    (.plain (Grammar.operand (.ofCall (.ofPrimary (.named ⟨⟨.identifier, "a", 1⟩, rfl⟩)))))
    ⟨⟨.semicolon, ";", 1⟩, rfl⟩)) .nil

/-- On a fresh console, `var a;` with `print a;` behind it does what the two do one after the
other. -/
theorem submit_append_printingA :
    let c := Console.fresh ⟨9, 9, 9, 9⟩ .plain (fun _ => 0)
    let next := (c.submit "var a;").1.submit "print a;"
    let joint := c.submit ("var a;" ++ "\n" ++ "print a;")
    joint.2.output = (c.submit "var a;").2.output ++ next.2.output ∧
      joint.2.status = next.2.status := by
  intro c
  have h : c.Accepts "var a;" declaringA.tree := by
    refine ⟨by decide +kernel, ?_⟩
    have htokens : (scan "var a;").tokens = declaringA.tokens := by decide +kernel
    rw [htokens]
    exact Grammar.parse_eq_done declaringA ⟨trivial, trivial⟩ (by decide)
  have h' : c.Accepts "print a;" printingA.tree := by
    refine ⟨by decide +kernel, ?_⟩
    have htokens : (scan "print a;").tokens = printingA.tokens := by decide +kernel
    rw [htokens]
    exact Grammar.parse_eq_done printingA ⟨trivial, trivial⟩ (by decide)
  have hstatus : (c.submit "var a;").2.status = .ok := by
    rw [submit_of_accepts h, execute_eq_conclude, status_conclude]
    rfl
  obtain ⟨-, -, houtput, hend, -⟩ := (submit_append h h').2 hstatus
  exact ⟨houtput, hend⟩

end Console

end LoxLang
