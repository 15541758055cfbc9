import LoxLang.Evaluation
import LoxLang.Grammar.Program
import LoxLang.Reporter
import LoxLang.Scan

/-!
# The console

A console keeps a machine and a reporter over any number of programs. A program runs only if its
whole text is free of faults. A single line may also be a bare expression, whose value is shown.

## Main definitions

* `Console` — a machine, a reporter and the limits on a run.
* `Answer` — what one program or line brings about.
* `Console.submit` — a program.
* `Console.enter` — a line.
-/

namespace LoxLang

/-- How a program ended. -/
inductive Status
  | ok
  | staticError
  | runtimeError
  /-- It nested too deep or went on for too long. -/
  | fatal
deriving DecidableEq, Repr

/-- What one program or line brings about. -/
structure Answer where
  status : Status
  /-- What was printed, an entry for each time. -/
  output : List String
  /-- What the reporter wrote. -/
  errors : String
deriving DecidableEq, Repr

/-- A machine, a reporter and the limits on a run. -/
structure Console where
  limits : Limits
  machine : Machine
  reporter : Reporter

/-- Complaints in the order of their lines; those on one line keep their order. -/
def Complaint.sorted (complaints : List Complaint) : List Complaint :=
  complaints.mergeSort fun a b => decide (a.line ≤ b.line)

namespace Console

/-- A console on which nothing has run yet. -/
def fresh (limits : Limits) (painter : Painter) (clock : Clock) : Console :=
  ⟨limits, Machine.initial clock, Reporter.fresh painter⟩

/-- Answers that something ended more than a run. -/
def failed (c : Console) (output : List String) (message : String) : Console × Answer :=
  let (reporter, errors) := c.reporter.fatal message
  ({ c with reporter := reporter }, ⟨.fatal, output, errors⟩)

/-- The message for text that nests too deep. -/
def readingTooDeep : String := "Stack overflow while parsing."

/-- The message for a run that nests too deep. -/
def runningTooDeep : String := "Stack overflow."

/-- The message for a loop that goes round too often. -/
def runningTooLong : String := "Loop limit reached."

/-- Runs a program that has been read. -/
def execute (c : Console) (program : Slots) : Console × Answer :=
  let (machine, ending) := { c.machine with output := #[] }.interpret c.limits program
  let output := machine.output.toList
  let c := { c with machine := machine }
  match ending with
  | .finished => (c, ⟨.ok, output, ""⟩)
  | .faulted f =>
    let (reporter, errors) := c.reporter.fault f.message f.token.line
    ({ c with reporter := reporter }, ⟨.runtimeError, output, errors⟩)
  | .tooDeep => c.failed output runningTooDeep
  | .tooLong => c.failed output runningTooLong

/-- Scans, reads and runs a program. Nothing runs if anything is wrong with its text. -/
def submit (c : Console) (source : String) : Console × Answer :=
  let scanned := scan source
  match Grammar.parse c.limits.reading scanned.tokens with
  | .tooDeep => c.failed [] readingTooDeep
  | .done program faults =>
    let complaints := scanned.faults.map LexicalFault.complaint ++
      faults.map (SyntaxFault.complaint scanned.lastLine)
    if complaints.isEmpty then c.execute program
    else
      let (reporter, errors) := c.reporter.complainAll (Complaint.sorted complaints)
      ({ c with reporter := reporter }, ⟨.staticError, [], errors⟩)

/-- The expression that a line consists of, if it is one without any fault. -/
def bare (limits : Limits) (line : String) : Parsed (Option Expr) :=
  let scanned := scan line
  if scanned.faults.isEmpty then
    match Grammar.parseExpression limits.reading scanned.tokens with
    | .done (some e) [] => .done (some e) []
    | .done _ _ => .done none []
    | .tooDeep => .tooDeep
  else .done none []

/-- Shows the value of a line that is a bare expression, and runs any other line as a program. In
both cases nothing is left of errors and run-time faults. -/
def enter (c : Console) (line : String) : Console × Answer :=
  let (c, answer) :=
    match bare c.limits line with
    | .done (some e) _ => c.execute [some (.print e)]
    | .done none _ => c.submit line
    | .tooDeep => c.failed [] readingTooDeep
  ({ c with reporter := c.reporter.reset }, answer)

end Console

end LoxLang
