import LoxLang.Command.Options
import LoxLang.Prompt
import LoxLang.Render.TokenTable
import LoxLang.Render.Tree
import LoxLang.Text.Lines
import LoxLang.Text.Utf8

/-!
# The command

The command runs a script, shows its tokens or its trees, or starts the prompt. What it reads is
handed to it, and what it writes is handed back. So are the limits of the host, what its clock tells
and how its terminal paints.

## Main definitions

* `Outcome` — the exit status of a command and what it wrote.
* `Options.limits`, `Options.painter` — what the options say about limits and colours.
* `Command.request` — what the arguments ask for.
* `Command.showTokens`, `Command.showTrees`, `Command.runSource` — what happens to a source.
* `Command.outOfStack` — what is reported if the stack runs out while trees are shown.
* `Command.script` — what happens to the contents of a script.
* `Command.prompt` — what happens to the lines of an input.
-/

namespace LoxLang

/-- The exit status of a command and what it wrote. -/
structure Outcome where
  exit : Nat
  output : String
  errors : String
deriving DecidableEq, Repr

/-- The contents of a file, or why there are none. -/
inductive Contents
  | bytes (bytes : List UInt8)
  | unreadable (reason : String)
deriving DecidableEq, Repr

/-- The wording for bytes that are no text. -/
def Utf8.Reason.message : Utf8.Reason → String
  | invalidStart => "invalid start byte"
  | invalidContinuation => "invalid continuation byte"
  | unexpectedEnd => "unexpected end of data"

/-- The wording for the place and the bytes that are no text. -/
def Utf8.Fault.message (f : Utf8.Fault) : String :=
  let blamed :=
    match f.bytes with
    | [b] =>
      "byte 0x" ++ String.ofList (Text.hexadecimal 2 b.toNat) ++ " in position " ++
        toString f.position
    | bytes =>
      "bytes in position " ++ toString f.position ++ "-" ++
        toString (f.position + bytes.length - 1)
  "'utf-8' codec can't decode " ++ blamed ++ ": " ++ f.reason.message

namespace Options

/-- The most calls that the host can be told to let nest. -/
def maxCalls : Int := 2147483647

/-- The name of the fault if the recursion limit cannot be set: there is none to compare, or it is too
large. -/
def limitFault? (options : Options) : Option String :=
  match options.recursionLimit with
  | none => some "TypeError"
  | some limit => if maxCalls < limit then some "OverflowError" else none

/-- The limits of a host that lets so many calls nest already: the recursion limit only adds. -/
def limits (options : Options) (calls : Nat) : Limits :=
  .ofCalls (max (options.recursionLimit.getD 0).toNat calls)

/-- How to paint where the terminal paints as given. -/
def painter (options : Options) (colored : Painter) : Painter :=
  if options.color then colored else .plain

end Options

namespace Command

/-- The exit status for arguments that make no sense. -/
def misuse : Nat := 64

/-- What the arguments ask for. -/
inductive Request
  /-- There is nothing to read. -/
  | answer (outcome : Outcome)
  | script (options : Options) (path : String)
  | prompt (options : Options)
  /-- The recursion limit cannot be set. The fault of that name is reported by the host, since nothing
  guards this. -/
  | uncaught (name : String)

/-- What the arguments ask for. -/
def request (arguments : List String) : Request :=
  match Options.ofArguments arguments with
  | .error .help => .answer ⟨0, Options.help, ""⟩
  | .error (.wrong message) =>
    .answer ⟨misuse, "", Options.usage ++ "lox: error: " ++ message ++ "\n"⟩
  | .ok options =>
    match options.limitFault? with
    | some name => .uncaught name
    | none =>
      match options.script with
      | some path => .script options path
      | none =>
        if options.dump.isSome then
          .answer ⟨misuse, "", "lox: --tokens and --ast need a script\n"⟩
        else .prompt options

/-- Shows the tokens of a source. -/
def showTokens (reporter : Reporter) (source : String) : Outcome :=
  let scanned := scan source
  let (reporter, errors) := reporter.complainAll (scanned.faults.map LexicalFault.complaint)
  ⟨reporter.exitCode, TokenTable.render scanned.allTokens, errors⟩

/-- Reports that the stack ran out where nothing is prepared for that. -/
def outOfStack (reporter : Reporter) : Reporter × String :=
  reporter.crash "RecursionError" "maximum recursion depth exceeded"

/-- Whether the form of a slot can be made within the limits. -/
def fits (limits : Limits) (slot : Option Stmt) : Bool := Stmt.slotTreeDepth slot ≤ limits.rendering

/-- Shows the trees of a source, one on a line. At the first one that nests too deep the stack runs
out, and no more are shown. -/
def showTrees (limits : Limits) (reporter : Reporter) (source : String) : Outcome :=
  let scanned := scan source
  match Grammar.parse limits.reading scanned.tokens with
  | .tooDeep =>
    let (reporter, errors) := reporter.fatal Console.readingTooDeep
    ⟨reporter.exitCode, "", errors⟩
  | .done program faults =>
    let (reporter, errors) := reporter.complainAll (scanned.faults.map LexicalFault.complaint ++
      faults.map (SyntaxFault.complaint scanned.lastLine))
    let output := String.join ((program.takeWhile (fits limits)).map fun slot =>
      Stmt.slotTree slot ++ "\n")
    if program.all (fits limits) then ⟨reporter.exitCode, output, errors⟩
    else
      let (reporter, overflow) := outOfStack reporter
      ⟨reporter.exitCode, output, errors ++ overflow⟩

/-- Runs a source. -/
def runSource (limits : Limits) (clock : Clock) (painter : Painter) (source : String) : Outcome :=
  let (console, answer) := (Console.fresh limits painter clock).submit source
  ⟨console.reporter.exitCode, Prompt.printed answer.output, answer.errors⟩

/-- What happens to the text of a script. -/
def source (limits : Limits) (clock : Clock) (colored : Painter) (options : Options)
    (text : String) : Outcome :=
  let painter := options.painter colored
  match options.dump with
  | some .tokens => showTokens (Reporter.fresh painter) text
  | some .tree => showTrees limits (Reporter.fresh painter) text
  | none => runSource limits clock painter text

/-- What happens to the contents of a script. -/
def script (limits : Limits) (clock : Clock) (colored : Painter) (options : Options)
    (path : String) : Contents → Outcome
  | .unreadable reason => ⟨misuse, "", "lox: cannot open '" ++ path ++ "': " ++ reason ++ "\n"⟩
  | .bytes bytes =>
    match Utf8.decode bytes with
    | .ok text => source limits clock colored options (String.ofList (Text.unifyLineEnds text))
    | .error f =>
      let (reporter, errors) :=
        (Reporter.fresh (options.painter colored)).crash "UnicodeDecodeError" f.message
      ⟨reporter.exitCode, "", errors⟩

/-- What happens to the lines of an input at the prompt. -/
def prompt (limits : Limits) (clock : Clock) (colored : Painter) (options : Options)
    (input : String) : Outcome :=
  let console := Console.fresh limits (options.painter colored) clock
  let (output, errors) := Prompt.converse console (Text.lines input)
  ⟨0, Prompt.intro ++ output, errors⟩

end Command

end LoxLang
