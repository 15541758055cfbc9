import LoxLang.Command

/-!
# The program

Reads what the command asks for and writes what it answers. At the prompt a line is answered before
the next one is read. All readings of the clock in a script or in a line are the one that was taken
when it began.
-/

open LoxLang

/-- The time in seconds on the clock of the machine. -/
def secondsNow : IO Float := do
  return Float.ofNat (← IO.monoMsNow) / 1000

/-- How many calls may nest if nothing else is asked for. -/
def callsOfHost : Nat := 1000

/-- The code of a colour on a terminal. -/
def codeOnTerminal : Paint → String
  | .red => "31"
  | .magenta => "35"

/-- Paints as terminals do, if the output goes to one and the environment does not forbid it. -/
def painterOfHost : IO Painter := do
  let terminal ← (← IO.getStdout).isTty
  if terminal && (← IO.getEnv "NO_COLOR").isNone && (← IO.getEnv "TERM") != some "dumb" then
    return fun paint text => "\x1b[1m\x1b[" ++ codeOnTerminal paint ++ "m" ++ text ++ "\x1b[0m"
  else return .plain

/-- The contents of the file at a path. -/
def contentsAt (path : String) : IO Contents := do
  try
    let bytes ← IO.FS.readBinFile path
    return .bytes bytes.toList
  catch e =>
    match e with
    | .noFileOrDirectory .. => return .unreadable "No such file or directory"
    | .permissionDenied .. => return .unreadable "Permission denied"
    | .inappropriateType .. => return .unreadable "Is a directory"
    | other => return .unreadable (toString other)

/-- Writes what a command answers, and gives its exit status. -/
def deliver (outcome : Outcome) : IO UInt32 := do
  IO.print outcome.output
  IO.eprint outcome.errors
  return UInt32.ofNat outcome.exit

/-- Answers lines until the prompt is left or the input ends. -/
partial def serve (console : Console) : IO Unit := do
  IO.print Prompt.sign
  (← IO.getStdout).flush
  let line ← (← IO.getStdin).getLine
  if line.isEmpty then IO.print "\n"
  else
    let now ← secondsNow
    let console := { console with machine := { console.machine with clock := fun _ => now } }
    let reaction := Prompt.react console line
    IO.print reaction.output
    IO.eprint reaction.errors
    if reaction.goesOn then serve reaction.console

/-- Runs the command with the arguments given. -/
def main (arguments : List String) : IO UInt32 := do
  let now ← secondsNow
  let colored ← painterOfHost
  match Command.request arguments with
  | .answer outcome => deliver outcome
  | .uncaught name =>
    IO.eprintln name
    return 1
  | .script options path =>
    let contents ← contentsAt path
    deliver (Command.script (options.limits callsOfHost) (fun _ => now) colored options path contents)
  | .prompt options =>
    IO.print Prompt.intro
    serve (Console.fresh (options.limits callsOfHost) (options.painter colored) fun _ => now)
    return 0
