import LoxLang.Fault

/-!
# Reporting what went wrong

A reporter writes faults for people to read and remembers which sorts of them it has seen; from that
follows the status with which a program ends. How it paints what it writes is up to the terminal.

## Main definitions

* `Painter` — how a text is painted.
* `Reporter` — the flags, and how to paint.
* `Reporter.complain`, `Reporter.fault`, `Reporter.fatal` — the three things it can write.
* `Reporter.exitCode` — the status that the flags amount to.
* `Abort`, `Reporter.absorb` — how a guarded run may break off, and what is reported of it.
-/

namespace LoxLang

/-- The colours in use. -/
inductive Paint
  | red
  | magenta
deriving DecidableEq, Repr

/-- How a bold text is painted in a colour. -/
abbrev Painter := Paint → String → String

/-- Texts as they are. -/
def Painter.plain : Painter := fun _ text => text

/-- How to paint, and which sorts of fault have been reported. -/
structure Reporter where
  painter : Painter
  hadError : Bool
  hadRuntimeFault : Bool
  hadFatal : Bool

/-- How a guarded run may break off. -/
inductive Abort
  /-- The program asked to end. -/
  | quit
  /-- It was interrupted from outside. -/
  | interrupted
  | fatal (message : String)
  | fault (message : String) (line : Int)
  /-- Something that has no other place, by its name and its message. -/
  | crashed (name message : String)
deriving DecidableEq, Repr

namespace Reporter

/-- A reporter that has seen nothing. -/
def fresh (painter : Painter) : Reporter := ⟨painter, false, false, false⟩

/-- Reports a complaint about the text of a program. -/
def complain (r : Reporter) (c : Complaint) : Reporter × String :=
  ({ r with hadError := true },
    "[line " ++ toString c.line ++ "] " ++ r.painter .red ("Error" ++ c.place) ++ ": " ++ c.message ++
      "\n")

/-- Reports complaints in order. -/
def complainAll (r : Reporter) : List Complaint → Reporter × String
  | [] => (r, "")
  | c :: rest =>
    let (r, text) := r.complain c
    let (r, texts) := r.complainAll rest
    (r, text ++ texts)

/-- Reports a fault that ended a run, and the line on which it arose. -/
def fault (r : Reporter) (message : String) (line : Int) : Reporter × String :=
  ({ r with hadRuntimeFault := true },
    r.painter .red message ++ "\n[line " ++ toString line ++ "]\n")

/-- Reports something that ends more than a run. -/
def fatal (r : Reporter) (message : String) : Reporter × String :=
  ({ r with hadFatal := true }, r.painter .magenta "fatal: " ++ message ++ "\n")

/-- Reports something that has no other place, by its name and its message. -/
def crash (r : Reporter) (name message : String) : Reporter × String :=
  r.fatal ("internal error: '" ++ name ++ ": " ++ message ++ "'")

/-- Forgets errors and run-time faults, but nothing fatal. -/
def reset (r : Reporter) : Reporter := { r with hadError := false, hadRuntimeFault := false }

/-- The status of a program that ends now. Errors in its text outweigh the rest. -/
def exitCode (r : Reporter) : Nat :=
  if r.hadError then 65 else if r.hadRuntimeFault || r.hadFatal then 70 else 0

/-- Reports that a guarded run broke off, unless the program asked to end: that goes through. -/
def absorb (r : Reporter) : Abort → Option (Reporter × String)
  | .quit => none
  | .interrupted => some (r.fatal "keyboard interrupt")
  | .fatal message => some (r.fatal message)
  | .fault message line => some (r.fault message line)
  | .crashed name message => some (r.crash name message)

end Reporter

end LoxLang
