import LoxLang.Console
import LoxLang.Text.Blank

/-!
# The prompt

Lines are entered into a console one after another. A line that begins with the word "help" or a
question mark shows a short text instead, one that begins with the word "EOF" ends the prompt, and
an empty line does nothing.

## Main definitions

* `Prompt.Line` — what a line asks for.
* `Prompt.Reaction` — what a line brings about.
* `Prompt.converse` — a whole conversation.
-/

namespace LoxLang.Prompt

/-- What a line asks for. -/
inductive Line
  | nothing
  | help
  | leave
  | source (text : String)
deriving DecidableEq, Repr

/-- What a command word is made of. -/
def inWord (c : Char) : Bool := c.isAlphanum || c == '_'

/-- What a line asks for. Blanks around it do not count, and a command is a whole word. -/
def Line.ofText (text : String) : Line :=
  let bare := Text.trim text.toList
  match bare with
  | [] => nothing
  | '?' :: _ => help
  | _ =>
    let word := String.ofList (bare.takeWhile inWord)
    if word == "help" then help
    else if word == "EOF" then leave
    else source (String.ofList bare)

/-- What is shown before the first line. -/
def intro : String :=
  "Lox interpreter :: Python backend\nType 'help' for more information, Ctrl-D to exit.\n"

/-- What is shown in front of each line. -/
def sign : String := "> "

/-- What is shown on request. -/
def helpText : String :=
  "Type Lox declarations and statements, e.g. 'var a = 1; print a + 2;'.\n" ++
  "A bare expression such as 'a * 2' is evaluated and its value printed.\n" ++
  "Variables and functions persist between lines.\n"

/-- What a line brings about: the console after it, and what it writes. -/
structure Reaction where
  console : Console
  output : String
  errors : String
  /-- Whether the prompt goes on. -/
  goesOn : Bool

/-- Printed entries, each on a line of its own. -/
def printed (entries : List String) : String := String.join (entries.map (· ++ "\n"))

/-- What a line brings about. -/
def react (c : Console) (line : String) : Reaction :=
  match Line.ofText line with
  | .nothing => ⟨c, "", "", true⟩
  | .help => ⟨c, helpText, "", true⟩
  | .leave => ⟨c, "\n", "", false⟩
  | .source text =>
    let (c, answer) := c.enter text
    ⟨c, printed answer.output, answer.errors, true⟩

/-- What a whole conversation writes, as output and as errors, in the order of the lines. -/
def converse (c : Console) : List String → String × String
  | [] => (sign ++ "\n", "")
  | line :: rest =>
    let reaction := react c line
    if reaction.goesOn then
      let (output, errors) := converse reaction.console rest
      (sign ++ reaction.output ++ output, reaction.errors ++ errors)
    else (sign ++ reaction.output, reaction.errors)

end LoxLang.Prompt
