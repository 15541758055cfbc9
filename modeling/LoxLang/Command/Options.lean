import LoxLang.Text.Integer
import LoxLang.Text.Quoted

/-!
# Command line options

Arguments are first told apart one by one, then taken in order. A long option may be shortened as
long as it stays unique, and may carry a value after an equals sign. The short form of the help
option may be repeated behind one dash. Two dashes alone make all that follows plain. At most one
plain argument is taken, the script.

## Main definitions

* `Flag` — the options.
* `Argument.ofText` — what a single argument is.
* `Options` — what the arguments ask for.
* `Options.ofArguments` — reads the arguments.
-/

namespace LoxLang

/-- The options. -/
inductive Flag
  | help
  | tokens
  | tree
  | noColor
  | recursionLimit
deriving DecidableEq, Repr

namespace Flag

/-- The options in the order in which they are listed. -/
def all : List Flag := [help, tokens, tree, noColor, recursionLimit]

/-- The full name of an option. -/
def long : Flag → String
  | help => "--help"
  | tokens => "--tokens"
  | tree => "--ast"
  | noColor => "--no-color"
  | recursionLimit => "--recursion-limit"

/-- An option as errors name it. -/
def shown : Flag → String
  | help => "-h/--help"
  | flag => flag.long

end Flag

/-- What a single argument is. -/
inductive Argument
  | plain (text : String)
  /-- Two dashes alone. -/
  | separator
  /-- An option, with the value that it carries. -/
  | flag (flag : Flag) (value : Option String)
  /-- The short form of the help option with text attached, directly or after an equals sign. -/
  | shortHelp (attached : List Char)
  /-- What looks like an option and is none. -/
  | unknown (text : String)
deriving DecidableEq, Repr

namespace Argument

/-- An argument that begins with a dash and names no option: negative numbers and what holds a blank
are plain. -/
def unnamed (text : String) : Argument :=
  if Text.looksNegative text.toList || text.contains ' ' then plain text else unknown text

/-- An argument that begins with two dashes, by its name and the value after an equals sign. -/
def named (text : String) : Except String Argument :=
  let chars := text.toList
  let name := chars.takeWhile (· != '=')
  let value :=
    match chars.dropWhile (· != '=') with
    | [] => none
    | _ :: value => some (String.ofList value)
  match Flag.all.find? (·.long.toList == name) with
  | some f => .ok (flag f value)
  | none =>
    match Flag.all.filter (name.isPrefixOf ·.long.toList) with
    | [] => .ok (unnamed text)
    | [f] => .ok (flag f value)
    | several =>
      .error ("ambiguous option: " ++ text ++ " could match " ++
        ", ".intercalate (several.map Flag.long))

/-- What a single argument is. -/
def ofText (text : String) : Except String Argument :=
  match text.toList with
  | ['-', '-'] => .ok separator
  | '-' :: '-' :: _ => named text
  | ['-'] => .ok (plain text)
  | ['-', 'h'] => .ok (flag .help none)
  | '-' :: 'h' :: '=' :: attached => .ok (shortHelp attached)
  | '-' :: 'h' :: attached => .ok (shortHelp attached)
  | '-' :: _ => .ok (unnamed text)
  | _ => .ok (plain text)

/-- What each argument is; behind two dashes all are plain. -/
def ofTexts : List String → Except String (List Argument)
  | [] => .ok []
  | text :: rest => do
    match ← ofText text with
    | separator => return separator :: rest.map plain
    | argument => return argument :: (← ofTexts rest)

end Argument

/-- What to show of a script instead of running it. -/
inductive Dump
  | tokens
  | tree
deriving DecidableEq, Repr

/-- The option that asks for a way to show a script. -/
def Dump.flag : Dump → Flag
  | tokens => .tokens
  | tree => .tree

/-- What the arguments ask for. -/
structure Options where
  script : Option String
  dump : Option Dump
  color : Bool
  /-- How many calls may nest; none if two dashes stand in place of a number. -/
  recursionLimit : Option Int
deriving DecidableEq, Repr

/-- Why the arguments ask for no run. -/
inductive Options.Refusal
  /-- They ask for help. -/
  | help
  | wrong (message : String)
deriving DecidableEq, Repr

namespace Options

/-- The options when no argument is given. -/
def ordinary : Options := ⟨none, none, true, some 10000⟩

/-- A fault in the use of an option. -/
def wrongUse {α : Type} (flag : Flag) (message : String) : Except Refusal α :=
  .error (.wrong ("argument " ++ flag.shown ++ ": " ++ message))

/-- The fault of a value that an option does not take. -/
def surplusValue {α : Type} (flag : Flag) (value : List Char) : Except Refusal α :=
  wrongUse flag ("ignored explicit argument " ++ String.ofList (Text.quoted value))

/-- Takes the text attached to the short form of the help option. It may repeat the short form; all
behind the last repetition is a value that the option does not take. -/
def shortHelp {α : Type} : List Char → Except Refusal α
  | ['h'] => .error .help
  | 'h' :: rest => shortHelp rest
  | value => surplusValue .help value

/-- Takes a way to show the script, which excludes any other. -/
def choose (options : Options) (dump : Dump) : Except Refusal Options :=
  match options.dump with
  | some other =>
    if other = dump then .ok options
    else wrongUse dump.flag ("not allowed with argument " ++ other.flag.shown)
  | none => .ok { options with dump := some dump }

/-- Takes an option that has no value of its own. -/
def takeFlag (options : Options) : Flag → Except Refusal Options
  | .help => .error .help
  | .tokens => options.choose .tokens
  | .tree => options.choose .tree
  | .noColor => .ok { options with color := false }
  | .recursionLimit => wrongUse .recursionLimit "expected one argument"

/-- Takes the value of the recursion limit, a whole number. Two dashes alone are dropped from a value
before it is read, so that there is none. -/
def takeLimit (options : Options) (value : String) : Except Refusal Options :=
  if value = "--" then .ok { options with recursionLimit := none }
  else
    match Text.integer? value.toList with
    | some limit => .ok { options with recursionLimit := some limit }
    | none => wrongUse .recursionLimit
      ("invalid int value: " ++ String.ofList (Text.quoted value.toList))

/-- Takes arguments in order. Plain ones after the first are left over. -/
def take (options : Options) (leftOver : List String) :
    List Argument → Except Refusal (Options × List String)
  | [] => .ok (options, leftOver)
  | .plain text :: .separator :: rest =>
    if options.script.isNone then take { options with script := some text } leftOver rest
    else take options (leftOver ++ [text, "--"]) rest
  | .plain text :: rest =>
    if options.script.isNone then take { options with script := some text } leftOver rest
    else take options (leftOver ++ [text]) rest
  | .separator :: rest =>
    take options (if options.script.isNone then leftOver else leftOver ++ ["--"]) rest
  | .shortHelp attached :: _ => shortHelp attached
  | .flag .recursionLimit none :: .plain value :: rest => do
    let options ← options.takeLimit value
    take options leftOver rest
  | .flag .recursionLimit (some value) :: rest => do
    let options ← options.takeLimit value
    take options leftOver rest
  | .flag f (some value) :: _ => surplusValue f value.toList
  | .flag f none :: rest => do
    let options ← options.takeFlag f
    take options leftOver rest
  | .unknown text :: rest => take options (leftOver ++ [text]) rest

/-- Reads the arguments. What is left over is refused. -/
def ofArguments (arguments : List String) : Except Refusal Options :=
  match Argument.ofTexts arguments with
  | .error message => .error (.wrong message)
  | .ok arguments =>
    match take ordinary [] arguments with
    | .error refusal => .error refusal
    | .ok (options, []) => .ok options
    | .ok (_, leftOver) =>
      .error (.wrong ("unrecognized arguments: " ++ " ".intercalate leftOver))

/-- How the program is used, in short. -/
def usage : String :=
  "usage: lox [-h] [--tokens | --ast] [--no-color]\n" ++
  "           [--recursion-limit RECURSION_LIMIT]\n" ++
  "           [script]\n"

/-- How the program is used, at length. -/
def help : String :=
  usage ++ "\n" ++
  "Tree-walking interpreter for the Lox language.\n" ++
  "\n" ++
  "positional arguments:\n" ++
  "  script                file to run (if empty, starts the interactive prompt)\n" ++
  "\n" ++
  "options:\n" ++
  "  -h, --help            show this help message and exit\n" ++
  "  --tokens              print the token table instead of running\n" ++
  "  --ast                 print the syntax tree instead of running\n" ++
  "  --no-color            disable coloured error output\n" ++
  "  --recursion-limit RECURSION_LIMIT\n" ++
  "                        host recursion limit; bounds how deep Lox calls may\n" ++
  "                        nest (default: 10000)\n"

end Options

end LoxLang
