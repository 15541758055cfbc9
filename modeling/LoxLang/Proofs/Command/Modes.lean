import LoxLang.Command
import LoxLang.Proofs.Console.Flags
import LoxLang.Proofs.Grammar.LongSum

set_option autoImplicit false

/-!
# Running a script and showing it

A script is run, or its tokens are shown, or its trees. Each way scans the text for itself and has a
reporter of its own, and two of them parse it. They agree on what is wrong with a text, as far as
each looks at it, and each one's exit status says whether it reported anything.

What is shown is shown whatever is wrong with the text, and nothing runs for it: a clock and limits
on a run make no difference. But trees are shown on a stack too. At one that nests too deep it runs
out, which is reported, and no more of them are shown. A long sum is read on the same stack without
a fault.

## Main definitions

* `Options.showing` — options that also ask for a way to show the script.
* `Command.shown` — an output next to complaints, whole or cut short by the end of the stack.
* `Outcome.Reported` — the exit status says whether anything was reported.

## Main results

* `Command.request_cons_showing` — what arguments ask for with a way to show the script in front.
* `Command.showTokens_eq`, `Command.showTrees_of_parse` — what is shown of a text.
* `Command.runSource_cases` — how a run ends.
* `Command.modes_agree` — running a script, showing its trees and showing its tokens agree.
* `Command.showTrees_longSum` — a text that is read and not shown, for any stack.
-/

namespace LoxLang

/-! ## Asking for a way to show a script -/

namespace Options

variable {o o' : Options} {leftOver left : List String} {arguments : List Argument} {f : Flag}
  {value : String}

/-- Options that also ask for a way to show the script. -/
def showing (o : Options) (d : Dump) : Options := { o with dump := some d }

@[simp] lemma script_showing (o : Options) (d : Dump) : (o.showing d).script = o.script := rfl

@[simp] lemma limitFault?_showing (o : Options) (d : Dump) :
    (o.showing d).limitFault? = o.limitFault? := rfl

/-- What is taken in two steps is taken in each of them. -/
lemma bind_eq_ok {α β : Type} {first : Except Refusal α} {second : α → Except Refusal β} {b : β}
    (h : (first >>= second) = .ok b) : ∃ a, first = .ok a ∧ second a = .ok b := by
  cases first with
  | error => cases h
  | ok a => exact ⟨a, rfl, h⟩

/-- The value of the recursion limit has nothing to do with the way to show a script. -/
lemma takeLimit_showing (d : Dump) (h : o.takeLimit value = .ok o') :
    o'.dump = o.dump ∧ (o.showing d).takeLimit value = .ok (o'.showing d) := by
  unfold takeLimit at h ⊢
  split at h
  · rename_i hdashes
    cases h
    exact ⟨rfl, if_pos hdashes⟩
  · rename_i hdashes
    rw [if_neg hdashes]
    split at h
    · cases h
      exact ⟨rfl, rfl⟩
    · cases h

/-- A way to show the script that is taken is asked for. -/
lemma dump_of_choose {d : Dump} (h : o.choose d = .ok o') : o'.dump = some d := by
  unfold choose at h
  split at h
  · rename_i other hother
    split at h
    · rename_i hsame
      obtain rfl : o = o' := by simpa using h
      rw [hother, hsame]
    · cases h
  · cases h
    rfl

/-- An option that leaves the script to be run works alike if a way to show it is asked for. -/
lemma takeFlag_showing (d : Dump) (h : o.takeFlag f = .ok o') (hrun : o'.dump = none) :
    o.dump = none ∧ (o.showing d).takeFlag f = .ok (o'.showing d) := by
  cases f with
  | help => cases h
  | recursionLimit => cases h
  | noColor =>
    obtain rfl : { o with color := false } = o' := by simpa [takeFlag] using h
    exact ⟨hrun, rfl⟩
  | tokens => cases (dump_of_choose h).symm.trans hrun
  | tree => cases (dump_of_choose h).symm.trans hrun

lemma surplusValue_ne_ok {α : Type} {a : α} {chars : List Char} :
    surplusValue f chars ≠ .ok a := by
  rintro ⟨⟩

lemma shortHelp_ne_ok {α : Type} {a : α} {chars : List Char} : shortHelp chars ≠ .ok a := by
  fun_induction shortHelp (α := α) chars with
  | case1 => rintro ⟨⟩
  | case2 rest _ ih => exact ih
  | case3 => exact surplusValue_ne_ok

/-- Arguments that leave the script to be run work alike if a way to show it is asked for before. -/
lemma take_showing (d : Dump) (h : take o leftOver arguments = .ok (o', left))
    (hrun : o'.dump = none) :
    o.dump = none ∧ take (o.showing d) leftOver arguments = .ok (o'.showing d, left) := by
  fun_induction take o leftOver arguments with
  | case1 o leftOver =>
    obtain ⟨rfl, rfl⟩ : o = o' ∧ leftOver = left := by simpa using h
    exact ⟨hrun, rfl⟩
  -- a plain argument is the script or left over, and no way to show a script has a say in that
  | case2 o leftOver text rest hfirst ih | case3 o leftOver text rest hfirst ih
  | case4 o leftOver text rest _ hfirst ih | case5 o leftOver text rest _ hfirst ih =>
    obtain ⟨hdump, htake⟩ := ih h
    refine ⟨hdump, ?_⟩
    simp only [take, script_showing, hfirst]
    exact htake
  | case6 o leftOver rest ih | case12 o leftOver text rest ih => exact ih h
  | case7 => exact absurd h shortHelp_ne_ok
  | case8 o leftOver value rest ih | case9 o leftOver value rest ih =>
    obtain ⟨o₁, hvalue, hrest⟩ := bind_eq_ok h
    obtain ⟨hsame, hshowing⟩ := takeLimit_showing d hvalue
    obtain ⟨hdump, htake⟩ := ih o₁ hrest
    refine ⟨hsame.symm.trans hdump, ?_⟩
    rw [take, hshowing]
    exact htake
  | case10 => exact absurd h surplusValue_ne_ok
  -- an option by itself: it cannot be a way to show the script, since none is asked for in the end
  | case11 o leftOver f rest hvalue ih =>
    obtain ⟨o₁, hflag, hrest⟩ := bind_eq_ok h
    obtain ⟨hdump, htake⟩ := ih o₁ hrest
    obtain ⟨hdump, hshowing⟩ := takeFlag_showing d hflag hdump
    refine ⟨hdump, ?_⟩
    rw [take, hshowing]
    · exact htake
    · exact hvalue

/-- The name of an option that shows the script, in front of other arguments. -/
lemma ofTexts_cons_showing (d : Dump) (texts : List String) :
    Argument.ofTexts (d.flag.long :: texts) =
      (Argument.ofTexts texts).map (Argument.flag d.flag none :: ·) := by
  have htext : Argument.ofText d.flag.long = .ok (.flag d.flag none) := by
    cases d <;> decide +kernel
  rw [Argument.ofTexts, htext]
  cases Argument.ofTexts texts <;> cases d <;> rfl

/-- Arguments that leave the script to be run ask for the same with a way to show it in front. -/
lemma ofArguments_cons_showing {texts : List String} (d : Dump) (h : ofArguments texts = .ok o)
    (hrun : o.dump = none) : ofArguments (d.flag.long :: texts) = .ok (o.showing d) := by
  unfold ofArguments at h ⊢
  rw [ofTexts_cons_showing]
  split at h
  · cases h
  · rename_i arguments harguments
    split at h
    · cases h
    · rename_i htake
      obtain rfl := Except.ok.inj h
      obtain ⟨-, hshowing⟩ := take_showing d htake hrun
      have hfirst : take ordinary [] (.flag d.flag none :: arguments) =
          take (ordinary.showing d) [] arguments := by cases d <;> rfl
      simp only [harguments, Except.map, hfirst, hshowing]
    · cases h

end Options

/-- A text with a fault does not nest too deep. -/
lemma Parsed.eq_done {α : Type} {p : Parsed α} (h : p.faults ≠ []) :
    ∃ value, p = .done value p.faults := by
  cases p with
  | done value faults => exact ⟨value, rfl⟩
  | tooDeep => exact absurd rfl h

/-- Something is reported exactly if the exit status is not zero. -/
def Outcome.Reported (o : Outcome) : Prop := o.errors ≠ "" ↔ o.exit ≠ 0

namespace Command

variable {options : Options} {arguments : List String} {path : String}

/-- With a way to show it in front, arguments that ask for a script to be run ask for it to be
shown. -/
theorem request_cons_showing (d : Dump) (h : request arguments = .script options path)
    (hrun : options.dump = none) :
    request (d.flag.long :: arguments) = .script (options.showing d) path := by
  unfold request at h ⊢
  split at h
  · cases h
  · cases h
  · rename_i o hoptions
    split at h
    · cases h
    · rename_i hlimit
      split at h
      · rename_i hscript
        cases h
        rw [Options.ofArguments_cons_showing d hoptions hrun]
        dsimp only
        rw [Options.limitFault?_showing, hlimit, Options.script_showing, hscript]
      · split at h <;> cases h

variable {limits : Limits} {clock : Clock} {painter colored : Painter} {source : String}
  {program : Slots} {faults : List SyntaxFault} {bytes : List UInt8} {text : List Char}

lemma complaints_ne_nil_iff :
    Console.complaints source faults ≠ [] ↔ Scan.Broken source ∨ faults ≠ [] := by
  rw [Scan.broken_iff, Console.complaints, ne_eq, List.append_eq_nil_iff, not_and_or,
    List.map_eq_nil_iff, List.map_eq_nil_iff]

/-! ## Showing a text -/

/-- What is reported if the stack runs out while trees are shown. -/
def overflow (painter : Painter) : String := (outOfStack (Reporter.fresh painter)).2

/-- An output next to complaints. If it is not whole, that the stack ran out is reported behind
them; this decides on the exit status only if nothing is complained about. -/
def shown (painter : Painter) (found : List Complaint) (whole : Bool) (output : String) : Outcome :=
  ⟨if found = [] then if whole then 0 else 70 else 65, output,
    ((Reporter.fresh painter).complainAll found).2 ++ if whole then "" else overflow painter⟩

variable {found : List Complaint} {whole : Bool} {output : String}

lemma overflow_ne_empty (painter : Painter) : overflow painter ≠ "" := by
  simp [overflow, outOfStack, Reporter.crash, Reporter.fatal]

/-- What is whole comes with the complaints. -/
lemma shown_whole (painter : Painter) (found : List Complaint) (output : String) :
    let (reporter, errors) := (Reporter.fresh painter).complainAll found
    shown painter found true output = ⟨reporter.exitCode, output, errors⟩ := by
  simp only [shown, Reporter.complainAll_eq, if_true, String.append_empty]
  split <;> rfl

/-- What is not whole comes with the complaints and a report behind them. -/
lemma shown_cut (painter : Painter) (found : List Complaint) (output : String) :
    let (reporter, errors) := (Reporter.fresh painter).complainAll found
    shown painter found false output =
      ⟨(outOfStack reporter).1.exitCode, output, errors ++ (outOfStack reporter).2⟩ := by
  simp only [shown, Reporter.complainAll_eq]
  split <;> rfl

lemma exit_shown_iff : (shown painter found whole output).exit = 65 ↔ found ≠ [] := by
  by_cases h : found = [] <;> cases whole <;> simp [shown, h]

lemma exit_shown_eq_fatal_iff :
    (shown painter found whole output).exit = 70 ↔ found = [] ∧ whole = false := by
  by_cases h : found = [] <;> cases whole <;> simp [shown, h]

lemma exit_shown (painter : Painter) (found : List Complaint) (whole : Bool) (output : String) :
    let o := shown painter found whole output
    o.exit = 65 ∨ o.exit = 0 ∨ o.exit = 70 ∧ whole = false := by
  by_cases h : found = [] <;> cases whole <;> simp [shown, h]

lemma reported_shown (painter : Painter) (found : List Complaint) (whole : Bool)
    (output : String) : (shown painter found whole output).Reported := by
  rw [Outcome.Reported, ne_eq, shown, String.append_eq_empty_iff,
    Reporter.complainAll_eq_empty_iff]
  by_cases h : found = [] <;> cases whole <;> simp [h, overflow_ne_empty]

/-- The whole table is shown, whatever is wrong with the text. -/
lemma showTokens_eq (painter : Painter) (source : String) :
    showTokens (Reporter.fresh painter) source =
      shown painter ((scan source).faults.map LexicalFault.complaint) true
        (TokenTable.head ++ String.join ((scan source).allTokens.map TokenTable.row)) := by
  have hrender : TokenTable.render (scan source).allTokens =
      TokenTable.head ++ String.join ((scan source).allTokens.map TokenTable.row) := by
    have hne : (scan source).allTokens ≠ [] := by simp [Scan.allTokens]
    unfold TokenTable.render
    split
    · contradiction
    · rfl
  rw [← hrender, shown_whole]
  rfl

/-- The declarations are shown, whatever is wrong with the text, up to the first one that nests too
deep. -/
lemma showTrees_of_parse
    (h : Grammar.parse limits.reading (scan source).tokens = .done program faults) :
    showTrees limits (Reporter.fresh painter) source =
      shown painter (Console.complaints source faults) (program.all (fits limits))
        (String.join ((program.takeWhile (fits limits)).map fun slot =>
          Stmt.slotTree slot ++ "\n")) := by
  simp only [showTrees, h]
  split
  · rename_i hwhole
    rw [hwhole, shown_whole]
    rfl
  · rename_i hcut
    rw [Bool.eq_false_iff.2 hcut, shown_cut]
    rfl

/-! ## Running a text -/

lemma exitCode_seen_fresh (painter : Painter) (status : Status) :
    ((Reporter.fresh painter).seen status).exitCode =
      match status with
      | .ok => 0
      | .staticError => 65
      | .runtimeError | .fatal => 70 := by
  cases status <;> rfl

lemma runSource_of_complaints
    (h : Grammar.parse limits.reading (scan source).tokens = .done program faults)
    (hwrong : Console.complaints source faults ≠ []) :
    runSource limits clock painter source =
      shown painter (Complaint.sorted (Console.complaints source faults)) true "" := by
  rw [shown_whole, runSource, Console.submit_of_complaints h hwrong]
  rfl

lemma runSource_of_no_complaints (clock : Clock) (painter : Painter)
    (h : Grammar.parse limits.reading (scan source).tokens = .done program faults)
    (hright : Console.complaints source faults = []) :
    let run := runSource limits clock painter source
    run.exit = 0 ∧ run.errors = "" ∨ run.exit = 70 ∧ run.errors ≠ "" := by
  intro run
  set c := Console.fresh limits painter clock
  have htold := Console.told_execute c program
  have hstatus : (c.execute program).2.status ≠ .staticError := by
    rw [Console.execute_eq_conclude, Console.status_conclude]
    split <;> simp
  rw [← Console.submit_of_no_complaints h hright] at htold hstatus
  have hexit : run.exit = ((Reporter.fresh painter).seen (c.submit source).2.status).exitCode :=
    congrArg Reporter.exitCode htold.reporter_eq
  have herrors : run.errors = "" ↔ (c.submit source).2.status = .ok := htold.errors_eq
  rw [exitCode_seen_fresh] at hexit
  cases hended : (c.submit source).2.status with
  | ok => exact .inl ⟨by rw [hexit, hended], herrors.2 hended⟩
  | staticError => exact absurd hended hstatus
  | runtimeError | fatal =>
    refine .inr ⟨by rw [hexit, hended], ?_⟩
    rw [ne_eq, herrors, hended]
    simp

/-- **How a run ends.** If something is wrong with the text nothing is printed and that is reported.
Otherwise the run ends well, or not, and then that is reported. -/
lemma runSource_cases (limits : Limits) (clock : Clock) (painter : Painter)
    (h : Grammar.parse limits.reading (scan source).tokens = .done program faults) :
    let run := runSource limits clock painter source
    Console.complaints source faults ≠ [] ∧ run.exit = 65 ∧ run.output = "" ∧ run.errors ≠ "" ∨
    Console.complaints source faults = [] ∧
      (run.exit = 0 ∧ run.errors = "" ∨ run.exit = 70 ∧ run.errors ≠ "") := by
  by_cases hwrong : Console.complaints source faults = []
  · exact .inr ⟨hwrong, runSource_of_no_complaints clock painter h hwrong⟩
  · have hsorted := mt Complaint.sorted_eq_nil_iff.1 hwrong
    rw [runSource_of_complaints h hwrong]
    have hexit :
        (shown painter (Complaint.sorted (Console.complaints source faults)) true "").exit = 65 :=
      exit_shown_iff.2 hsorted
    exact .inl ⟨hwrong, hexit, rfl, (reported_shown ..).2 (by simp [hexit])⟩

/-! ## The ways agree -/

/-- What happens to the contents of a file that can be read. -/
lemma script_of_decode (htext : Utf8.decode bytes = .ok text) :
    script limits clock colored options path (.bytes bytes) =
      Command.source limits clock colored options (String.ofList (Text.unifyLineEnds text)) := by
  simp only [script, htext]

/-- What happens to it if no way to show it is asked for. -/
lemma script_of_run (hmode : options.dump = none) (htext : Utf8.decode bytes = .ok text) :
    script limits clock colored options path (.bytes bytes) =
      runSource limits clock (options.painter colored)
        (String.ofList (Text.unifyLineEnds text)) := by
  rw [script_of_decode htext]
  simp only [Command.source, hmode]

lemma all_fits_eq_false_iff :
    program.all (fits limits) = false ↔ ∃ slot ∈ program, ¬ fits limits slot := by
  simp

/-- Behind the declarations that are shown stands one that nests too deep. -/
lemma exists_eq_shown_append (limits : Limits) (program : Slots) : ∃ rest,
    program = program.takeWhile (fits limits) ++ rest ∧
    (∀ slot ∈ program.takeWhile (fits limits), fits limits slot) ∧
    ∀ slot ∈ rest.head?, ¬ fits limits slot := by
  refine ⟨program.dropWhile (fits limits), List.takeWhile_append_dropWhile.symm,
    fun slot h => List.mem_takeWhile_imp h, fun slot h => ?_⟩
  have hstop := List.head?_dropWhile_not (fits limits) program
  rw [Option.mem_def.1 h] at hstop
  simpa using hstop

/-- **Running a script, showing its trees and showing its tokens agree.** Take arguments that ask
for a script to be run, and a script that can be read and does not nest too deep to parse it. An
option in front of the arguments asks for the script to be shown instead. Then:

* running it and showing its trees exit with 65 exactly if it has an error of scanning or of
  parsing, and showing its tokens exactly if it has one of scanning;
* a run that exits with 65 prints nothing, one that exits with 0 reports nothing, and any other
  exits with 70 and reports something;
* showing its tokens exits with 65 or with 0, and so does showing its trees, unless one of these
  nests too deep for the stack: then it exits with 70 if it would have exited with 0, and what is
  reported ends with that;
* each way reports something exactly if it does not exit with 0;
* the table of tokens is complete, and there is a tree for each declaration up to the first one that
  nests too deep, errors or not; what is shown depends neither on the clock nor on the limits on a
  run.

**Proof sketch.** Each way complains about what it finds, and nothing else makes it exit with 65. A
run complains in another order, which does not matter for the exit status. -/
theorem modes_agree (limits : Limits) (clock : Clock) (colored : Painter)
    (hrequest : request arguments = .script options path)
    (hmode : options.dump = none) (htext : Utf8.decode bytes = .ok text)
    (hparse : Grammar.parse limits.reading
      (scan (String.ofList (Text.unifyLineEnds text))).tokens = .done program faults) :
    let source := String.ofList (Text.unifyLineEnds text)
    let outcome (o : Options) := script limits clock colored o path (.bytes bytes)
    let run := outcome options
    let trees := outcome (options.showing .tree)
    let tokens := outcome (options.showing .tokens)
    let shownOf (slots : Slots) := String.join (slots.map fun slot => Stmt.slotTree slot ++ "\n")
    (∀ d : Dump, request (d.flag.long :: arguments) = .script (options.showing d) path ∧
      ∀ calls, (options.showing d).limits calls = options.limits calls) ∧
    (run.exit = 65 ↔ Scan.Broken source ∨ faults ≠ []) ∧
    (trees.exit = 65 ↔ Scan.Broken source ∨ faults ≠ []) ∧
    (tokens.exit = 65 ↔ Scan.Broken source) ∧
    (tokens.exit = 65 → run.exit = 65 ∧ trees.exit = 65) ∧
    (run.exit = 65 ∧ run.output = "" ∨ run.exit = 0 ∧ run.errors = "" ∨
      run.exit = 70 ∧ run.errors ≠ "") ∧
    (trees.exit = 65 ∨ trees.exit = 0 ∨ trees.exit = 70) ∧
    (trees.exit = 70 ↔
      ¬ (Scan.Broken source ∨ faults ≠ []) ∧ ∃ slot ∈ program, ¬ fits limits slot) ∧
    ((∃ slot ∈ program, ¬ fits limits slot) → ∃ complaints,
      trees.errors = complaints ++ overflow (options.painter colored)) ∧
    (tokens.exit = 65 ∨ tokens.exit = 0) ∧
    run.Reported ∧ trees.Reported ∧ tokens.Reported ∧
    tokens.output = TokenTable.head ++ String.join ((scan source).allTokens.map TokenTable.row) ∧
    (∃ before rest, program = before ++ rest ∧ (∀ slot ∈ before, fits limits slot) ∧
      (∀ slot ∈ rest.head?, ¬ fits limits slot) ∧ trees.output = shownOf before) ∧
    ((∀ slot ∈ program, fits limits slot) → trees.output = shownOf program) ∧
    ∀ (d : Dump) (limits' : Limits) (clock' : Clock), limits'.reading = limits.reading →
      limits'.rendering = limits.rendering →
      script limits' clock' colored (options.showing d) path (.bytes bytes) =
        outcome (options.showing d) := by
  intro source outcome run trees tokens shownOf
  have hrun : run = runSource limits clock (options.painter colored) source :=
    script_of_run hmode htext
  have htrees : trees = _ := (script_of_decode htext).trans (showTrees_of_parse hparse)
  have htokens : tokens = _ := (script_of_decode htext).trans (showTokens_eq _ _)
  have hcases := runSource_cases limits clock (options.painter colored) hparse
  rw [← hrun, complaints_ne_nil_iff] at hcases
  have hrunExit : run.exit = 65 ↔ Scan.Broken source ∨ faults ≠ [] := by
    rw [← complaints_ne_nil_iff]
    rcases hcases with ⟨hfaulty, hexit, -⟩ | ⟨hright, ⟨hexit, -⟩ | ⟨hexit, -⟩⟩
    · exact iff_of_true hexit (complaints_ne_nil_iff.2 hfaulty)
    all_goals exact iff_of_false (by simp [hexit]) (not_not_intro hright)
  have htreesExit : trees.exit = 65 ↔ Scan.Broken source ∨ faults ≠ [] := by
    rw [htrees, exit_shown_iff, complaints_ne_nil_iff]
  have htokensExit : tokens.exit = 65 ↔ Scan.Broken source := by
    rw [htokens, exit_shown_iff, Scan.broken_iff, ne_eq, List.map_eq_nil_iff]
  refine ⟨fun d => ⟨request_cons_showing d hrequest hmode, fun _ => rfl⟩, hrunExit, htreesExit,
    htokensExit,
    fun h => ⟨hrunExit.2 (.inl (htokensExit.1 h)), htreesExit.2 (.inl (htokensExit.1 h))⟩,
    ?_, ?_, ?_, fun hdeep => ?_, ?_, ?_, ?_, ?_, ?_, ?_, fun hfits => ?_, ?_⟩
  · rcases hcases with ⟨-, hexit, houtput, -⟩ | ⟨-, hcases⟩
    · exact .inl ⟨hexit, houtput⟩
    · exact .inr hcases
  · rw [htrees]
    exact (exit_shown ..).imp_right (·.imp_right And.left)
  · rw [htrees, exit_shown_eq_fatal_iff, ← complaints_ne_nil_iff, not_not, all_fits_eq_false_iff]
  · rw [htrees, all_fits_eq_false_iff.2 hdeep]
    exact ⟨_, rfl⟩
  · rw [htokens]
    exact (exit_shown ..).imp_right (·.resolve_right (by simp))
  · rw [Outcome.Reported]
    rcases hcases with ⟨-, hexit, -, herrors⟩ | ⟨-, ⟨hexit, herrors⟩ | ⟨hexit, herrors⟩⟩
    all_goals simp [hexit, herrors]
  · rw [htrees]
    exact reported_shown ..
  · rw [htokens]
    exact reported_shown ..
  · rw [htokens]
    rfl
  · obtain ⟨rest, hprogram, hshown, hrest⟩ := exists_eq_shown_append limits program
    rw [htrees]
    exact ⟨_, rest, hprogram, hshown, hrest, rfl⟩
  · rw [htrees]
    exact congrArg shownOf (List.takeWhile_eq_self_iff.2 hfits)
  · intro d limits' clock' hreading hrendering
    have hfits : fits limits' = fits limits := by
      funext slot
      rw [fits, fits, hrendering]
    simp only [outcome, script_of_decode htext]
    cases d with
    | tokens => rfl
    | tree => simp only [Command.source, Options.showing, showTrees, hreading, hfits]

/-- A print without an expression behind another print: nothing runs, both are shown as trees, and
nothing is wrong with the tokens. -/
theorem modes_agree_missingExpression :
    let options : Options := ⟨some "script.lox", none, false, some 10000⟩
    let contents := Contents.bytes (Utf8.bytesOf "print 1; print;".toList)
    let outcome (o : Options) :=
      script ⟨20, 9, 9, 9⟩ (fun _ => 0) .plain o "script.lox" contents
    request ["--ast", "--no-color", "script.lox"] = .script (options.showing .tree) "script.lox" ∧
    (outcome options).exit = 65 ∧ (outcome options).output = "" ∧
    (outcome (options.showing .tree)).exit = 65 ∧
    (outcome (options.showing .tree)).output = "(print 1)\n(error)\n" ∧
    (outcome (options.showing .tokens)).exit = 0 := by
  intro options contents outcome
  let source := String.ofList (Text.unifyLineEnds "print 1; print;".toList)
  have htext : Utf8.decode (Utf8.bytesOf "print 1; print;".toList) =
      .ok "print 1; print;".toList := by decide +kernel
  have hscan : (scan source).faults = [] := by decide +kernel
  have hfaults : (Grammar.parse 20 (scan source).tokens).faults ≠ [] := by decide +kernel
  have hshown : (outcome (options.showing .tree)).output = "(print 1)\n(error)\n" := by
    decide +kernel
  obtain ⟨program, hparse⟩ := Parsed.eq_done hfaults
  obtain ⟨hrequest, hrun, htrees, htokens, -, hruns, -, -, -, hquiet, -⟩ :=
    modes_agree ⟨20, 9, 9, 9⟩ (fun _ => 0) .plain
      (show request ["--no-color", "script.lox"] = .script options "script.lox" from rfl) rfl htext
      hparse
  have hexit := hrun.2 (.inr hfaults)
  refine ⟨(hrequest .tree).1, hexit, ?_, htrees.2 (.inr hfaults), hshown, ?_⟩
  · rcases hruns with ⟨-, houtput⟩ | ⟨hexit', -⟩ | ⟨hexit', -⟩
    · exact houtput
    · cases hexit.symm.trans hexit'
    · cases hexit.symm.trans hexit'
  · refine hquiet.resolve_left fun hbroken => ?_
    exact Scan.broken_iff.1 (htokens.1 hbroken) hscan

/-- On any stack, a sum that is long enough is not shown: nothing is wrong with it, and it nests too
deep. -/
theorem showTrees_longSum {n : Nat} (painter : Painter) (hreading : 4 ≤ limits.reading)
    (hn : limits.rendering < callsToParts * (n + 1) + 2) :
    showTrees limits (Reporter.fresh painter) (String.ofList (LongSum.text n)) =
      ⟨70, "", overflow painter⟩ := by
  obtain ⟨hparse, hscan⟩ := LongSum.parse_text hreading n
  have hdeep : fits limits (some (LongSum.tree n)) = false := by
    rw [fits, Stmt.slotTreeDepth, LongSum.treeDepth_tree]
    exact decide_eq_false (Nat.not_le.2 hn)
  have hright : Console.complaints (String.ofList (LongSum.text n)) [] = [] := by
    simp [Console.complaints, hscan]
  rw [showTrees_of_parse hparse, hright]
  simp [shown, hdeep, Reporter.complainAll]

/-- A script with a sum of four thousand terms, on a stack of ten thousand calls: nothing is wrong
with it, and its tree is not shown. -/
theorem longSum_not_shown :
    let options : Options := ⟨some "script.lox", none, false, some 10000⟩
    let limits := options.limits 1000
    let contents := Contents.bytes (Utf8.bytesOf (LongSum.text 3999))
    let source := String.ofList (LongSum.text 3999)
    let slot := some (LongSum.tree 3999)
    let trees := script limits (fun _ => 0) .plain (options.showing .tree) "script.lox" contents
    request ["--ast", "--no-color", "script.lox"] = .script (options.showing .tree) "script.lox" ∧
    Grammar.parse limits.reading (scan source).tokens = .done [slot] [] ∧
    ¬ Scan.Broken source ∧
    trees.exit = 70 ∧ trees.output = "" ∧ trees.output ≠ Stmt.slotTree slot ++ "\n" := by
  intro options limits contents source slot trees
  obtain ⟨hdecode, hlines⟩ := LongSum.unifyLineEnds_decode 3999
  have hreading : 4 ≤ limits.reading := by decide
  have htrees : trees = ⟨70, "", overflow .plain⟩ := by
    refine (script_of_decode hdecode).trans ?_
    rw [hlines]
    exact showTrees_longSum .plain hreading (by decide)
  obtain ⟨hparse, hscan⟩ := LongSum.parse_text hreading 3999
  refine ⟨rfl, hparse, fun hbroken => Scan.broken_iff.1 hbroken hscan, ?_⟩
  rw [htrees]
  simp

end Command

end LoxLang
