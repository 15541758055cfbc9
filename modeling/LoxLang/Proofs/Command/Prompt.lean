import LoxLang.Command
import LoxLang.Proofs.Console.Flags

set_option autoImplicit false

/-!
# The prompt

A conversation goes on up to the first line that leaves, or to the end of the input. Each line in
front of that is answered once: an empty one by nothing, a request for help by a text, and any other
one is entered into the console as it was left by the lines before. So a conversation is a session
of lines. Nothing that goes wrong with a line ends it, and what a line has bound at the root can be
used by all later ones.

## Main definitions

* `Prompt.Commands` — a line is a command.
* `Prompt.heard` — the lines in front of the first one that leaves.
* `Prompt.steps` — what lines enter into the console, as steps of a session.
* `Prompt.reply` — what is shown for a line.
* `Prompt.left` — the console that a conversation leaves behind.
* `Machine.Offers` — a name can be used at the root.

## Main results

* `Prompt.ofText_eq` — what a line asks for.
* `Prompt.converse_eq` — a conversation as a session.
* `Console.session_extends` — no step of a session unbinds anything.
* `Command.prompt_serves_lines` — what happens at the prompt, for any input.
-/

namespace LoxLang

namespace Console

/-- Each step of a session goes on from what the one before it left behind. -/
lemma isChain_session (c : Console) (steps : List Step) :
    (c.session steps).IsChain fun earlier later => later.before = earlier.after := by
  induction steps generalizing c with
  | nil => exact .nil
  | cons step rest ih =>
    have hrest := ih (c.perform step).1
    cases rest with
    | nil => exact .singleton _
    | cons next rest => exact .cons_cons rfl hrest

end Console

/-! ## Lines -/

namespace Prompt

/-- A line without the blanks around it. -/
def stripped (line : String) : String := String.ofList (Text.trim line.toList)

/-- A line is a command: the characters of words in front of it make up the word of the command,
blanks aside. -/
def Commands (word line : String) : Prop :=
  (Text.trim line.toList).takeWhile inWord = word.toList

/-- A line asks for help: it is that command, or a question mark comes first. -/
def AsksForHelp (line : String) : Prop :=
  Commands "help" line ∨ (Text.trim line.toList).head? = some '?'

/-- A line is entered into the console, unless it leaves: it is not empty and does not ask for
help. -/
def IsEntered (line : String) : Prop := stripped line ≠ "" ∧ ¬ AsksForHelp line

instance (word line : String) : Decidable (Commands word line) := inferInstanceAs (Decidable (_ = _))

instance (line : String) : Decidable (AsksForHelp line) := inferInstanceAs (Decidable (_ ∨ _))

instance (line : String) : Decidable (IsEntered line) := inferInstanceAs (Decidable (_ ∧ _))

/-- The word in front of a line is that of a command if and only if the line is that command. -/
lemma word_beq_iff {word line : String} :
    (String.ofList ((Text.trim line.toList).takeWhile inWord) == word) = true ↔
      Commands word line := by
  rw [beq_iff_eq, ← String.toList_inj, String.toList_ofList, Commands]

/-- **What a line asks for.** -/
lemma ofText_eq (line : String) : Line.ofText line =
    if stripped line = "" then .nothing
    else if AsksForHelp line then .help
    else if Commands "EOF" line then .leave
    else .source (stripped line) := by
  unfold Line.ofText
  dsimp only
  split
  · rename_i hbare
    rw [if_pos (by rw [stripped, hbare])]
  · rename_i rest hbare
    rw [if_neg (by simp [stripped, hbare]), if_pos (.inr (by rw [hbare]; rfl))]
  · rename_i hempty hmark
    have hstripped : stripped line ≠ "" := by
      intro h
      exact hempty (by simpa [stripped] using h)
    have hhead : (Text.trim line.toList).head? ≠ some '?' := by
      intro h
      obtain ⟨rest, hrest⟩ := List.head?_eq_some_iff.1 h
      exact hmark rest hrest
    simp only [word_beq_iff, AsksForHelp, hstripped, hhead, or_false, if_false]
    rfl

/-- The lines that are heard are those in front of the first one that leaves. -/
def heard (lines : List String) : List String :=
  lines.takeWhile fun line => ¬ Commands "EOF" line

/-- What lines enter into the console, as steps of a session. -/
def steps (lines : List String) : List Console.Step :=
  (lines.filter fun line => IsEntered line).map fun line => .input (.line (stripped line))

/-- What is shown for a line that is heard on a console. -/
def reply (c : Console) (line : String) : String :=
  if stripped line = "" then ""
  else if AsksForHelp line then helpText
  else printed (c.enter (stripped line)).2.output

/-- The console that a conversation leaves behind. -/
def left (c : Console) : List String → Console
  | [] => c
  | line :: rest =>
    let reaction := react c line
    if reaction.goesOn then left reaction.console rest else reaction.console

/-- The lines behind those that are heard begin with one that leaves. -/
lemma exists_eq_heard_append (lines : List String) : ∃ rest, lines = heard lines ++ rest ∧
    (∀ line ∈ heard lines, ¬ Commands "EOF" line) ∧ ∀ line ∈ rest.head?, Commands "EOF" line := by
  refine ⟨lines.dropWhile fun line => ¬ Commands "EOF" line, List.takeWhile_append_dropWhile.symm,
    fun line h => ?_, fun line h => ?_⟩
  · simpa using List.mem_takeWhile_imp h
  · have hstop := List.head?_dropWhile_not (fun line => decide ¬ Commands "EOF" line) lines
    rw [Option.mem_def.1 h] at hstop
    simpa using hstop

/-- A line that leaves is neither empty nor a request for help. -/
lemma Commands.isEntered {line : String} (h : Commands "EOF" line) : IsEntered line := by
  have hword : (Text.trim line.toList).takeWhile inWord = ['E', 'O', 'F'] := h
  refine ⟨?_, ?_⟩
  · intro hempty
    have hnil : Text.trim line.toList = [] := by simpa [stripped] using hempty
    simp [hnil] at hword
  · rintro (hhelp | hmark)
    · exact absurd (hword.symm.trans hhelp) (by decide)
    · obtain ⟨rest, hrest⟩ := List.head?_eq_some_iff.1 hmark
      simp [hrest, inWord] at hword

/-! ## Conversations -/

variable {c : Console} {line : String}

/-- A line that leaves changes nothing. -/
lemma react_of_leaves (h : Commands "EOF" line) : react c line = ⟨c, "\n", "", false⟩ := by
  obtain ⟨hsome, hhelp⟩ := h.isEntered
  rw [react, ofText_eq, if_neg hsome, if_neg hhelp, if_pos h]

/-- What a line that is heard brings about is a session of at most one step. -/
lemma react_of_heard (h : ¬ Commands "EOF" line) : react c line =
    ⟨c.performAll (steps [line]), reply c line,
      String.join ((c.session (steps [line])).map (·.answer.errors)), true⟩ := by
  by_cases hempty : stripped line = ""
  · have hsteps : steps [line] = [] := by simp [steps, IsEntered, hempty]
    rw [react, ofText_eq, if_pos hempty, reply, if_pos hempty, hsteps]
    rfl
  by_cases hhelp : AsksForHelp line
  · have hsteps : steps [line] = [] := by simp [steps, IsEntered, hhelp]
    rw [react, ofText_eq, if_neg hempty, if_pos hhelp, reply, if_neg hempty, if_pos hhelp, hsteps]
    rfl
  · have hsteps : steps [line] = [.input (.line (stripped line))] := by
      simp [steps, IsEntered, hempty, hhelp]
    rw [react, ofText_eq, if_neg hempty, if_neg hhelp, if_neg h, reply, if_neg hempty,
      if_neg hhelp, hsteps]
    simp [Console.session, Console.performAll, Console.perform, Console.take]

lemma steps_cons (line : String) (rest : List String) : steps (line :: rest) =
    steps [line] ++ steps rest := by
  rw [steps, steps, steps, ← List.map_append, ← List.filter_append, List.singleton_append]

/-- **A conversation is a session** of what the lines that are heard enter into the console. The
lines are answered one after another, each on the console as those before it left it. -/
theorem converse_eq (c : Console) (lines : List String) :
    converse c lines =
      (String.join ((heard lines).mapIdx fun k line =>
          sign ++ reply (c.performAll (steps ((heard lines).take k))) line) ++ sign ++ "\n",
        String.join ((c.session (steps (heard lines))).map (·.answer.errors))) ∧
    left c lines = c.performAll (steps (heard lines)) := by
  induction lines generalizing c with
  | nil => exact ⟨rfl, rfl⟩
  | cons line rest ih =>
    by_cases hleaves : Commands "EOF" line
    · have hheard : heard (line :: rest) = [] := by simp [heard, hleaves]
      rw [converse, left, react_of_leaves hleaves, hheard]
      exact ⟨rfl, rfl⟩
    · have hheard : heard (line :: rest) = line :: heard rest := by simp [heard, hleaves]
      obtain ⟨hconverse, hleft⟩ := ih (c.performAll (steps [line]))
      have htake : ∀ k, steps ((line :: heard rest).take (k + 1)) =
          steps [line] ++ steps ((heard rest).take k) := fun k => steps_cons line _
      have hfirst : c.performAll (steps ((line :: heard rest).take 0)) = c := rfl
      -- a later line meets the console that the first one and those between them left
      rw [converse, left, react_of_heard hleaves, hheard, steps_cons line (heard rest),
        Console.session_append, Console.performAll_append, List.mapIdx_cons]
      dsimp only
      rw [hconverse, hleft]
      refine ⟨?_, rfl⟩
      simp only [htake, hfirst, Console.performAll_append, if_true, List.map_append,
        String.join_append, String.join_cons, String.append_assoc]

end Prompt

/-! ## Globals -/

/-- A name can be used at the root: reading it gives a value, and it can be assigned to. -/
structure Machine.Offers (m : Machine) (name : Token) : Prop where
  lookUp : ∃ v, Run.lookUp name Store.root m = .ok v m
  assign : ∀ v, ∃ n, Run.assign name Store.root v m = .ok () n

/-- What is bound at the root can be used in any later store. -/
lemma Machine.offers_of_mem_globals {m n : Machine} {name : Token} {v : Value}
    (h : (name.lexeme, v) ∈ m.globals) (hn : n.store.Sound)
    (hext : m.store.Extends n.store) : n.Offers name := by
  unfold globals at h
  cases hroot : m.store.scopes[Store.root]? with
  | none => simp [hroot] at h
  | some a =>
    rw [hroot] at h
    have hbinds : a.binds name.lexeme = true := List.any_eq_true.2 ⟨_, h, by simp⟩
    obtain ⟨b, hb, -, hnames⟩ := hext.kept Store.root a hroot
    have hresolve : n.store.resolve? name.lexeme Store.root = some Store.root := by
      rw [Store.resolve?, hb]
      simp [hnames _ hbinds]
    have hsees := Machine.sees_resolve? hn hn.root_lt name
    rw [hresolve] at hsees
    obtain ⟨w, -, hlookUp⟩ := hsees.lookUp Store.root rfl
    exact ⟨⟨w, hlookUp⟩, fun w => ⟨_, hsees.assign Store.root rfl w⟩⟩

namespace Console

variable {c : Console}

/-- A step of a session unbinds nothing. -/
lemma perform_extends (hc : c.machine.store.Sound) (step : Step) :
    (c.perform step).1.machine.store.Sound ∧
      c.machine.store.Extends (c.perform step).1.machine.store := by
  cases step with
  | reset => exact ⟨hc, .refl _⟩
  | input input =>
    obtain ⟨hpath, hend⟩ := Discipline.scopes.path_running hc hc.root_lt (c.program? input)
    rw [← machine_take] at hpath hend
    exact ⟨hend, hpath.leads⟩

/-- **No step of a session unbinds anything**, however it ends. -/
theorem session_extends (hc : c.machine.store.Sound) (steps : List Step) :
    (∀ e ∈ c.session steps,
      e.before.machine.store.Sound ∧ c.machine.store.Extends e.before.machine.store) ∧
    (c.session steps).Pairwise fun earlier later =>
      earlier.after.machine.store.Extends later.before.machine.store := by
  induction steps generalizing c with
  | nil => exact ⟨by simp [session], .nil⟩
  | cons step rest ih =>
    obtain ⟨hafter, hext⟩ := perform_extends hc step
    obtain ⟨hrest, hpairs⟩ := ih hafter
    refine ⟨fun e he => ?_, List.pairwise_cons.2 ⟨fun e he => (hrest e he).2, hpairs⟩⟩
    rcases List.mem_cons.1 he with rfl | he
    · exact ⟨hc, .refl _⟩
    · exact ⟨(hrest e he).1, hext.trans (hrest e he).2⟩

end Console

/-! ## The prompt -/

namespace Command

/-- **What happens at the prompt.** The input is read line by line, up to the first line that leaves
or to its end. The lines that are heard, stripped of blanks and without the empty ones and those that
ask for help, are entered into a fresh console, each once and in order:

* the state that the conversation leaves behind, what is shown and what is reported are those of that
  session, with the sign of the prompt in front of each line, the help text where it is asked for,
  and a line end when the conversation ends;
* each line ends under its guard, from which nothing breaks out, and the exit status is zero;
* what is bound at the root after a line can be read and assigned to in front of any later one,
  however the lines ended.

**Proof sketch.** A line that is heard brings about a session of at most one step, and the steps
follow one another. No step unbinds anything. -/
theorem prompt_serves_lines (limits : Limits) (clock : Clock) (colored : Painter)
    (options : Options) (input : String) :
    let c := Console.fresh limits (options.painter colored) clock
    let lines := Text.lines input
    let heard := Prompt.heard lines
    let log := c.session (Prompt.steps heard)
    let outcome := prompt limits clock colored options input
    (∃ closed last, input = String.join (closed.map (· ++ "\n")) ++ last ∧
      lines = closed ++ (if last = "" then [] else [last]) ∧
      ∀ line ∈ last :: closed, '\n' ∉ line.toList) ∧
    (∃ rest, lines = heard ++ rest ∧ (∀ line ∈ heard, ¬ Prompt.Commands "EOF" line) ∧
      ∀ line ∈ rest.head?, Prompt.Commands "EOF" line) ∧
    outcome.exit = 0 ∧
    outcome.output = Prompt.intro ++
      String.join (heard.mapIdx fun k line =>
        Prompt.sign ++ Prompt.reply (c.performAll (Prompt.steps (heard.take k))) line) ++
      Prompt.sign ++ "\n" ∧
    outcome.errors = String.join (log.map (·.answer.errors)) ∧
    Prompt.left c lines = c.performAll (Prompt.steps heard) ∧
    log.map Console.Entry.step = Prompt.steps heard ∧
    (log.IsChain fun earlier later => later.before = earlier.after) ∧
    (∀ e ∈ log, (e.before.attempt e.step).guarded = some (e.after, e.answer)) ∧
    log.Pairwise fun earlier later => ∀ name v,
      (name.lexeme, v) ∈ earlier.after.machine.globals → later.before.machine.Offers name := by
  intro c lines heard log outcome
  obtain ⟨hconverse, hleft⟩ := Prompt.converse_eq c lines
  have houtcome : outcome = ⟨0, Prompt.intro ++ (Prompt.converse c lines).1,
      (Prompt.converse c lines).2⟩ := rfl
  have hfresh : c.machine.store.Sound := Machine.sound_initial clock
  obtain ⟨hsound, hpairs⟩ := Console.session_extends hfresh (Prompt.steps heard)
  refine ⟨Text.exists_lines_eq input, Prompt.exists_eq_heard_append lines, rfl, ?_, ?_, hleft,
    Console.map_step_session c _, Console.isChain_session c _, fun e he => ?_, ?_⟩
  · rw [houtcome, hconverse]
    simp only [String.append_assoc]
    rfl
  · rw [houtcome, hconverse]
  · have hperform := Console.perform_of_mem_session he
    exact hperform ▸ Console.guarded_attempt e.before e.step
  · refine hpairs.imp_of_mem fun _ hlater hext name v hglobal => ?_
    exact Machine.offers_of_mem_globals hglobal (hsound _ hlater).1 hext

/-- A stray character, an empty line, a request for help, a fault and a run without an end: the value
that was bound before all of them is shown after them, and what stands behind the line that leaves is
not read. -/
theorem prompt_serves_failures :
    let input := "var a = 1;\n@\n\n?\na + nil\nfun f() \x7b f(); \x7d f();\n a \nEOF!\nprint 2;"
    let outcome :=
      prompt ⟨20, 9, 9, 9⟩ (fun _ => 0) .plain ⟨none, none, false, some 10000⟩ input
    let log := (Console.fresh ⟨20, 9, 9, 9⟩ .plain (fun _ => 0)).session
      (Prompt.steps (Prompt.heard (Text.lines input)))
    log.map (·.answer.status) = [.ok, .staticError, .runtimeError, .fatal, .ok] ∧
    outcome.exit = 0 ∧
    outcome.output = Prompt.intro ++ "> > > > " ++ Prompt.helpText ++ "> > > 1\n> \n" ∧
    outcome.errors = "[line 1] Error: Unexpected character '@'.\n" ++
      "Operands must be two numbers or two strings.\n[line 1]\n" ++
      "fatal: Stack overflow.\n" := by
  intro input outcome log
  obtain ⟨-, -, hexit, houtput, herrors, -⟩ :=
    prompt_serves_lines ⟨20, 9, 9, 9⟩ (fun _ => 0) .plain ⟨none, none, false, some 10000⟩ input
  refine ⟨by decide +kernel, hexit, houtput.trans ?_, herrors.trans ?_⟩
  all_goals decide +kernel

end Command

end LoxLang
