import LoxLang.Proofs.Console.Scopes
import LoxLang.Proofs.Evaluation.Accounted
import LoxLang.Proofs.Grammar.Whole

set_option autoImplicit false

/-!
# What accepted programs are to blame for

A program that a console runs is one that it accepted, and so are those from which the function
values on its machine come. So all trees at hand are whole over the tokens of accepted sources,
nothing that is missing is ever run, and a fault is one of a few at a token of one of these sources.

## Main definitions

* `Console.after` — a console after all that it was given.
* `Console.vocabulary` — the tokens of all that a console accepts.

## Main results

* `Console.whole_of_program?` — a program that is run is whole over the tokens of its source.
* `Console.whole_after` — so are the bodies of the function values that it leaves behind.
* `Console.take_accepted` — what running an accepted program can come to.
-/

namespace LoxLang

namespace Console

/-- The text of what a console is given. -/
def Input.text : Input → String
  | program source => source
  | line text => text

/-- A console after all that it was given. -/
def after (c : Console) (inputs : List Input) : Console :=
  inputs.foldl (fun c input => (c.take input).1) c

/-- The tokens of all that a console accepts of what it is given. -/
def vocabulary (c : Console) : List Input → List Token
  | [] => []
  | input :: rest =>
    (if (c.program? input).isSome then (scan input.text).tokens else []) ++
      (c.take input).1.vocabulary rest

variable {c : Console} {input : Input} {program : Slots} {tokens : List Token}

/-- A source that is accepted is whole over its tokens. -/
lemma Accepts.whole {source : String} (h : c.Accepts source program) :
    Stmt.AllWhole (scan source).tokens false program := Grammar.whole_of_parse h.2

/-- A bare expression is whole over the tokens of its line. -/
lemma whole_of_bare {limits : Limits} {text : String} {e : Expr} {faults : List SyntaxFault}
    (h : bare limits text = .done (some e) faults) : e.Whole (scan text).tokens := by
  unfold bare at h
  dsimp only at h
  split at h
  · cases hparse : Grammar.parseExpression limits.reading (scan text).tokens with
    | tooDeep => simp [hparse] at h
    | done e' faults' =>
      rw [hparse] at h
      cases e' with
      | none => simp at h
      | some e' =>
        cases faults' with
        | nil =>
          obtain rfl := Option.some.inj (Parsed.done.inj h).1
          exact Grammar.whole_of_parseExpression hparse
        | cons => simp at h
  · simp at h

/-- **A program that is run is whole over the tokens of its source.** -/
theorem whole_of_program? (h : c.program? input = some program) :
    Stmt.AllWhole (scan input.text).tokens false program := by
  cases input with
  | program source => exact (read?_eq_some.1 h).whole
  | line text =>
    unfold program? at h
    dsimp only at h
    cases hbare : bare c.limits text with
    | tooDeep =>
      rw [hbare] at h
      contradiction
    | done e faults =>
      rw [hbare] at h
      cases e with
      | none => exact (read?_eq_some.1 h).whole
      | some e =>
        obtain rfl := Option.some.inj h
        exact ⟨whole_of_bare hbare, trivial⟩

/-- Running a program on a machine with whole bodies leaves whole bodies behind. -/
lemma whole_ran (hm : c.machine.Whole tokens) (hprogram : ∀ program ∈ c.program? input,
    Stmt.AllWhole tokens false program) : (c.take input).1.machine.Whole tokens := by
  rw [machine_take]
  cases hp : c.program? input with
  | none => exact hm
  | some program =>
    have hcleared : c.machine.cleared.Whole tokens := hm
    exact (Accounted.interpret c.limits (hprogram program hp) hcleared).2.1

/-- **The bodies of the function values that a console has are whole** over the tokens of what it
accepted. -/
theorem whole_after (inputs : List Input) {c : Console} {tokens : List Token}
    (hm : c.machine.Whole tokens) :
    (c.after inputs).machine.Whole (tokens ++ c.vocabulary inputs) := by
  induction inputs generalizing c tokens with
  | nil => simpa [after, vocabulary] using hm
  | cons input rest ih =>
    have hstep : (c.take input).1.machine.Whole
        (tokens ++ if (c.program? input).isSome then (scan input.text).tokens else []) := by
      apply whole_ran (hm.mono (List.subset_append_left _ _))
      intro program hp
      apply (whole_of_program? hp).mono _ id
      rw [Option.isSome_iff_exists.2 ⟨program, hp⟩]
      exact List.subset_append_right _ _
    have hrest := ih hstep
    rwa [List.append_assoc] at hrest

/-- The native functions have no bodies. -/
lemma whole_initial (clock : Clock) : (Machine.initial clock).Whole tokens := by
  refine Machine.store_initial_induction
    (P := fun s => ({ Machine.initial clock with store := s } : Machine).Whole tokens) ?_ ?_ clock
  · intro scope a ha b hb
    simp [Store.bindings_initial ha] at hb
  · exact fun s f hs => hs.define (Value.whole_of_plain (by simp)) Store.root f.name

/-- What a program brings about is what its run is made into. -/
lemma answer_take (h : c.program? input = some program) :
    (c.take input).2 = (c.conclude (c.machine.cleared.interpret c.limits program)).2 := by
  cases input with
  | program source => exact congrArg Prod.snd (submit_of_accepts (read?_eq_some.1 h))
  | line text =>
    unfold program? at h
    dsimp only at h
    show (c.enter text).2 = _
    unfold enter
    dsimp only
    cases hbare : bare c.limits text with
    | tooDeep =>
      rw [hbare] at h
      contradiction
    | done e faults =>
      rw [hbare] at h
      cases e with
      | none => exact congrArg Prod.snd (submit_of_accepts (read?_eq_some.1 h))
      | some e =>
        obtain rfl := Option.some.inj h
        rfl

/-- **What running an accepted program can come to.** On a console that starts fresh and was given
anything before, let a program be run, over the tokens of its source and of all sources accepted
before. No slot of the program is empty, and all trees are whole at each moment of the run, those of
function values from earlier programs included: so nothing that is missing is executed, every operator
is known, and a return stands in function bodies only. No statement of the program completes with a
return. If a run-time fault is reported, it is that of a name that is not defined, of operands that
an operator is not meant for, or of a call that is refused, its token is one of these tokens and of
the kind that belongs to it, and at one moment of the run an expression began which failed with this
fault: its parts had their values, and the token is its own.

**Proof sketch.** What is read without faults is a proper phrase, whose tree is whole. Function values
get their bodies from whole trees, so by induction over what the console was given all its function
values have whole bodies. A run of whole trees is accounted for. -/
theorem take_accepted (limits : Limits) (painter : Painter) (clock : Clock) (inputs : List Input)
    (input : Input) {program : Slots} :
    let c := (fresh limits painter clock).after inputs
    let tokens := (fresh limits painter clock).vocabulary inputs ++ (scan input.text).tokens
    c.program? input = some program →
    (∀ slot ∈ program, ∃ st, slot = some st ∧ st.Whole tokens false) ∧
    (∀ a ∈ c.running (some program), a.Whole tokens) ∧
    (∀ st, some st ∈ program → ∀ m completion n,
      LoxLang.execute c.limits.rounds c.limits.depth Store.root st m = .ok completion n →
        completion = .normal) ∧
    ((c.take input).2.status = .runtimeError →
      ∃ f : RuntimeFault, (c.take input).2.errors = (c.reporter.fault f.message f.token.line).2 ∧
        f.Ordinary tokens ∧
        ∃ a ∈ c.running (some program), a.Blames c.limits.rounds f) := by
  intro c tokens h
  have hprogram : Stmt.AllWhole tokens false program :=
    (whole_of_program? h).mono (List.subset_append_right _ _) id
  have hmachine : c.machine.cleared.Whole tokens := by
    have hinitial : (fresh limits painter clock).machine.Whole [] := whole_initial clock
    exact (whole_after inputs hinitial).mono (List.subset_append_left _ _)
  obtain ⟨hmoments, -, hfault⟩ := Accounted.interpret c.limits hprogram hmachine
  refine ⟨Stmt.allWhole_iff.1 hprogram, ?_, ?_, ?_⟩
  · exact List.forall_mem_cons.2 ⟨⟨trivial, hmachine, by simp⟩, hmoments⟩
  · intro st hst
    exact (hprogram.of_mem hst).normal c.limits.rounds c.limits.depth Store.root
  · intro hstatus
    rw [answer_take h] at hstatus ⊢
    cases hend : (c.machine.cleared.interpret c.limits program).2 with
    | faulted f =>
      obtain ⟨hordinary, a, ha, hblames⟩ := hfault f hend
      refine ⟨f, ?_, hordinary, a, List.mem_cons_of_mem _ ha, hblames⟩
      simp [conclude, hend]
    | finished | tooDeep | tooLong => simp [status_conclude, hend] at hstatus

/-- The fault of `f(nil)` is that of the minus sign in the function `f` that an earlier line
declared. -/
theorem take_accepted_earlierFunction :
    let declaring := Input.line "fun f(x) \x7b return -x; \x7d"
    let calling := Input.line "f(nil)"
    let c := (fresh ⟨30, 30, 5, 9⟩ .plain (fun _ => 0)).after [declaring]
    (c.program? calling).isSome = true ∧
      (c.take calling).2 = ⟨.runtimeError, [], "Operand must be a number.\n[line 1]\n"⟩ ∧
      ∃ f : RuntimeFault, f.Ordinary ((scan declaring.text).tokens ++ (scan calling.text).tokens) ∧
        (c.take calling).2.errors = (c.reporter.fault f.message f.token.line).2 := by
  intro declaring calling c
  have hread : (c.program? calling).isSome = true := by decide +kernel
  have haccepted : ((fresh ⟨30, 30, 5, 9⟩ .plain (fun _ => 0)).program? declaring).isSome = true := by
    decide +kernel
  have hanswer : (c.take calling).2 =
      ⟨.runtimeError, [], "Operand must be a number.\n[line 1]\n"⟩ := by decide +kernel
  obtain ⟨program, hprogram⟩ := Option.isSome_iff_exists.1 hread
  obtain ⟨-, -, -, hfault⟩ :=
    take_accepted ⟨30, 30, 5, 9⟩ .plain (fun _ => 0) [declaring] calling hprogram
  obtain ⟨f, herrors, hordinary, -⟩ := hfault (by rw [hanswer])
  refine ⟨hread, hanswer, f, ?_, herrors⟩
  simpa [vocabulary, haccepted] using hordinary

end Console

end LoxLang
