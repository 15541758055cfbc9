import LoxLang.Proofs.Console.Sequence
import LoxLang.Proofs.Evaluation.Limits

set_option autoImplicit false

/-!
# A console with wider limits

Limits cut runs short and change no answer. What ends under some limits ends in the same way under
wider ones. A source that nests too deep to be read leaves no trace but the message about it, and a
run that is given up has printed the beginning of what it prints under wider limits.

## Main definitions

* `Console.widened` — a console with other limits.
* `Answer.GivesUp` — an answer that gives up with a message.

## Main results

* `Console.submit_widened` — what wider limits make of a source.
-/

namespace LoxLang

/-- What is reported of two fatal messages is the same only if they are. -/
lemma Reporter.fatal_inj (r : Reporter) {first second : String}
    (h : (r.fatal first).2 = (r.fatal second).2) : first = second := by
  have htext := congrArg String.toList h
  simp only [fatal, String.toList_append, List.append_cancel_right_eq,
    List.append_cancel_left_eq] at htext
  exact String.toList_inj.1 htext

/-- An answer gives up with a message. -/
structure Answer.GivesUp (answer : Answer) (r : Reporter) (message : String) : Prop where
  status : answer.status = .fatal
  errors : answer.errors = (r.fatal message).2

namespace Console

variable {c : Console} {source : String} {wider : Limits}

/-- A console with other limits. -/
def widened (c : Console) (wider : Limits) : Console := { c with limits := wider }

/-- What is accepted under some limits is accepted under wider ones. -/
lemma Accepts.widened {program : Slots} (h : c.Accepts source program)
    (hw : c.limits.Within wider) : (c.widened wider).Accepts source program :=
  ⟨h.1, Grammar.parse_mono hw.reading h.2⟩

/-- A program that ends under some limits ends in the same way under wider ones. -/
lemma execute_widened (hw : c.limits.Within wider) {program : Slots}
    (h : (c.execute program).2.status ≠ .fatal) :
    (c.widened wider).execute program =
      ((c.execute program).1.widened wider, (c.execute program).2) := by
  rw [execute_eq_conclude] at h
  rcases Machine.interpret_within hw program c.machine.cleared with heq | ⟨hcut, -⟩
  · rw [execute_eq_conclude, execute_eq_conclude, heq]
    show (c.widened wider).conclude (c.machine.cleared.interpret wider program) = _
    obtain ⟨m, ending⟩ := c.machine.cleared.interpret wider program
    cases ending <;> rfl
  · rw [status_conclude] at h
    rcases hcut with hcut | hcut <;> simp [hcut] at h

/-- A program prints under wider limits what it prints under others, and more at most. -/
lemma output_execute_widened (hw : c.limits.Within wider) (program : Slots) :
    (c.execute program).2.output <+: ((c.widened wider).execute program).2.output := by
  simp only [execute_eq_conclude, output_conclude]
  rcases Machine.interpret_within hw program c.machine.cleared with heq | ⟨-, hprints⟩
  · rw [heq]
    exact List.prefix_rfl
  · exact hprints

/-- The run of a program is given up with one of two messages. -/
lemma givesUp_execute {program : Slots} (h : (c.execute program).2.status = .fatal) :
    (c.execute program).2.GivesUp c.reporter runningTooDeep ∨
      (c.execute program).2.GivesUp c.reporter runningTooLong := by
  rw [execute_eq_conclude] at h ⊢
  generalize c.machine.cleared.interpret c.limits program = run at h ⊢
  obtain ⟨m, ending⟩ := run
  cases ending with
  | finished | faulted => simp [status_conclude] at h
  | tooDeep => exact .inl ⟨rfl, rfl⟩
  | tooLong => exact .inr ⟨rfl, rfl⟩

/-- A fatal answer is about a source that nests too deep, or it comes from the run of a program. -/
lemma submit_of_fatal (h : (c.submit source).2.status = .fatal) :
    c.submit source = c.failed [] readingTooDeep ∨
      ∃ program, c.Accepts source program ∧ c.submit source = c.execute program := by
  cases hread : Grammar.parse c.limits.reading (scan source).tokens with
  | tooDeep => exact .inl (submit_of_tooDeep hread)
  | done program faults =>
    right
    have hsubmit := submit_of_parse hread
    dsimp only at hsubmit
    split at hsubmit
    · rename_i hclean
      obtain ⟨hscanned, rfl⟩ : (scan source).faults = [] ∧ faults = [] := by simpa using hclean
      exact ⟨program, ⟨hscanned, hread⟩, hsubmit⟩
    · simp [hsubmit] at h

/-- **Limits only cut runs short.** Under wider limits a source has the same answer and leaves the
same console behind, unless it ended with something fatal. If it nested too deep to be read, nothing
was executed, printed or reported but the message that says so. If its run was given up, the source
had no fault, and what was printed so far is the beginning of what is printed under wider limits.

**Proof sketch.** Reading with more depth gives the same program and the same faults, or it gives
anything where reading with less was too deep. The run of the program is the same, or it is cut
short. -/
theorem submit_widened (hw : c.limits.Within wider) (source : String) :
    let narrow := c.submit source
    let wide := (c.widened wider).submit source
    (narrow.2.status ≠ .fatal → wide = (narrow.1.widened wider, narrow.2)) ∧
    (narrow.2.GivesUp c.reporter readingTooDeep →
      narrow.1 = { c with reporter := (c.reporter.fatal readingTooDeep).1 } ∧
        narrow.2.output = []) ∧
    (narrow.2.GivesUp c.reporter runningTooDeep ∨ narrow.2.GivesUp c.reporter runningTooLong →
      (∃ program, c.Accepts source program) ∧ narrow.2.output <+: wide.2.output) := by
  intro narrow wide
  have hdistinct : readingTooDeep ≠ runningTooDeep ∧ readingTooDeep ≠ runningTooLong := by decide
  refine ⟨fun hstatus => ?_, fun hup => ?_, fun hup => ?_⟩
  · cases hread : Grammar.parse c.limits.reading (scan source).tokens with
    | tooDeep =>
      refine absurd ?_ hstatus
      simp only [narrow, submit_of_tooDeep hread]
      rfl
    | done program faults =>
      have hmore : Grammar.parse (c.widened wider).limits.reading (scan source).tokens =
          .done program faults := Grammar.parse_mono hw.reading hread
      simp only [narrow, wide, submit_of_parse hread, submit_of_parse hmore] at hstatus ⊢
      split
      · rename_i hclean
        rw [if_pos hclean] at hstatus
        exact execute_widened hw hstatus
      · rfl
  · rcases submit_of_fatal hup.status with hdeep | ⟨program, -, hexecute⟩
    · simp only [narrow, hdeep]
      exact ⟨rfl, rfl⟩
    · simp only [narrow, hexecute] at hup
      rcases givesUp_execute hup.status with hrun | hrun
      · exact absurd (c.reporter.fatal_inj (hup.errors.symm.trans hrun.errors)) hdistinct.1
      · exact absurd (c.reporter.fatal_inj (hup.errors.symm.trans hrun.errors)) hdistinct.2
  · have hfatal : narrow.2.status = .fatal := hup.elim (·.status) (·.status)
    rcases submit_of_fatal hfatal with hdeep | ⟨program, haccepts, hexecute⟩
    · have herrors : narrow.2.errors = (c.reporter.fatal readingTooDeep).2 := by
        simp only [narrow, hdeep]
        rfl
      rcases hup with hup | hup
      · exact absurd (c.reporter.fatal_inj (herrors.symm.trans hup.errors)) hdistinct.1
      · exact absurd (c.reporter.fatal_inj (herrors.symm.trans hup.errors)) hdistinct.2
    · refine ⟨⟨program, haccepts⟩, ?_⟩
      simp only [narrow, wide, hexecute, submit_of_accepts (haccepts.widened hw)]
      exact output_execute_widened hw program

/-- A value in parentheses nests one deeper than a value. With depth for the latter only, the second
of two statements is given up when the first one has printed. -/
theorem submit_widened_parentheses :
    let c := fresh ⟨20, 2, 9, 9⟩ .plain (fun _ => 0)
    let source := "print nil; print (nil);"
    (c.submit source).2.GivesUp c.reporter runningTooDeep ∧
      (c.submit source).2.output = ["nil"] ∧
      (c.submit source).2.output <+: ((c.widened ⟨20, 3, 9, 9⟩).submit source).2.output := by
  intro c source
  have hanswer : (c.submit source).2 = ⟨.fatal, ["nil"], "fatal: Stack overflow.\n"⟩ := by
    decide +kernel
  have hup : (c.submit source).2.GivesUp c.reporter runningTooDeep := by
    rw [hanswer]
    exact ⟨rfl, by decide⟩
  have hw : c.limits.Within ⟨20, 3, 9, 9⟩ := ⟨by decide, by decide, by decide⟩
  exact ⟨hup, by rw [hanswer], ((submit_widened hw source).2.2 (.inl hup)).2⟩

end Console

end LoxLang
