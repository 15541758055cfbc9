import LoxLang.Proofs.Console.Sequence
import LoxLang.Proofs.Scan.Longest

set_option autoImplicit false

/-!
# Faults of the text keep a program from running

A program runs only if nothing is wrong with any part of its text. Otherwise everything that is wrong
is reported, line by line, and the console is left as it was but for its reporter. The faults of
scanning and of parsing are two lists; the second one need not be in the order of lines, since an
improper assignment is found out only behind its right side.

## Main definitions

* `Complaint.Merges` — two lists of complaints put together by lines.
* `Scan.Broken` — a source holds a stray character or a quote that is never closed.
* `Reporter.Spares` — what is reported of a run, which complains about no text.

## Main results

* `Complaint.merges_sorted` — sorting puts two lists of complaints together by lines.
* `Console.submit_complains` — a program with a fault in its text is reported and does not run.
-/

namespace LoxLang

/-- The faults noted in a text that does not nest too deeply. -/
def Parsed.faults {α : Type} : Parsed α → List SyntaxFault
  | .done _ faults => faults
  | .tooDeep => []

/-! ## Two lists put together by lines -/

/-- Two lists of complaints put together: every complaint is there once, lines do not decrease, and
on one line those of the first list come first, each list in its own order. -/
structure Complaint.Merges (first second merged : List Complaint) : Prop where
  perm : merged.Perm (first ++ second)
  ordered : merged.Pairwise fun a b => a.line ≤ b.line
  stable : ∀ line : Int, merged.filter (·.line = line) =
    first.filter (·.line = line) ++ second.filter (·.line = line)

/-- **Sorting by lines puts two lists of complaints together.**

**Proof sketch.** Sorting keeps every ordered sublist in order, and the complaints on one line are an
ordered sublist. -/
theorem Complaint.merges_sorted (first second : List Complaint) :
    Merges first second (sorted (first ++ second)) := by
  have htrans : ∀ a b c : Complaint, decide (a.line ≤ b.line) = true →
      decide (b.line ≤ c.line) = true → decide (a.line ≤ c.line) = true := by
    simp only [decide_eq_true_eq]
    exact fun _ _ _ => Int.le_trans
  have htotal : ∀ a b : Complaint,
      (decide (a.line ≤ b.line) || decide (b.line ≤ a.line)) = true := by
    simp only [Bool.or_eq_true, decide_eq_true_eq]
    exact fun a b => Int.le_total a.line b.line
  have hperm : (sorted (first ++ second)).Perm (first ++ second) := List.mergeSort_perm _ _
  refine ⟨hperm, ?_, fun line => ?_⟩
  · have hsorted := List.pairwise_mergeSort htrans htotal (first ++ second)
    exact hsorted.imp fun h => by simpa using h
  · have hline : ((first ++ second).filter (·.line = line)).Pairwise
        fun a b => decide (a.line ≤ b.line) = true := by
      apply List.pairwise_of_forall_mem_list
      intro a ha b hb
      have hla : a.line = line := by simpa using (List.mem_filter.1 ha).2
      have hlb : b.line = line := by simpa using (List.mem_filter.1 hb).2
      simp [hla, hlb]
    have hsub := (List.sublist_mergeSort htrans htotal hline List.filter_sublist).filter
      (·.line = line)
    rw [List.filter_filter] at hsub
    simp only [Bool.and_self] at hsub
    have heq := hsub.eq_of_length (hperm.filter _).length_eq.symm
    rw [← List.filter_append, heq]
    rfl

/-! ## What is reported -/

namespace Reporter

/-- Complaints are reported one after another, each as it is by itself. -/
lemma complainAll_eq (r : Reporter) (complaints : List Complaint) :
    r.complainAll complaints =
      (if complaints = [] then r else { r with hadError := true },
        String.join (complaints.map fun c => (r.complain c).2)) := by
  induction complaints generalizing r with
  | nil => rfl
  | cons c rest ih =>
    have hrest : r.complainAll (c :: rest) = (((r.complain c).1.complainAll rest).1,
        (r.complain c).2 ++ ((r.complain c).1.complainAll rest).2) := rfl
    rw [hrest, ih, List.map_cons, String.join_cons]
    cases rest <;> rfl

/-- What is reported of a run: nothing, the fault that ended it, or something fatal. None of it is a
complaint about the text of a program. -/
inductive Spares (r : Reporter) : String → Prop
  | nothing : Spares r ""
  | fault (f : RuntimeFault) : Spares r (r.fault f.message f.token.line).2
  | fatal (message : String) : Spares r (r.fatal message).2

end Reporter

namespace Scan

/-- A source holds a character that begins nothing, or a quote that is never closed. -/
def Broken (source : String) : Prop :=
  ∃ pieces, Piece.Cuts source.toList pieces ∧
    ∃ p ∈ pieces, p.sort = .stray ∨ p.sort = .openString

/-- Pieces give a fault exactly if one of them is stray or not closed. -/
lemma Gives.faults_ne_nil_iff {before : List Char} {pieces : List Piece} {tokens : List Token}
    {faults : List LexicalFault} (h : Gives before pieces tokens faults) :
    faults ≠ [] ↔ ∃ p ∈ pieces, p.sort = .stray ∨ p.sort = .openString := by
  induction h with
  | nil => simp
  | token hk _ ih => cases hk <;> simpa using ih
  | apart hp _ ih => rcases hp with hp | hp | hp <;> simpa [hp] using ih
  | stray => simp
  | openString => simp

/-- A source is broken exactly if scanning it finds a fault. -/
lemma broken_iff {source : String} : Broken source ↔ (scan source).faults ≠ [] := by
  have hgives : Gives [] (Piece.cut source.toList) (scan source).tokens (scan source).faults :=
    gives_cut [] source.toList
  rw [hgives.faults_ne_nil_iff]
  constructor
  · rintro ⟨pieces, hcuts, hp⟩
    rwa [← Piece.cuts_iff.1 hcuts]
  · intro hp
    exact ⟨_, Piece.cuts_cut _, hp⟩

end Scan

namespace Console

variable {c : Console} {source : String} {program : Slots} {faults : List SyntaxFault}

/-- **A program with a fault in its text is reported and does not run.** If the text of a program
does not nest too deep, there are two cases. Either something is wrong with it, by scanning or by
parsing: then nothing is printed and nothing but the reporter changes, and what is written is one
report for each fault, put together by lines. Or nothing is: then the program is executed, and no
report is about its text.

**Proof sketch.** Both lists of faults are there before anything is executed, and execution takes
place only if both are empty. -/
theorem submit_complains (h : Grammar.parse c.limits.reading (scan source).tokens =
      .done program faults) :
    let lexical := (scan source).faults.map LexicalFault.complaint
    let syntactic := faults.map (SyntaxFault.complaint (scan source).lastLine)
    let after := (c.submit source).1
    let answer := (c.submit source).2
    (Scan.Broken source ∨ faults ≠ [] →
      answer.status = .staticError ∧ answer.output = [] ∧
      after = { c with reporter := { c.reporter with hadError := true } } ∧
      ∃ reports, Complaint.Merges lexical syntactic reports ∧
        answer.errors = String.join (reports.map fun r => (c.reporter.complain r).2)) ∧
    (¬ (Scan.Broken source ∨ faults ≠ []) →
      c.submit source = c.execute program ∧ answer.status ≠ .staticError ∧
      after.reporter.hadError = c.reporter.hadError ∧ c.reporter.Spares answer.errors) := by
  intro lexical syntactic after answer
  have hfaulty : Scan.Broken source ∨ faults ≠ [] ↔ lexical ++ syntactic ≠ [] := by
    rw [Scan.broken_iff, ne_eq, ne_eq, ne_eq, List.append_eq_nil_iff, not_and_or,
      List.map_eq_nil_iff, List.map_eq_nil_iff]
  have hsubmit : c.submit source =
      if (lexical ++ syntactic).isEmpty then c.execute program
      else
        let reported := c.reporter.complainAll (Complaint.sorted (lexical ++ syntactic))
        ({ c with reporter := reported.1 }, ⟨.staticError, [], reported.2⟩) := by
    unfold submit
    simp only [h]
    rfl
  rw [hfaulty]
  constructor
  · intro hne
    have hsorted : Complaint.sorted (lexical ++ syntactic) ≠ [] := by
      intro hnil
      have hperm := (Complaint.merges_sorted lexical syntactic).perm
      rw [hnil] at hperm
      exact hne hperm.nil_eq.symm
    rw [if_neg (by simpa using hne), Reporter.complainAll_eq, if_neg hsorted] at hsubmit
    simp only [after, answer, hsubmit]
    exact ⟨trivial, trivial, trivial, _, Complaint.merges_sorted lexical syntactic, rfl⟩
  · intro hclean
    rw [if_pos (by simpa using hclean)] at hsubmit
    simp only [after, answer, hsubmit, execute_eq_conclude]
    obtain ⟨m, ending⟩ := c.machine.cleared.interpret c.limits program
    cases ending with
    | finished => exact ⟨trivial, by simp [conclude], rfl, .nothing⟩
    | faulted f => exact ⟨trivial, by simp [conclude], rfl, .fault f⟩
    | tooDeep => exact ⟨trivial, by simp [conclude, failed], rfl, .fatal _⟩
    | tooLong => exact ⟨trivial, by simp [conclude, failed], rfl, .fatal _⟩

/-- In `(a) = 1 = 2 @;` on three lines the inner assignment is found out before the outer one, and
the stray character before both; the reports are in the order of lines. -/
theorem submit_complains_innerAssignment :
    let source := "(a)\n=\n1 = 2 @;"
    let c := fresh ⟨20, 9, 9, 9⟩ .plain (fun _ => 0)
    (c.submit source).2.status = .staticError ∧ (c.submit source).1.machine = c.machine ∧
    ∃ reports : List Complaint, reports.map Complaint.line = [2, 3, 3] ∧
      (c.submit source).2.errors = String.join (reports.map fun r => (c.reporter.complain r).2) := by
  intro source c
  have hscan : ((scan source).faults.map LexicalFault.complaint).map Complaint.line = [3] := by
    decide +kernel
  have hparse : ((Grammar.parse c.limits.reading (scan source).tokens).faults.map
      (SyntaxFault.complaint (scan source).lastLine)).map Complaint.line = [3, 2] := by
    decide +kernel
  cases h : Grammar.parse c.limits.reading (scan source).tokens with
  | tooDeep =>
    rw [h] at hparse
    contradiction
  | done program faults =>
    rw [h, Parsed.faults] at hparse
    have hne : faults ≠ [] := by
      rintro rfl
      contradiction
    obtain ⟨hstatus, -, hafter, reports, hmerges, herrors⟩ := (submit_complains h).1 (.inr hne)
    refine ⟨hstatus, by rw [hafter], reports, ?_, herrors⟩
    have hperm : (reports.map Complaint.line).Perm [2, 3, 3] := by
      apply (hmerges.perm.map Complaint.line).trans
      rw [List.map_append, hscan, hparse]
      decide
    apply hperm.eq_of_pairwise (fun _ _ _ _ => Int.le_antisymm)
    · exact List.pairwise_map.2 hmerges.ordered
    · decide

end Console

end LoxLang
