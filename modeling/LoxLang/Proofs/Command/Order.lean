import LoxLang.Proofs.Command.Modes

set_option autoImplicit false

/-!
# The order of reports

A faulty script is reported when it is run, and also when its trees are shown. Both report the same
complaints, but a run sorts them by lines first, and showing the trees does not: it reports all that
scanning finds in front of all that parsing finds. So the two write the same text only if what is
found is in the order of lines already, and if the stack does not run out while the trees are
shown, which is reported too. The order is right for a stray character in front of a syntax fault,
and wrong for one behind it.

## Main results

* `Reporter.eq_of_complainAll_eq` — what is reported determines the complaints, given those of each
  line in their order.
* `Complaint.sorted_eq_self_iff` — when sorting does nothing.
* `Command.errors_showTrees_eq_iff` — when the two texts are the same.
* `Command.reports_alike` — what is reported in both ways, for any faulty script.
-/

namespace LoxLang

/-! ## What reports tell of the complaints -/

namespace Reporter

/-- The digits of a number hold no bracket. -/
lemma bracket_notMem_toDigits (n : Nat) : ']' ∉ Nat.toDigits 10 n := fun h =>
  absurd (Nat.isDigit_of_mem_toDigits (by decide) (by decide) h) (by decide)

/-- A line as it is written holds no bracket. -/
lemma bracket_notMem_line (line : Int) : ']' ∉ (toString line).toList := by
  cases line with
  | ofNat n =>
    show ']' ∉ n.repr.toList
    simpa using bracket_notMem_toDigits n
  | negSucc n =>
    show ']' ∉ ("-" ++ (n + 1).repr).toList
    simpa using bracket_notMem_toDigits (n + 1)

/-- Reports begin with their lines. Texts that begin with two reports are different if these are of
different lines. -/
lemma line_eq_of_complain_append {r : Reporter} {c d : Complaint} {s t : String}
    (h : (r.complain c).2 ++ s = (r.complain d).2 ++ t) : c.line = d.line := by
  have hbracket : "] ".toList = [']', ' '] := rfl
  have hlist := congrArg String.toList h
  simp only [complain, String.toList_append, List.append_assoc, hbracket, List.cons_append] at hlist
  have hlines := congrArg (List.takeWhile (· != ']')) (List.append_cancel_left hlist)
  have hline : ∀ (line : Int) (rest : List Char),
      ((toString line).toList ++ ']' :: rest).takeWhile (· != ']') = (toString line).toList := by
    intro line rest
    rw [List.takeWhile_append_of_pos]
    · simp
    · intro a ha
      exact bne_iff_ne.2 fun heq => bracket_notMem_line line (heq ▸ ha)
  rw [hline, hline] at hlines
  exact Int.repr_injective (String.toList_injective hlines)

/-- Reports of complaints that have the same order on each line are the same only for the same
complaints.

**Proof sketch.** The first two reports begin alike, so they are of the same line, and both are the
first ones of that line. -/
lemma eq_of_complainAll_eq {r : Reporter} {found reported : List Complaint}
    (hstable : ∀ line : Int, found.filter (·.line = line) = reported.filter (·.line = line))
    (h : (r.complainAll found).2 = (r.complainAll reported).2) : found = reported := by
  induction found generalizing reported with
  | nil => exact (complainAll_eq_empty_iff.1 h.symm).symm
  | cons c rest ih =>
    cases reported with
    | nil => exact complainAll_eq_empty_iff.1 h
    | cons d others =>
      simp only [complainAll_eq, List.map_cons, String.join_cons] at h
      have hline := line_eq_of_complain_append h
      have hheads := hstable d.line
      simp only [List.filter_cons, hline, decide_true, if_true, List.cons.injEq] at hheads
      obtain ⟨rfl, -⟩ := hheads
      refine congrArg (c :: ·) (ih (fun line => ?_) ?_)
      · have := hstable line
        by_cases hc : c.line = line <;> simpa [List.filter_cons, hc] using this
      · simpa [complainAll_eq] using (String.append_right_inj _).1 h

/-- Reports are as long in any order. -/
lemma length_complainAll {r : Reporter} {found reported : List Complaint}
    (h : found.Perm reported) :
    (r.complainAll found).2.length = (r.complainAll reported).2.length := by
  simp only [complainAll_eq, String.length_join, List.map_map]
  exact (h.map _).sum_nat

end Reporter

/-- Sorting leaves complaints as they are if and only if they are in the order of lines. -/
lemma Complaint.sorted_eq_self_iff {found : List Complaint} :
    sorted found = found ↔ found.Pairwise fun a b => a.line ≤ b.line := by
  constructor
  · intro hsorted
    rw [← hsorted]
    exact (merges_sorted [] found).ordered
  · intro hordered
    exact List.mergeSort_of_pairwise (hordered.imp fun hle => decide_eq_true hle)

/-- Whether a text does not nest too deep and what was read passes a test. -/
def Parsed.passes {α : Type} (test : α → Bool) : Parsed α → Bool
  | .done value _ => test value
  | .tooDeep => false

/-! ## The two orders -/

namespace Command

variable {limits : Limits} {clock : Clock} {painter colored : Painter} {source : String}
  {program : Slots} {faults : List SyntaxFault} {bytes : List UInt8} {text : List Char}
  {options : Options} {path : String}

/-- A report that the stack ran out is not hidden by another order of the complaints: it makes the
reports longer. -/
lemma errors_shown_cut_ne {found reported : List Complaint} {output output' : String}
    (h : found.Perm reported) :
    (shown painter found false output).errors ≠ (shown painter reported true output').errors := by
  intro hsame
  have hlength := congrArg String.length hsame
  have hreport : 0 < (overflow painter).length :=
    Nat.pos_of_ne_zero (mt String.length_eq_zero_iff.1 (overflow_ne_empty painter))
  simp only [shown, String.length_append, Reporter.length_complainAll h, Bool.false_eq_true,
    if_false, if_true, String.length_empty] at hlength
  omega

/-- The trees of a faulty text come with what a run of it reports if and only if the complaints are
found in the order of lines and no tree nests too deep.

**Proof sketch.** A run sorts them, which does nothing to what is sorted. Conversely, sorting keeps
the order on each line, so the same reports are those of the same list. Nor does it change how long
the reports are, so nothing stands behind them. -/
theorem errors_showTrees_eq_iff (limits : Limits) (clock : Clock) (painter : Painter)
    (h : Grammar.parse limits.reading (scan source).tokens = .done program faults)
    (hwrong : Console.complaints source faults ≠ []) :
    (showTrees limits (Reporter.fresh painter) source).errors =
        (runSource limits clock painter source).errors ↔
      ((Console.complaints source faults).Pairwise fun a b => a.line ≤ b.line) ∧
        ∀ slot ∈ program, fits limits slot := by
  rw [showTrees_of_parse h, runSource_of_complaints h hwrong, ← Complaint.sorted_eq_self_iff]
  have hmerges := Complaint.merges_sorted ((scan source).faults.map LexicalFault.complaint)
    (faults.map (SyntaxFault.complaint (scan source).lastLine))
  cases hwhole : program.all (fits limits) with
  | false =>
    obtain ⟨slot, hslot, hdeep⟩ := all_fits_eq_false_iff.1 hwhole
    exact iff_of_false (errors_shown_cut_ne hmerges.perm.symm) fun h => hdeep (h.2 slot hslot)
  | true =>
    simp only [shown, if_true, String.append_empty]
    rw [and_iff_left (by simpa using hwhole)]
    constructor
    · intro hsame
      refine (Reporter.eq_of_complainAll_eq (fun line => ?_) hsame).symm
      exact ((hmerges.stable line).trans (List.filter_append ..).symm).symm
    · intro hsorted
      rw [hsorted]

/-- **Running a faulty script and showing its trees report the same complaints in two orders.** With
the trees comes what scanning finds and then what parsing finds, and behind that, if one of them
nests too deep, that the stack ran out; a run reports the complaints put together by lines. The two
texts are the same exactly if what is found is in the order of lines already and no tree nests too
deep. -/
theorem reports_alike (limits : Limits) (clock : Clock) (colored : Painter)
    (hmode : options.dump = none) (htext : Utf8.decode bytes = .ok text)
    (hparse : Grammar.parse limits.reading
      (scan (String.ofList (Text.unifyLineEnds text))).tokens = .done program faults) :
    let source := String.ofList (Text.unifyLineEnds text)
    let lexical := (scan source).faults.map LexicalFault.complaint
    let syntactic := faults.map (SyntaxFault.complaint (scan source).lastLine)
    let painter := options.painter colored
    let report (c : Complaint) := ((Reporter.fresh painter).complain c).2
    let run := script limits clock colored options path (.bytes bytes)
    let trees := script limits clock colored (options.showing .tree) path (.bytes bytes)
    Scan.Broken source ∨ faults ≠ [] →
    trees.errors = String.join ((lexical ++ syntactic).map report) ++
      (if ∀ slot ∈ program, fits limits slot then "" else overflow painter) ∧
    (∃ reports, Complaint.Merges lexical syntactic reports ∧
      run.errors = String.join (reports.map report)) ∧
    (trees.errors = run.errors ↔
      ((lexical ++ syntactic).Pairwise fun a b => a.line ≤ b.line) ∧
        ∀ slot ∈ program, fits limits slot) := by
  intro source lexical syntactic painter report run trees hfaulty
  have hwrong : Console.complaints source faults ≠ [] := complaints_ne_nil_iff.2 hfaulty
  have hrun : run = runSource limits clock painter source := script_of_run hmode htext
  have htrees : trees = showTrees limits (Reporter.fresh painter) source := script_of_decode htext
  rw [hrun, htrees]
  refine ⟨?_, ⟨Complaint.sorted (lexical ++ syntactic), Complaint.merges_sorted .., ?_⟩,
    errors_showTrees_eq_iff limits clock painter hparse hwrong⟩
  · rw [showTrees_of_parse hparse, shown, Reporter.complainAll_eq]
    simp only [List.all_eq_true]
    rfl
  · rw [runSource_of_complaints hparse hwrong, shown, Reporter.complainAll_eq]
    exact String.append_empty

/-- A stray character in front of a print without an expression: a run reports what comes with the
trees. -/
theorem reports_alike_strayFirst :
    let options : Options := ⟨some "script.lox", none, false, some 10000⟩
    let contents := Contents.bytes (Utf8.bytesOf "@\nprint ;".toList)
    let outcome (o : Options) :=
      script ⟨20, 9, 9, 9⟩ (fun _ => 0) .plain o "script.lox" contents
    (outcome options).errors = "[line 1] Error: Unexpected character '@'.\n" ++
      "[line 2] Error at ';': Expect expression.\n" := by
  intro options contents outcome
  let source := String.ofList (Text.unifyLineEnds "@\nprint ;".toList)
  have htext : Utf8.decode (Utf8.bytesOf "@\nprint ;".toList) =
      .ok "@\nprint ;".toList := by decide +kernel
  have hshown : (outcome (options.showing .tree)).errors =
      "[line 1] Error: Unexpected character '@'.\n" ++
        "[line 2] Error at ';': Expect expression.\n" := by
    decide +kernel
  have hfits :
      (Grammar.parse 20 (scan source).tokens).passes (·.all (fits ⟨20, 9, 9, 9⟩)) = true := by
    decide +kernel
  have hfaults : (Grammar.parse 20 (scan source).tokens).faults ≠ [] := by decide +kernel
  have hordered : (Console.complaints source
      (Grammar.parse 20 (scan source).tokens).faults).Pairwise fun a b => a.line ≤ b.line := by
    decide +kernel
  obtain ⟨program, hparse⟩ := Parsed.eq_done hfaults
  rw [hparse] at hfits
  obtain ⟨-, -, halike⟩ := reports_alike ⟨20, 9, 9, 9⟩ (fun _ => 0) .plain
    (show options.dump = none from rfl) htext hparse (.inr hfaults)
  exact (halike.2 ⟨hordered, List.all_eq_true.1 hfits⟩).symm.trans hshown

/-- A print without an expression in front of a stray character: the stray character comes first
with the trees, and not in a run. -/
theorem reports_differ_strayLast :
    let options : Options := ⟨some "script.lox", none, false, some 10000⟩
    let contents := Contents.bytes (Utf8.bytesOf "print ;\n@".toList)
    let outcome (o : Options) :=
      script ⟨20, 9, 9, 9⟩ (fun _ => 0) .plain o "script.lox" contents
    (outcome (options.showing .tree)).errors = "[line 2] Error: Unexpected character '@'.\n" ++
      "[line 1] Error at ';': Expect expression.\n" ∧
    (outcome options).errors ≠ (outcome (options.showing .tree)).errors := by
  intro options contents outcome
  refine ⟨by decide +kernel, fun hsame => ?_⟩
  let source := String.ofList (Text.unifyLineEnds "print ;\n@".toList)
  have htext : Utf8.decode (Utf8.bytesOf "print ;\n@".toList) = .ok "print ;\n@".toList := by
    decide +kernel
  have hfaults : (Grammar.parse 20 (scan source).tokens).faults ≠ [] := by decide +kernel
  have hunordered : ¬ (Console.complaints source
      (Grammar.parse 20 (scan source).tokens).faults).Pairwise fun a b => a.line ≤ b.line := by
    decide +kernel
  obtain ⟨program, hparse⟩ := Parsed.eq_done hfaults
  have hrun : (outcome options).errors = _ :=
    congrArg Outcome.errors (script_of_run (show options.dump = none from rfl) htext)
  have htrees : (outcome (options.showing .tree)).errors = _ :=
    congrArg Outcome.errors (script_of_decode htext)
  rw [hrun, htrees] at hsame
  apply hunordered
  exact ((errors_showTrees_eq_iff ⟨20, 9, 9, 9⟩ (fun _ => 0) .plain hparse
    (complaints_ne_nil_iff.2 (.inr hfaults))).1 hsame.symm).1

end Command

end LoxLang
