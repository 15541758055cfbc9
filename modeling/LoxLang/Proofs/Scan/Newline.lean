import LoxLang.Proofs.Scan.Reading

set_option autoImplicit false

/-!
# Scanning splits at a line end

No piece but a string, or a quote that is never closed, goes on over a line end, and a line end is
no part of any token. So two texts with a line end between them can be scanned one after the other.

## Main results

* `Piece.first_append_newline` — a piece does not depend on what comes behind a line end.
* `Scan.tokensFrom_append_newline`, `Scan.faultsFrom_append_newline` — scanning splits at a line end
  behind a text in which every string is closed.
* `Scan.tokensFrom_add`, `Scan.faultsFrom_add` — beginning further down moves all lines.
* `Scan.scan_append_newline` — two sources with a line end between them.
-/

namespace LoxLang

namespace Piece

variable {c : Char} {text : List Char}

/-- A run that ends within a text ends there in front of anything. -/
lemma run_append_of_ne_nil {p : Char → Bool} (h : text.dropWhile p ≠ []) (more : List Char) :
    run p (text ++ more) = (text.takeWhile p, text.dropWhile p ++ more) := by
  induction text with
  | nil => simp at h
  | cons d text ih =>
    cases hd : p d with
    | true =>
      have hrest : text.dropWhile p ≠ [] := by simpa [hd] using h
      have := ih hrest
      simp only [run, Prod.mk.injEq] at this
      simp [run, hd, this.1, this.2]
    | false => simp [run, hd]

/-- A run that does not go on with a character ends in front of it. -/
lemma run_append_cons {p : Char → Bool} {d : Char} (hd : p d = false) (text more : List Char) :
    run p (text ++ d :: more) = (text.takeWhile p, text.dropWhile p ++ d :: more) := by
  induction text with
  | nil => simp [run, hd]
  | cons e text ih =>
    cases he : p e with
    | true =>
      simp only [run, Prod.mk.injEq] at ih
      simp [run, he, ih.1, ih.2]
    | false => simp [run, he]

/-- A fraction does not depend on what comes behind a line end. -/
lemma fraction_append_newline (text more : List Char) :
    fraction (text ++ '\n' :: more) = ((fraction text).1, (fraction text).2 ++ '\n' :: more) := by
  have hdigit : Char.isDigit '\n' = false := by decide
  match text with
  | [] => rfl
  | [d] =>
    by_cases hd : d = '.'
    · subst hd
      simp [fraction, hdigit]
    · simp [fraction, hd]
  | d :: e :: text =>
    by_cases hd : d = '.'
    · subst hd
      have hrun := run_append_cons hdigit text more
      simp only [run, Prod.mk.injEq] at hrun
      cases he : e.isDigit <;> simp [fraction, he, hrun.1, hrun.2]
    · simp [fraction, hd]

/-- An operator does not depend on what comes behind a line end. -/
lemma symbol_append_newline (c : Char) (text more : List Char) :
    symbol c (text ++ '\n' :: more) = ((symbol c text).1, (symbol c text).2 ++ '\n' :: more) := by
  have hpair : Token.Kind.ofPair? c '\n' = none := by
    unfold Token.Kind.ofPair?
    split <;> simp_all
  cases text with
  | nil =>
    cases h : Token.Kind.ofSymbol? c <;> simp [symbol, hpair, h]
  | cons d text =>
    cases h : Token.Kind.ofPair? c d <;> cases h' : Token.Kind.ofSymbol? c <;>
      simp [symbol, h, h']

/-- Line ends make one piece. -/
lemma first_newline (text : List Char) : first '\n' text =
    (⟨.lineEnds, '\n' :: text.takeWhile (· == '\n')⟩, text.dropWhile (· == '\n')) := by
  simp [first, startsWord, run]

/-- **A piece does not depend on what comes behind a line end**, unless it is a quote that is never
closed, or line ends themselves. -/
theorem first_append_newline (hc : c ≠ '\n') (ho : (first c text).1.sort ≠ .openString)
    (more : List Char) :
    first c (text ++ '\n' :: more) = ((first c text).1, (first c text).2 ++ '\n' :: more) := by
  have hhead : (text ++ '\n' :: more).head? = some '/' ↔ text.head? = some '/' := by
    cases text <;> simp
  unfold first at ho ⊢
  simp only [Bool.and_eq_true, beq_iff_eq, hhead] at ho ⊢
  by_cases hcomment : c = '/' ∧ text.head? = some '/'
  · have hrun := run_append_cons (p := (· != '\n')) (d := '\n') (by simp) text more
    simp only [if_pos hcomment, hrun]
    rfl
  rw [if_neg hcomment] at ho
  rw [if_neg hcomment, if_neg hcomment]
  by_cases hquote : c = '"'
  · rw [if_pos hquote] at ho
    rw [if_pos hquote, if_pos hquote]
    have hclosed : text.dropWhile (· != '"') ≠ [] := by
      intro hnil
      simp [quoted, run, hnil] at ho
    simp only [quoted, run_append_of_ne_nil hclosed]
    obtain ⟨quote, rest, hrest⟩ := List.exists_cons_of_ne_nil hclosed
    simp [run, hrest]
  rw [if_neg hquote, if_neg hquote]
  by_cases hdigit : c.isDigit = true
  · rw [if_pos hdigit, if_pos hdigit]
    have hrun := run_append_cons (p := Char.isDigit) (d := '\n') (by decide) text more
    simp only [numeral, hrun, fraction_append_newline]
    rfl
  rw [if_neg hdigit, if_neg hdigit]
  by_cases hword : startsWord c = true
  · rw [if_pos hword, if_pos hword]
    have hrun := run_append_cons (p := continuesWord) (d := '\n') (by decide) text more
    simp only [hrun]
    rfl
  rw [if_neg hword, if_neg hword, if_neg hc, if_neg hc]
  by_cases hblank : isBlank c = true
  · rw [if_pos hblank, if_pos hblank]
  · rw [if_neg hblank, if_neg hblank]
    exact symbol_append_newline c text more

/-- Numbering pieces leaves none out. -/
lemma exists_mem_place {p : Piece} {pieces : List Piece} (h : p ∈ pieces) (line : Nat) :
    ∃ place, (p, place) ∈ Piece.place line pieces := by
  induction pieces generalizing line with
  | nil => simp at h
  | cons q pieces ih =>
    rw [place_cons]
    rcases List.mem_cons.1 h with rfl | h
    · exact ⟨line, by simp⟩
    · obtain ⟨place, hmem⟩ := ih h (line + q.lineCount)
      exact ⟨place, List.mem_cons_of_mem _ hmem⟩

/-- The line ends of a text are those of its first piece and those of what is left. -/
lemma count_first (c : Char) (text : List Char) :
    (first c text).1.lineCount + (first c text).2.count '\n' = (c :: text).count '\n' := by
  rw [← first_append, List.count_append]
  rfl

end Piece

namespace Scan

variable {β : Type} {g : Piece → Nat → Option β} {first second text : List Char} {line : Nat}

/-- A line end contributes a line and nothing else. -/
lemma contributions_newline (hg : ∀ text line, g ⟨.lineEnds, text⟩ line = none) (line : Nat)
    (text : List Char) : contributions g line ('\n' :: text) = contributions g (line + 1) text := by
  rw [contributions_cons, Piece.first_newline, hg]
  cases text with
  | nil => rfl
  | cons c text =>
    by_cases hc : c = '\n'
    · subst hc
      rw [contributions_cons, Piece.first_newline, hg]
      simp only [Piece.lineCount, List.takeWhile_cons, List.dropWhile_cons, beq_self_eq_true,
        if_true, List.count_cons_self]
      congr 2
      omega
    · have hcb : (c == '\n') = false := by simpa using hc
      simp [Piece.lineCount, hcb]

/-- Every string of a text is closed. -/
def Closed (text : List Char) : Prop := ∀ p ∈ Piece.cut text, p.sort ≠ .openString

/-- Every string of a text is closed if that holds of its first piece and of what is left. -/
lemma closed_cons {c : Char} : Closed (c :: text) ↔
    (Piece.first c text).1.sort ≠ .openString ∧ Closed (Piece.first c text).2 := by
  simp [Closed, Piece.cut_cons]

/-- A line end closes nothing. -/
lemma closed_newline (h : Closed ('\n' :: text)) : Closed text := by
  have hrest := (closed_cons.1 h).2
  rw [Piece.first_newline] at hrest
  cases text with
  | nil => exact hrest
  | cons c text =>
    by_cases hc : c = '\n'
    · subst hc
      rw [closed_cons, Piece.first_newline]
      exact ⟨by simp, by simpa using hrest⟩
    · have hcb : (c == '\n') = false := by simpa using hc
      simpa [hcb] using hrest

/-- **Scanning splits at a line end** behind a text in which every string is closed.

**Proof sketch.** Induction on the length of the text, of which each piece takes at least one
character. Line ends at its end may make one piece with the line end behind it; a piece of line ends
contributes nothing but their number. -/
theorem contributions_append_newline (hg : ∀ text line, g ⟨.lineEnds, text⟩ line = none)
    (hf : Closed first) (line : Nat) (second : List Char) :
    contributions g line (first ++ '\n' :: second) =
      contributions g line first ++ contributions g (line + first.count '\n' + 1) second := by
  induction hn : first.length using Nat.strongRecOn generalizing first line with
  | ind n ih =>
    cases first with
    | nil => simp [contributions_newline hg]
    | cons c rest =>
      by_cases hc : c = '\n'
      · subst hc
        rw [List.cons_append, contributions_newline hg, contributions_newline hg,
          ih _ (by simp at hn; omega) (closed_newline hf) _ rfl, List.count_cons_self]
        congr 2
        omega
      · obtain ⟨hclosed, hleft⟩ := closed_cons.1 hf
        have hlength := Piece.length_rest_first c rest
        have hcount := Piece.count_first c rest
        rw [List.cons_append, contributions_cons, Piece.first_append_newline hc hclosed,
          contributions_cons, ih _ (by simp at hn; omega) hleft _ rfl, ← hcount]
        simp only [List.append_assoc, Nat.add_assoc]

/-- Tokens in front of a line end and behind it. -/
lemma tokensFrom_append_newline (hf : Closed first) (line : Nat) (second : List Char) :
    tokensFrom line (first ++ '\n' :: second) =
      tokensFrom line first ++ tokensFrom (line + first.count '\n' + 1) second :=
  contributions_append_newline (g := Piece.token?) (fun _ _ => rfl) hf line second

/-- Faults in front of a line end and behind it. -/
lemma faultsFrom_append_newline (hf : Closed first) (line : Nat) (second : List Char) :
    faultsFrom line (first ++ '\n' :: second) =
      faultsFrom line first ++ faultsFrom (line + first.count '\n' + 1) second :=
  contributions_append_newline (g := Piece.fault?) (fun _ _ => rfl) hf line second

/-- Every string of a text is closed if no fault says otherwise. -/
lemma closed_of_faults (h : ∀ f ∈ faultsFrom line text, f.cause ≠ .unterminatedString) :
    Closed text := by
  intro p hp hopen
  obtain ⟨place, hmem⟩ := Piece.exists_mem_place hp line
  have hfault : (⟨.unterminatedString, place + p.lineCount⟩ : LexicalFault) ∈
      faultsFrom line text := by
    refine List.mem_filterMap.2 ⟨(p, place), hmem, ?_⟩
    simp [Piece.fault?, hopen]
  exact h _ hfault rfl

/-! ## Moving all lines -/

/-- What is contributed from further down is contributed there. -/
lemma contributions_add {f : β → β} {k : Nat} (hg : ∀ p line, g p (line + k) = (g p line).map f)
    (line : Nat) (text : List Char) :
    contributions g (line + k) text = (contributions g line text).map f := by
  unfold contributions
  generalize Piece.cut text = pieces
  induction pieces generalizing line with
  | nil => rfl
  | cons p pieces ih =>
    have hrest := ih (line + p.lineCount)
    rw [Nat.add_right_comm] at hrest
    simp only [Piece.place_cons, List.filterMap_cons, hg, hrest]
    cases g p line <;> simp

/-- **Beginning further down moves the tokens.** -/
theorem tokensFrom_add (line k : Nat) (text : List Char) :
    tokensFrom (line + k) text =
      (tokensFrom line text).map fun t => { t with line := t.line + k } := by
  refine contributions_add (g := Piece.token?) (fun p line => ?_) line text
  simp [Piece.token?, Function.comp_def]

/-- **Beginning further down moves the faults.** -/
theorem faultsFrom_add (line k : Nat) (text : List Char) :
    faultsFrom (line + k) text =
      (faultsFrom line text).map fun f => { f with line := f.line + k } := by
  refine contributions_add (g := Piece.fault?) (fun p line => ?_) line text
  unfold Piece.fault?
  split
  · simp [Function.comp_def]
  · simp [Nat.add_right_comm]
  · rfl

/-! ## Two sources in one -/

/-- **Two sources with a line end between them are scanned one after the other.** If every string of
the first one is closed, then whatever else is wrong with either of them, the tokens of the first
one without its mark for the end are followed by those of the second one, the mark for the end among
them, and the faults of the first one by those of the second one. What comes from the second source
has moved down by one line and by the line ends in the first one; nothing else about it changes. -/
theorem scan_append_newline {first : String}
    (h : ∀ f ∈ (scan first).faults, f.cause ≠ .unterminatedString) (second : String) :
    let down := 1 + first.toList.count '\n'
    let both := scan (first ++ "\n" ++ second)
    both.allTokens = (scan first).allTokens.dropLast ++
        (scan second).allTokens.map (fun t => { t with line := t.line + down }) ∧
      both.faults = (scan first).faults ++
        (scan second).faults.map fun f => { f with line := f.line + down } := by
  intro down both
  have hfaults : ∀ f ∈ faultsFrom 1 first.toList, f.cause ≠ .unterminatedString := h
  have hclosed : Closed first.toList := closed_of_faults hfaults
  have htext : (first ++ "\n" ++ second).toList = first.toList ++ '\n' :: second.toList := by simp
  have hline : 1 + first.toList.count '\n' + 1 = 1 + down := by omega
  have htokens : both.tokens = (scan first).tokens ++
      (scan second).tokens.map fun t => { t with line := t.line + down } := by
    rw [tokens_scan, htext, tokensFrom_append_newline hclosed, hline, tokensFrom_add,
      ← tokens_scan, ← tokens_scan]
  have hlast : both.lastLine = (scan second).lastLine + down := by
    show 1 + (first ++ "\n" ++ second).toList.count '\n' = 1 + second.toList.count '\n' + down
    rw [htext, List.count_append, List.count_cons_self]
    omega
  constructor
  · simp only [allTokens, htokens, hlast, List.dropLast_concat, List.map_append,
      List.append_assoc]
    rfl
  · rw [faults_scan, htext, faultsFrom_append_newline hclosed, hline, faultsFrom_add,
      ← faults_scan, ← faults_scan]

/-- A stray character, a string on two lines and a comment stand in front of an equals sign, which
makes no operator with the one behind the line end, and of a string that is never closed. -/
theorem scan_append_newline_openString :
    let first := "@ \"a\nb\" // c\n\n="
    let second := "= \"\n"
    (∀ f ∈ (scan first).faults, f.cause ≠ .unterminatedString) ∧
      (scan (first ++ "\n" ++ second)).allTokens =
        [⟨.string, "\"a\nb\"", 1⟩, ⟨.equal, "=", 4⟩, ⟨.equal, "=", 5⟩, Token.atEnd 6] ∧
      (scan (first ++ "\n" ++ second)).faults =
        [⟨.unexpectedCharacter '@', 1⟩, ⟨.unterminatedString, 6⟩] := by
  intro first second
  have hclosed : ∀ f ∈ (scan first).faults, f.cause ≠ .unterminatedString := by decide +kernel
  obtain ⟨htokens, hfaults⟩ := scan_append_newline hclosed second
  refine ⟨hclosed, htokens.trans ?_, hfaults.trans ?_⟩
  · decide +kernel
  · decide +kernel

end Scan

end LoxLang
