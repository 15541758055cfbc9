import LoxLang.Proofs.Console.Complaints

set_option autoImplicit false

/-!
# Bare expressions

A line that is an expression by itself is shown: entering it does what submitting it between `print`
and a semicolon does. The semicolon stands on a line of its own, so that a comment at the end of the
line does not swallow it. Any other line is submitted as it is, and the attempt to read it as an
expression leaves no trace.

The two ways of reading end differently: an expression by itself ends where its tokens end, and one
that is printed ends at the semicolon. Both read the phrases of the grammar that have no faults, and
the tokens of a line determine the tokens of the line between `print` and a semicolon.

## Main definitions

* `Console.IsBare` — a line is an expression by itself.
* `Console.printing` — a line between `print` and a semicolon.
* `Console.settled` — a console that has forgotten errors and run-time faults.

## Main results

* `Scan.closed_of_append_newline` — an open string stays open over a line end without a quote.
* `Grammar.parseExpression_iff_parse_print` — what is an expression by itself can be printed.
* `Console.enter_eq_submit` — entering a line submits it, or shows its value.
-/

namespace LoxLang

/-! ## Scanning a line between `print` and a semicolon -/

/-- A quote that is never closed is one with no quote behind it. -/
lemma Piece.eq_quote_of_openString {c : Char} {text : List Char}
    (h : (first c text).1.sort = .openString) : c = '"' ∧ '"' ∉ text := by
  have hlongest := longest_first c text
  have htext := first_append c text
  rw [hlongest.rest_eq_nil h, List.append_nil] at htext
  generalize (first c text).1 = p at h htext hlongest
  cases hlongest with
  | stray => contradiction
  | allowed ha =>
    cases ha with
    | comment | string | number | word | lineEnds | operator | blank => contradiction
    | openString hbody =>
      obtain ⟨rfl, rfl⟩ := List.cons.inj htext
      exact ⟨rfl, hbody⟩

namespace Scan

variable {text more : List Char}

/-- A line end opens nothing. -/
lemma closed_cons_newline (h : Closed text) : Closed ('\n' :: text) := by
  rw [closed_cons, Piece.first_newline]
  refine ⟨by simp, ?_⟩
  cases text with
  | nil => exact h
  | cons c text =>
    by_cases hc : c = '\n'
    · subst hc
      have hrest := (closed_cons.1 h).2
      rw [Piece.first_newline] at hrest
      simpa using hrest
    · have hcb : (c == '\n') = false := by simpa using hc
      simpa [hcb] using h

/-- **An open string stays open over a line end without a quote**: if every string is closed with
more behind a line end, and there is no quote in it, every string is closed in front of it.

**Proof sketch.** Induction on the length of the text, piece by piece. Only a quote that is never
closed could depend on what comes behind the line end, and it would be taken with all of it. -/
theorem closed_of_append_newline (hm : '"' ∉ more) (h : Closed (text ++ '\n' :: more)) :
    Closed text := by
  induction hn : text.length using Nat.strongRecOn generalizing text with
  | ind n ih =>
    cases text with
    | nil => simp [Closed]
    | cons c rest =>
      by_cases hc : c = '\n'
      · subst hc
        exact closed_cons_newline (ih _ (by simp at hn; omega) (closed_newline h) rfl)
      by_cases hopen : (Piece.first c rest).1.sort = .openString
      · obtain ⟨rfl, hrest⟩ := Piece.eq_quote_of_openString hopen
        have hall : '"' ∉ rest ++ '\n' :: more := by simp [hrest, hm]
        have hfirst := (closed_cons.1 (List.cons_append ▸ h)).1
        rw [Piece.first_quote, Piece.quoted_of_not_mem hall] at hfirst
        exact absurd rfl hfirst
      · have hlength := Piece.length_rest_first c rest
        rw [List.cons_append, closed_cons, Piece.first_append_newline hc hopen] at h
        exact closed_cons.2 ⟨hopen, ih _ (by simp at hn; omega) h.2 rfl⟩

/-- The word `print` and a blank in front of anything. -/
lemma reads_print (rest : List Char) :
    Reads 1 ['p', 'r', 'i', 'n', 't', ' '] rest [⟨.printWord, "print", 1⟩] 1 := by
  have hstop : ∀ d ∈ (' ' :: rest).head?, Piece.continuesWord d = false := by
    intro d hd
    obtain rfl : ' ' = d := by simpa using hd
    decide
  have hword : Piece.first 'p' (['r', 'i', 'n', 't'] ++ ' ' :: rest) =
      (⟨.word, ['p', 'r', 'i', 'n', 't']⟩, ' ' :: rest) :=
    Piece.first_word (by decide) (List.all_eq_true.1 (by decide)) hstop
  have hread : Reads 1 ['p', 'r', 'i', 'n', 't'] (' ' :: rest) [⟨.printWord, "print", 1⟩] 1 :=
    .of_first_token hword (by decide)
  exact hread.append (.blank 1 rest)

/-- A semicolon is a token and no fault. -/
lemma reads_semicolon (line : Nat) : Reads line [';'] [] [⟨.semicolon, ";", line⟩] line :=
  .of_first_token (Piece.first_spelling rfl (by simp)) rfl

end Scan

/-! ## Reading an expression by itself and one that is printed -/

/-- A loop is not what `print` is read as. -/
lemma Stmt.forLoop_ne_print (initial : Option Stmt) (condition step : Option Expr) (body : Stmt)
    (e : Expr) : Stmt.forLoop initial condition step body ≠ .print e := by
  cases initial <;> simp [forLoop]

/-- A phrase that is read as printing an expression is one between `print` and a semicolon. -/
lemma StmtPhrase.eq_printing_of_tree {p : StmtPhrase .declarations} {e : Expr}
    (h : p.tree = [some (.print e)]) :
    ∃ keyword value closing, p = .cons (.statement (.printing keyword value closing)) .nil ∧
      value.tree = e := by
  cases p with
  | nil => simp [tree] at h
  | cons d ds =>
    obtain ⟨hd, hds⟩ : d.tree = .print e ∧ ds.tree = [] := by simpa [tree] using h
    cases ds with
    | cons => simp [tree] at hds
    | nil =>
      cases d with
      | function | declared => simp [tree, VariablePhrase.tree] at hd
      | statement s =>
        cases s with
        | printing keyword value closing =>
          exact ⟨keyword, value, closing, rfl, by simpa [tree] using hd⟩
        | forLoop => exact absurd hd (Stmt.forLoop_ne_print _ _ _ _ _)
        | evaluation | returning | block | ifThen | ifElse | whileLoop =>
          simp [tree, EvaluationPhrase.tree] at hd

namespace Grammar

variable {depth : Nat} {tokens : List Token}

/-- Whatever more depth gives is what less depth gives, unless that was too little. -/
lemma parse_eq_of_le {more : Nat} (hd : depth ≤ more) (h : parse depth tokens ≠ .tooDeep) :
    parse more tokens = parse depth tokens := by
  cases hr : parse depth tokens with
  | tooDeep => exact absurd hr h
  | done program faults => exact parse_mono hd hr

/-- **What is an expression by itself can be printed**, and nothing else: tokens are read as an
expression without a fault exactly if they are read as printing it between `print` and a semicolon.

**Proof sketch.** Both are phrases without faults. The one nests in the other, which nests two
deeper; this is within the depth at hand, or reading would have given up. -/
theorem parseExpression_iff_parse_print (keyword : Terminal .printWord)
    (closing : Terminal .semicolon) (hb : parseExpression depth tokens ≠ .tooDeep)
    (hp : parse depth (keyword.1 :: (tokens ++ [closing.1])) ≠ .tooDeep) (e : Expr) :
    parseExpression depth tokens = .done (some e) [] ↔
      parse depth (keyword.1 :: (tokens ++ [closing.1])) = .done [some (.print e)] [] := by
  constructor
  · intro h
    obtain ⟨p, rfl, rfl, hfaults, hheight⟩ := exists_phrase_of_parseExpression h
    let printed : StmtPhrase .declarations := .cons (.statement (.printing keyword p closing)) .nil
    have htokens : printed.tokens = keyword.1 :: (p.tokens ++ [closing.1]) := by
      simp [printed, StmtPhrase.tokens]
    have hread := parse_eq_done printed ⟨trivial, trivial⟩ (le_max_right depth printed.height)
    rw [htokens, parse_eq_of_le (le_max_left _ _) hp] at hread
    simpa [printed, StmtPhrase.tree, StmtPhrase.faults, hfaults] using hread
  · intro h
    obtain ⟨p, htokens, htree, hfaults, hheight, -⟩ :=
      exists_phrase_of_parse h SyntaxFault.quiet_nil
    obtain ⟨kw, value, semi, rfl, rfl⟩ := StmtPhrase.eq_printing_of_tree htree
    obtain ⟨-, hvalue, -⟩ : kw.1 = keyword.1 ∧ value.tokens = tokens ∧ semi.1 = closing.1 := by
      simpa [StmtPhrase.tokens, List.append_inj_left'] using htokens
    subst hvalue
    have hfaultless : value.faults = [] := by simpa [StmtPhrase.faults] using hfaults
    have hdepth : value.height ≤ depth := by
      simp only [StmtPhrase.height] at hheight
      omega
    rw [parseExpression_eq_done value hdepth, hfaultless]

end Grammar

/-! ## Entering a line -/

namespace Console

variable {c : Console} {line : String}

/-- A line is an expression by itself: it is scanned and read without a fault. -/
def IsBare (c : Console) (line : String) (e : Expr) : Prop :=
  (scan line).faults = [] ∧
    Grammar.parseExpression c.limits.reading (scan line).tokens = .done (some e) []

/-- A line between `print` and a semicolon, which stands on a line of its own. -/
def printing (line : String) : String := "print " ++ line ++ "\n;"

/-- A console that has forgotten errors and run-time faults, but nothing fatal. -/
def settled (c : Console) : Console := { c with reporter := c.reporter.reset }

lemma toList_printing (line : String) :
    (printing line).toList =
      ['p', 'r', 'i', 'n', 't', ' '] ++ (line.toList ++ '\n' :: [';']) := by
  simp [printing]

/-- The line has the same faults between `print` and a semicolon, if its strings are closed. -/
lemma faults_printing (h : Scan.Closed line.toList) :
    (scan (printing line)).faults = (scan line).faults := by
  have hsemicolon := (Scan.reads_semicolon (1 + line.toList.count '\n' + 1)).faults_eq
  rw [Scan.faults_scan, toList_printing, (Scan.reads_print _).faults_eq,
    Scan.faultsFrom_append_newline h, ← Scan.faults_scan]
  simpa using hsemicolon

/-- The line has the same tokens between `print` and a semicolon, if its strings are closed. -/
lemma tokens_printing (h : Scan.Closed line.toList) :
    (scan (printing line)).tokens = ⟨.printWord, "print", 1⟩ ::
      ((scan line).tokens ++ [⟨.semicolon, ";", 1 + line.toList.count '\n' + 1⟩]) := by
  have hsemicolon := (Scan.reads_semicolon (1 + line.toList.count '\n' + 1)).tokens_eq
  rw [Scan.tokens_scan, toList_printing, (Scan.reads_print _).tokens_eq,
    Scan.tokensFrom_append_newline h, ← Scan.tokens_scan]
  simpa using hsemicolon

/-- The strings of a line are closed if there is no fault between `print` and a semicolon. -/
lemma closed_of_faults_printing (h : (scan (printing line)).faults = []) :
    Scan.Closed line.toList := by
  rw [Scan.faults_scan, toList_printing, (Scan.reads_print _).faults_eq] at h
  have hnone : ∀ f ∈ Scan.faultsFrom 1 (line.toList ++ '\n' :: [';']),
      f.cause ≠ .unterminatedString := by
    rw [h]
    simp
  exact Scan.closed_of_append_newline (by simp) (Scan.closed_of_faults hnone)

/-- The strings of a line are closed if it has no faults. -/
lemma closed_of_faults_eq_nil (h : (scan line).faults = []) : Scan.Closed line.toList := by
  have hnone : ∀ f ∈ Scan.faultsFrom 1 line.toList, f.cause ≠ .unterminatedString := by
    rw [← Scan.faults_scan, h]
    simp
  exact Scan.closed_of_faults hnone

/-- **A line is bare exactly if printing it is accepted.** -/
lemma isBare_iff_accepts (hb : bare c.limits line ≠ .tooDeep)
    (hp : Grammar.parse c.limits.reading (scan (printing line)).tokens ≠ .tooDeep) (e : Expr) :
    c.IsBare line e ↔ c.Accepts (printing line) [some (.print e)] := by
  have hread : (scan line).faults = [] →
      Grammar.parseExpression c.limits.reading (scan line).tokens ≠ .tooDeep := by
    intro hfaults hdeep
    simp [bare, hfaults, hdeep] at hb
  constructor
  · rintro ⟨hfaults, he⟩
    have hclosed := closed_of_faults_eq_nil hfaults
    refine ⟨by rw [faults_printing hclosed, hfaults], ?_⟩
    rw [tokens_printing hclosed] at hp ⊢
    exact (Grammar.parseExpression_iff_parse_print ⟨⟨.printWord, "print", 1⟩, rfl⟩
      ⟨⟨.semicolon, ";", _⟩, rfl⟩ (hread hfaults) hp e).1 he
  · rintro ⟨hfaults, hprint⟩
    have hclosed := closed_of_faults_printing hfaults
    rw [faults_printing hclosed] at hfaults
    rw [tokens_printing hclosed] at hp hprint
    exact ⟨hfaults, (Grammar.parseExpression_iff_parse_print ⟨⟨.printWord, "print", 1⟩, rfl⟩
      ⟨⟨.semicolon, ";", _⟩, rfl⟩ (hread hfaults) hp e).2 hprint⟩

/-- What a console makes of reading a line as an expression. -/
lemma bare_eq_done_iff {e : Expr} {faults : List SyntaxFault} :
    bare c.limits line = .done (some e) faults ↔ c.IsBare line e ∧ faults = [] := by
  simp only [bare, IsBare, List.isEmpty_iff]
  by_cases hfaults : (scan line).faults = []
  · rw [if_pos hfaults]
    cases Grammar.parseExpression c.limits.reading (scan line).tokens with
    | tooDeep => simp
    | done value noted => cases value <;> cases noted <;> simp [hfaults, eq_comm]
  · simp [hfaults]

/-- A run that is not fatal leaves it at that. -/
lemma hadFatal_execute {program : Slots} (h : (c.execute program).2.status ≠ .fatal) :
    (c.execute program).1.reporter.hadFatal = c.reporter.hadFatal := by
  rw [execute_eq_conclude] at h ⊢
  generalize c.machine.cleared.interpret c.limits program = run at h ⊢
  obtain ⟨m, ending⟩ := run
  cases ending with
  | finished | faulted => rfl
  | tooDeep | tooLong => exact absurd rfl h

/-- A program that is not fatal leaves it at that, whatever is wrong with it. -/
lemma hadFatal_submit {source : String} (h : (c.submit source).2.status ≠ .fatal) :
    (c.submit source).1.reporter.hadFatal = c.reporter.hadFatal := by
  cases hread : Grammar.parse c.limits.reading (scan source).tokens with
  | tooDeep =>
    rw [submit_of_tooDeep hread] at h
    exact absurd rfl h
  | done program faults =>
    rw [submit_of_parse hread] at h ⊢
    dsimp only at h ⊢
    split at h
    · rename_i hclean
      rw [if_pos hclean]
      exact hadFatal_execute h
    · rename_i hfaulty
      rw [if_neg hfaulty, Reporter.complainAll_eq]
      dsimp only
      split <;> rfl

/-- **Entering a line submits it, or shows its value.** If the line is a bare expression, entering it
does what submitting it between `print` and a semicolon does; otherwise it does what submitting the
line does, and nothing else. A line is bare exactly if it is accepted between `print` and a semicolon
as a program that prints an expression. Afterwards errors and run-time faults are forgotten, and
nothing has become fatal unless the answer is. None of this needs more than that neither way of
reading the line nests too deep.

**Proof sketch.** A bare line is accepted between `print` and a semicolon, so submitting it there
executes the same statement on the same console. The flags are forgotten in both cases, and only a
fatal answer sets the one that stays. -/
theorem enter_eq_submit (hb : bare c.limits line ≠ .tooDeep)
    (hp : Grammar.parse c.limits.reading (scan (printing line)).tokens ≠ .tooDeep) :
    let entered := c.enter line
    let printed := c.submit (printing line)
    let submitted := c.submit line
    (∀ e, c.IsBare line e → entered = (printed.1.settled, printed.2)) ∧
    ((∀ e, ¬ c.IsBare line e) → entered = (submitted.1.settled, submitted.2)) ∧
    (∀ e, c.IsBare line e ↔ c.Accepts (printing line) [some (.print e)]) ∧
    entered.1.reporter.hadError = false ∧ entered.1.reporter.hadRuntimeFault = false ∧
    (entered.2.status ≠ .fatal →
      entered.1.reporter.hadFatal = c.reporter.hadFatal) := by
  intro entered printed submitted
  have hbare : ∀ e, c.IsBare line e → entered = (printed.1.settled, printed.2) := by
    intro e he
    have hexecute : printed = c.execute [some (.print e)] :=
      submit_of_accepts ((isBare_iff_accepts hb hp e).1 he)
    have hread : bare c.limits line = .done (some e) [] := bare_eq_done_iff.2 ⟨he, rfl⟩
    simp only [entered, enter, hread, hexecute]
    rfl
  have hother : (∀ e, ¬ c.IsBare line e) → entered = (submitted.1.settled, submitted.2) := by
    intro hnone
    cases hread : bare c.limits line with
    | tooDeep => exact absurd hread hb
    | done value noted =>
      cases value with
      | some e => exact absurd (bare_eq_done_iff.1 hread).1 (hnone e)
      | none =>
        simp only [entered, enter, hread, submitted]
        rfl
  refine ⟨hbare, hother, isBare_iff_accepts hb hp, rfl, rfl, fun hstatus => ?_⟩
  by_cases he : ∃ e, c.IsBare line e
  · obtain ⟨e, he⟩ := he
    rw [hbare e he] at hstatus ⊢
    exact hadFatal_submit hstatus
  · rw [hother (not_exists.1 he)] at hstatus ⊢
    exact hadFatal_submit hstatus

/-- On a fresh console, the value of `nil` with a comment behind it is shown as it is printed: the
comment ends in front of the semicolon. -/
theorem enter_eq_submit_nil :
    let c := Console.fresh ⟨9, 9, 9, 9⟩ .plain (fun _ => 0)
    let line := "nil // nothing"
    let printed := c.submit (printing line)
    c.enter line = (printed.1.settled, printed.2) ∧
      c.Accepts (printing line) [some (.print (.literal .nil))] := by
  intro c line printed
  let value := Grammar.constant ⟨.nilWord, "nil", 1⟩ .nil rfl
  let shown : StmtPhrase .declarations := .cons (.statement
    (.printing ⟨⟨.printWord, "print", 1⟩, rfl⟩ value ⟨⟨.semicolon, ";", 2⟩, rfl⟩)) .nil
  have htokens : (scan line).tokens = value.tokens := by decide +kernel
  have hprinted : (scan (printing line)).tokens = shown.tokens := by decide +kernel
  have hbare : c.IsBare line (.literal .nil) := by
    refine ⟨by decide +kernel, ?_⟩
    rw [htokens]
    exact Grammar.parseExpression_eq_done value (by decide)
  have hb : bare c.limits line ≠ .tooDeep := by
    rw [bare_eq_done_iff.2 ⟨hbare, rfl⟩]
    simp
  have hp : Grammar.parse c.limits.reading (scan (printing line)).tokens ≠ .tooDeep := by
    rw [hprinted, Grammar.parse_eq_done shown ⟨trivial, trivial⟩ (by decide)]
    simp
  obtain ⟨hshown, -, haccepts, -⟩ := enter_eq_submit hb hp
  exact ⟨hshown _ hbare, (haccepts _).1 hbare⟩

end Console

end LoxLang
