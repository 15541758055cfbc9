import LoxLang.Proofs.Grammar.Nesting
import LoxLang.Proofs.Grammar.ReadStatement

set_option autoImplicit false

/-!
# Reading ends

Whatever the tokens are, a reader comes to an end with what the grammar gives for them. On its way the
place goes forward and stays in the list, each call that reads a declaration moves on, and function
bodies are counted up and down alike.

## Main definitions

* `Reader.Completes` — how reading all tokens ends.

## Main results

* `Reader.completes_program`, `Reader.completes_wholeExpression` — a program and an expression by itself.
* `Reader.ends_with_progress` — both end, and no limit on the depth is needed for it.
-/

namespace LoxLang

namespace Parser

variable {α : Type}

/-- Rows that nothing ends but the end itself take all tokens, if no row fails.

**Proof sketch.** Induction on the number of tokens, of which each row takes at least one. -/
lemma run_rows_all {item : Advancing α} {b : Bool}
    (hitem : ∀ ts rest faults, item.run b ts ≠ .failed rest faults) (ts : List Token) :
    (rows (fun _ => false) item).run b ts = .tooDeep ∨
      ∃ values faults, (rows (fun _ => false) item).run b ts = .ok values [] faults := by
  induction hn : ts.length using Nat.strongRecOn generalizing ts with
  | ind n ih =>
    cases ts with
    | nil => exact .inr ⟨[], [], run_rows_nil _ _ _⟩
    | cons t rest =>
      have hadvances := item.advances b t rest
      rw [run_rows_cons, if_neg Bool.false_ne_true, run_bind]
      cases hr : item.run b (t :: rest) with
      | failed left faults => exact absurd hr (hitem _ _ _)
      | tooDeep => exact .inl rfl
      | ok v left faults =>
        rw [hr] at hadvances
        dsimp only
        rw [run_bind]
        rcases ih left.length (hn ▸ hadvances) left rfl with hmore | ⟨values, more, hmore⟩
        · exact .inl (by rw [hmore]; rfl)
        · exact .inr ⟨v :: values, faults ++ (more ++ []), by rw [hmore]; rfl⟩

end Parser

namespace Grammar

/-- An expression in front of the end. -/
def endedExpression (depth : Nat) : Parser (Option Expr) := do
  let value ← expressionAt depth
  match ← Parser.peek with
  | some _ => Parser.fail .endOfExpression
  | none => return some value

/-- An expression that takes all tokens stands in front of the end. -/
lemma parseExpression_eq (depth : Nat) (tokens : List Token) :
    parseExpression depth tokens =
      match (endedExpression depth).run false tokens with
      | .ok value _ faults => .done value faults
      | .failed _ faults => .done none faults
      | .tooDeep => .tooDeep := by
  rw [parseExpression, endedExpression, Parser.run_bind]
  cases (expressionAt depth).run false tokens with
  | ok value rest faults =>
    dsimp only
    rw [Parser.run_bind_of_ok (Parser.run_peek false rest), Reply.after_nil]
    cases rest with
    | nil => simp [Reply.after]
    | cons t rest => rfl
  | failed => rfl
  | tooDeep => rfl

/-- With twice as many levels as there are tokens, and four more, no program is too deep. -/
lemma parse_ne_tooDeep {depth : Nat} {tokens : List Token} (h : 2 * tokens.length + 4 ≤ depth) :
    parse depth tokens ≠ .tooDeep := by
  have hdeclaration := (finishes_declarationAt depth).2 (tokens.length + 1) (by omega)
  have hrows := Parser.Finishes.rows (fun _ => false) hdeclaration false tokens (Nat.lt_succ_self _)
  unfold parse
  split
  · simp
  · simp
  · exact absurd ‹_› hrows

end Grammar

namespace Reader

variable {α : Type} {tokens : List Token} {last : Token} {depth : Nat}

/-- Reading all tokens ends with what the grammar gives, or the text nests deeper than the limit. The
place was in the list all the time and never went back, each call that read a declaration was a good
one, and no function body is left open. -/
inductive Completes (tokens : List Token) (last : Token) :
    EStateM.Result Stop Reader α → Parsed α → Prop
  | done {value : α} {r : Reader} (htokens : r.tokens = tokens ++ [last]) (hsane : r.Sane)
    (hfunctions : r.functions = 0) : Completes tokens last (.ok value r) (.done value r.faults)
  | tooDeep {r : Reader} (htokens : r.tokens = tokens ++ [last]) (hsane : r.Sane)
    (hfunctions : r.functions = 0) : Completes tokens last (.error .tooDeep r) .tooDeep

/-- However reading ends, the reader is still one on its way over the same tokens. -/
lemma Completes.reached {result : EStateM.Result Stop Reader α} {parsed : Parsed α}
    (h : Completes tokens last result parsed) {r : Reader}
    (hr : (∃ value, result = .ok value r) ∨ result = .error .tooDeep r) :
    r.tokens = tokens ++ [last] ∧ r.Sane := by
  cases h with
  | done htokens hsane =>
    obtain ⟨value, ⟨⟩⟩ | ⟨⟨⟩⟩ := hr
    exact ⟨htokens, hsane⟩
  | tooDeep htokens hsane =>
    obtain ⟨value, ⟨⟩⟩ | ⟨⟨⟩⟩ := hr
    exact ⟨htokens, hsane⟩

/-- If the grammar gives an answer, so does the reader. -/
lemma Completes.exists_eq_ok {result : EStateM.Result Stop Reader α} {parsed : Parsed α}
    (h : Completes tokens last result parsed) (hdeep : parsed ≠ .tooDeep) :
    ∃ value r, result = .ok value r := by
  cases h with
  | done => exact ⟨_, _, rfl⟩
  | tooDeep => exact absurd rfl hdeep

/-- If the reader gives an answer, it is what the grammar gives. -/
lemma Completes.eq_done {value : α} {r : Reader} {parsed : Parsed α}
    (h : Completes tokens last (.ok value r) parsed) : parsed = .done value r.faults := by
  cases h
  rfl

section

variable (hlast : last.kind = .endOfSource) (htokens : ∀ t ∈ tokens, t.kind ≠ .endOfSource)

include hlast htokens in
/-- A reader starts where a cursor does that has passed nothing. -/
lemma start_stands : (start tokens last).Stands ⟨[], tokens, last⟩ :=
  ⟨rfl, rfl, hlast, htokens, by simp [start], .nil, by simp [start], by simp [start]⟩

/-- Rows that only the end itself ends. -/
lemma follows_rows_atEnd {x : Reading α} {item : Advancing α}
    (hitem : ∀ c : Cursor, c.ahead ≠ [] → Follows c x item.toParser) (c : Cursor) :
    Follows c (rows atEnd x) (Parser.rows (fun _ => false) item) := by
  refine follows_rows (fun c => ?_) hitem c
  have hend : c.ahead.head?.all (fun _ => false) = c.atEnd := by
    unfold Cursor.atEnd
    cases c.ahead <;> rfl
  rw [hend]
  exact goes_atEnd c

lemma follows_program (depth : Nat) (c : Cursor) : Follows c (program depth)
    (Parser.rows (fun _ => false) (Grammar.declarationAt depth)) :=
  follows_rows_atEnd (follows_statement depth).2 c

lemma follows_endedExpression (depth : Nat) (c : Cursor) :
    Follows c (endedExpression depth) (Grammar.endedExpression depth) := by
  refine ((follows_expression depth).1 c).bind fun value c => (goes_atEnd c).look ?_
  have hrun : ∀ b, (match c.ahead.head?.map Token.kind with
        | some _ => Parser.fail .endOfExpression
        | none => pure (some value) : Parser (Option Expr)).run b c.ahead =
      (do match ← Parser.peek with
        | some _ => Parser.fail .endOfExpression
        | none => return some value : Parser (Option Expr)).run b c.ahead := by
    intro b
    rw [Parser.run_bind_of_ok (Parser.run_peek b c.ahead), Reply.after_nil]
  refine Follows.congr ?_ fun b => (hrun b).symm
  obtain ⟨passed, ahead, last⟩ := c
  cases ahead with
  | nil => exact follows_pure _ _
  | cons t rest =>
    have hfail := (follows_fail .endOfExpression ⟨passed, t :: rest, last⟩).bind
      fun (_ : Unit) c => follows_pure (some value) c
    exact hfail.congr fun _ => rfl

include hlast htokens in
/-- A program is read as the grammar reads it, and all its tokens are passed. -/
theorem completes_program (depth : Nat) : Completes tokens last
    (program depth (start tokens last)) (Grammar.parse depth tokens) ∧
      ∀ slots r, program depth (start tokens last) = .ok slots r → r.place = tokens.length := by
  have hanswers := follows_program depth _ _ (start_stands hlast htokens)
  change Answers _ _ (Parser.run _ false tokens) at hanswers
  have hall := Parser.run_rows_all (Grammar.run_declarationAt_ne_failed depth false) tokens
  rw [Grammar.parse]
  generalize program depth (start tokens last) = result at hanswers ⊢
  generalize (Parser.rows _ _).run false tokens = reply at hanswers hall ⊢
  cases hanswers with
  | @ok slots r c faults h =>
    have hahead : c.ahead = [] := by simpa using hall
    have hfaults : r.faults = faults := h.faults_eq
    refine ⟨hfaults ▸ .done h.tokens_eq h.stands.sane h.functions_eq, ?_⟩
    rintro _ _ ⟨⟩
    have hlength := h.stands.length_eq
    rw [h.tokens_eq, hahead] at hlength
    rw [h.stands.place_eq]
    simpa [start] using hlength.symm
  | failed h => simp at hall
  | tooDeep hsane htokens hfunctions => exact ⟨.tooDeep htokens hsane hfunctions, by simp⟩

include hlast htokens in
/-- An expression by itself is read as the grammar reads it. -/
theorem completes_wholeExpression (depth : Nat) : Completes tokens last
    (wholeExpression depth (start tokens last)) (Grammar.parseExpression depth tokens) := by
  have hanswers := follows_endedExpression depth _ _ (start_stands hlast htokens)
  change Answers _ _ (Parser.run _ false tokens) at hanswers
  rw [Grammar.parseExpression_eq, wholeExpression, recovering]
  generalize endedExpression depth (start tokens last) = result at hanswers ⊢
  generalize (Grammar.endedExpression depth).run false tokens = reply at hanswers ⊢
  cases hanswers with
  | @ok slots r c faults h =>
    have hfaults : r.faults = faults := h.faults_eq
    exact hfaults ▸ .done h.tokens_eq h.stands.sane h.functions_eq
  | @failed r c faults h =>
    have hfaults : r.faults = faults := h.faults_eq
    exact hfaults ▸ .done h.tokens_eq h.stands.sane h.functions_eq
  | tooDeep hsane htokens hfunctions => exact .tooDeep htokens hsane hfunctions

include hlast htokens in
/-- **Reading ends, and makes progress on its way.** Whatever the tokens are and whatever the limit on
the depth is, a reader that takes them as a program or as one expression ends with what the grammar
gives for them, or in front of a text that nests deeper than the limit. It never looks at a place
outside the list or before its beginning, and no loop goes on for ever. The place never goes back, and
a program ends with it in front of the mark for the end. Each call that reads a declaration begins in
front of a token and moves on, whether it fails or not, and leaves function bodies counted as they
were; in the end none is open. A limit of twice as many levels as there are tokens, and four more, is
never reached. -/
theorem ends_with_progress (depth : Nat) :
    (Completes tokens last (program depth (start tokens last)) (Grammar.parse depth tokens) ∧
      ∀ slots r, program depth (start tokens last) = .ok slots r → r.place = tokens.length) ∧
    Completes tokens last (wholeExpression depth (start tokens last))
      (Grammar.parseExpression depth tokens) ∧
    (2 * tokens.length + 4 ≤ depth →
      Grammar.parse depth tokens ≠ .tooDeep ∧ Grammar.parseExpression depth tokens ≠ .tooDeep) := by
  refine ⟨completes_program hlast htokens depth, completes_wholeExpression hlast htokens depth, ?_⟩
  intro hdepth
  have hdeclaration := (Grammar.finishes_declarationAt depth).2 (tokens.length + 1) (by omega)
  have hexpression := (Grammar.finishes_expressionAt depth).1 (tokens.length + 1) (by omega)
  have hrows := Parser.Finishes.rows (fun _ => false) hdeclaration false tokens (Nat.lt_succ_self _)
  have hrun := hexpression false tokens (Nat.lt_succ_self _)
  constructor
  · unfold Grammar.parse
    split
    · simp
    · simp
    · exact absurd ‹_› hrows
  · unfold Grammar.parseExpression
    split
    · simp
    · simp
    · simp
    · exact absurd ‹_› hrun

end

/-- The tokens of `) fun (`, which begin no program. -/
def strayTokens : List Token := [⟨.rightParen, ")", 1⟩, ⟨.funWord, "fun", 1⟩, ⟨.leftParen, "(", 1⟩]

/-- Reading `) fun (` ends in front of the mark for the end. -/
theorem ends_with_progress_strayTokens : ∃ slots r,
    program 10 (start strayTokens (Token.atEnd 1)) = .ok slots r ∧
      Grammar.parse 10 strayTokens = .done slots r.faults ∧ r.Sane ∧ r.place = 3 ∧
        r.functions = 0 := by
  obtain ⟨⟨hends, hplace⟩, -, hdepth⟩ :=
    ends_with_progress (rfl : (Token.atEnd 1).kind = .endOfSource)
      (by decide : ∀ t ∈ strayTokens, t.kind ≠ .endOfSource) 10
  obtain ⟨hparse, -⟩ := hdepth (by decide)
  generalize program 10 (start strayTokens (Token.atEnd 1)) = result at hends hplace
  generalize Grammar.parse 10 strayTokens = parsed at hends hparse
  cases hends with
  | @done slots r htokens hsane hfunctions =>
    exact ⟨slots, r, rfl, rfl, hsane, hplace slots r rfl, hfunctions⟩
  | tooDeep => exact absurd rfl hparse

end Reader

end LoxLang
