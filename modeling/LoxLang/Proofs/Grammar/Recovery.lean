import LoxLang.Proofs.Grammar.Progress
import LoxLang.Proofs.Grammar.Sentence

set_option autoImplicit false

/-!
# What is lost after a failure

After a failure a reader passes the token at which it failed, whatever that is, and then goes on in front
of the next token that begins a statement. So a statement behind the failure is not lost, unless the
failure was found at its very first token. That is where a missing semicolon is found: a statement that
only lacks its semicolon takes the keyword of the next one with it.

## Main definitions

* `Reader.Visit.Spares` — a call that failed passed no other beginning of a statement but its own.
* `Unclosed` — a `print`, a `var` or an expression without its semicolon.

## Main results

* `Reader.recovery_discards` — what is passed over after a failure, in every call.
* `Grammar.parse_unclosed` — the keyword behind a missing semicolon is passed over.
-/

namespace LoxLang

namespace Reader

/-- A call that failed passed no token that begins a statement, from the one at which it failed up to
where it ended, unless that is the one with which the call began. -/
def Visit.Spares (tokens : List Token) (v : Visit) : Prop :=
  ∀ k ∈ v.failedAt, ∀ i, k ≤ i → i < v.stop → i ≠ v.start → ∀ t ∈ tokens[i]?,
    t.kind.startsStatement = false

variable {tokens : List Token} {last : Token}

/-- A call that failed spares all statements but its own exactly if it began where it failed or did not
fail at the beginning of a statement. -/
lemma Visit.Good.spares_iff {v : Visit} (h : v.Good tokens)
    (hend : ∀ t ∈ tokens.getLast?, t.kind.startsStatement = false) : v.Spares tokens ↔
    ∀ k ∈ v.failedAt, k = v.start ∨ ∀ t ∈ tokens[k]?, t.kind.startsStatement = false := by
  constructor
  · intro hspares k hk
    by_cases hstart : k = v.start
    · exact .inl hstart
    refine .inr fun t ht => ?_
    by_cases hstop : k = v.stop
    · -- nothing is passed over at the end, and the mark for it begins no statement
      have hlast : tokens.length - 1 = k := Nat.sub_eq_of_eq_add (h.passes k hk hstop).symm
      refine hend t ?_
      rw [List.getLast?_eq_getElem?, hlast]
      exact ht
    · have hlt : k < v.stop := Nat.lt_of_le_of_ne (h.within k hk).2 hstop
      exact hspares k hk k (Nat.le_refl k) hlt hstart t ht
  · intro hfirst k hk i hlo hhi hne t ht
    rcases Nat.eq_or_lt_of_le hlo with rfl | hlt
    · exact (hfirst k hk).resolve_left hne t ht
    · exact h.skips k hk i hlt hhi t ht

/-- A reader that ended, with a program or in front of too deep a nesting. -/
def Ended (tokens : List Token) (last : Token) (depth : Nat) (r : Reader) : Prop :=
  (∃ slots, program depth (start tokens last) = .ok slots r) ∨
    program depth (start tokens last) = .error .tooDeep r

/-- **What is passed over after a failure.** A run reads what the grammar reads. In each of its calls
that failed to read a declaration, no token behind the one at which it failed is passed over that begins
a statement, and reading goes on at the end, behind a semicolon or in front of a token that begins a
statement. So whether a call spares all statements but its own depends on one token alone, the one at
which it failed: it does if that token begins no statement or is the first one of the call, and else it
does not. -/
theorem recovery_discards (hlast : last.kind = .endOfSource)
    (htokens : ∀ t ∈ tokens, t.kind ≠ .endOfSource) {depth : Nat} {r : Reader}
    (hr : Ended tokens last depth r) {v : Visit} (hv : v ∈ r.visits) :
    Completes tokens last (program depth (start tokens last)) (Grammar.parse depth tokens) ∧
    (∀ k ∈ v.failedAt, ∀ i, k < i → i < v.stop → ∀ t ∈ (tokens ++ [last])[i]?,
      t.kind.startsStatement = false) ∧
    (∀ k ∈ v.failedAt, v.stop = tokens.length ∨
      (∃ t ∈ (tokens ++ [last])[v.stop - 1]?, t.kind = .semicolon) ∨
        ∃ t ∈ (tokens ++ [last])[v.stop]?, t.kind.startsStatement = true) ∧
    (v.Spares (tokens ++ [last]) ↔ ∀ k ∈ v.failedAt, k = v.start ∨
      ∀ t ∈ (tokens ++ [last])[k]?, t.kind.startsStatement = false) := by
  obtain ⟨hends, -⟩ := completes_program hlast htokens depth
  obtain ⟨heq, hsane⟩ := hends.reached hr
  have hgood : v.Good (tokens ++ [last]) := heq ▸ hsane.visits v hv
  refine ⟨hends, hgood.skips, ?_, hgood.spares_iff ?_⟩
  · simpa using hgood.stops
  · simp [hlast, Token.Kind.startsStatement]

/-- The tokens of `var nil; print nil;`. -/
def namelessVariable : List Token :=
  [⟨.varWord, "var", 1⟩, ⟨.nilWord, "nil", 1⟩, ⟨.semicolon, ";", 1⟩, ⟨.printWord, "print", 1⟩,
    ⟨.nilWord, "nil", 1⟩, ⟨.semicolon, ";", 1⟩]

/-- Of `var nil; print nil;` only the first statement is lost, as it fails at `nil`. -/
theorem recovery_discards_namelessVariable : ∃ slots r,
    program 8 (start namelessVariable (Token.atEnd 1)) = .ok slots r ∧
      ⟨0, some 1, 3, 0, 0⟩ ∈ r.visits ∧
        Visit.Spares (namelessVariable ++ [Token.atEnd 1]) ⟨0, some 1, 3, 0, 0⟩ := by
  refine ⟨_, _, rfl, List.mem_cons_self, ?_⟩
  obtain ⟨-, -, -, hspares⟩ := recovery_discards (rfl : (Token.atEnd 1).kind = .endOfSource)
    (by decide : ∀ t ∈ namelessVariable, t.kind ≠ .endOfSource)
    (.inl ⟨_, rfl⟩ : Ended namelessVariable (Token.atEnd 1) 8 _) List.mem_cons_self
  refine hspares.2 ?_
  rintro _ ⟨⟩
  exact .inr (by decide)

end Reader

/-! ## A missing semicolon -/

/-- A `print`, a `var` or an expression without its semicolon. -/
inductive Unclosed
  | printing (keyword : Terminal .printWord) (value : ExprPhrase .expression)
  | declaring (keyword : Terminal .varWord) (name : Terminal .identifier)
  | defining (keyword : Terminal .varWord) (name : Terminal .identifier) (equals : Terminal .equal)
    (value : ExprPhrase .expression)
  | evaluating (value : ExprPhrase .expression)

namespace Unclosed

/-- The tokens of a statement without its semicolon. -/
def tokens : Unclosed → List Token
  | printing keyword value => keyword.1 :: value.tokens
  | declaring keyword name => [keyword.1, name.1]
  | defining keyword name equals value => keyword.1 :: name.1 :: equals.1 :: value.tokens
  | evaluating value => value.tokens

/-- What is noted about the expression in it. -/
def faults : Unclosed → List SyntaxFault
  | declaring _ _ => []
  | printing _ value | defining _ _ _ value | evaluating value => value.faults

/-- How deep the expression in it nests. -/
def height : Unclosed → Nat
  | declaring _ _ => 0
  | printing _ value | defining _ _ _ value | evaluating value => value.height

/-- What is asked for behind it. -/
def lacks : Unclosed → Expected
  | printing _ _ => .semicolonAfterPrinted
  | declaring _ _ | defining _ _ _ _ => .semicolonAfterVariable
  | evaluating _ => .semicolonAfterExpression

end Unclosed

namespace Grammar

open LoxLang.Parser

variable {n : Nat} {b : Bool} {t : Token} {rest : List Token}

/-- What begins a statement does not go on with an expression. -/
lemma goesOnWith_of_startsStatement {kind : Token.Kind} (h : kind.startsStatement = true) :
    ExprSymbol.goesOnWith .expression kind = false := by
  cases kind <;> simp_all [Token.Kind.startsStatement] <;> rfl

/-- What begins a statement is no semicolon. -/
lemma run_expect_semicolon_startsStatement (h : t.kind.startsStatement = true) (what : Expected) :
    (expect .semicolon what).run b (t :: rest) = .failed (t :: rest) [⟨.expected what, some t⟩] := by
  have hne : t.kind ≠ .semicolon := by
    intro hk
    rw [hk] at h
    contradiction
  simp [expect, hne]

/-- An expression, and a beginning of a statement where a semicolon should be. -/
lemma run_unclosedExpression (value : ExprPhrase .expression) (hn : value.height ≤ n)
    (ht : t.kind.startsStatement = true) (what : Expected) (f : Expr → Stmt) :
    (do
      let value ← expressionAt n
      let _ ← expect .semicolon what
      return f value : Parser Stmt).run b (value.tokens ++ t :: rest) =
        .failed (t :: rest) (value.faults ++ [⟨.expected what, some t⟩]) := by
  have hvalue := StmtPhrase.run_expressionAt value hn t (goesOnWith_of_startsStatement ht) b rest
  rw [run_bind_of_ok hvalue, run_bind, run_expect_semicolon_startsStatement ht]
  rfl

/-- A declaration of a variable, and a beginning of a statement where a semicolon should be. -/
lemma run_unclosedVariable (name : Token) (initial : Option Expr)
    (ht : t.kind.startsStatement = true) :
    (do
      let _ ← expect .semicolon .semicolonAfterVariable
      return Stmt.var name initial : Parser Stmt).run b (t :: rest) =
        .failed (t :: rest) [⟨.expected .semicolonAfterVariable, some t⟩] := by
  rw [run_bind, run_expect_semicolon_startsStatement ht]

/-- A statement without its semicolon fails at the beginning of the next one. -/
lemma run_unclosed (u : Unclosed) (hn : u.height ≤ n) (ht : t.kind.startsStatement = true) :
    (select (declarationTable (expressionAt (n + 1)) (declarationAt (n + 1)))
      (statementAt (n + 1)).toParser).run b (u.tokens ++ t :: rest) =
        .failed (t :: rest) (u.faults ++ [⟨.expected u.lacks, some t⟩]) := by
  cases u with
  | printing keyword value =>
    have hnone : ∀ u ∈ (keyword.1 :: (value.tokens ++ t :: rest)).head?,
        declarationTable (expressionAt (n + 1)) (declarationAt (n + 1)) u.kind = none := by
      simp [keyword.2, declarationTable]
    rw [Unclosed.tokens, List.cons_append, run_select_of_none hnone,
      StmtPhrase.run_statementAt_of_table (by rw [keyword.2]; rfl)]
    exact run_unclosedExpression value hn ht _ _
  | declaring keyword name =>
    have hne : t.kind ≠ .equal := by
      intro hk
      rw [hk] at ht
      contradiction
    have haccept : (accept .equal).run b (t :: rest) = .ok none (t :: rest) [] := by
      simp [accept, run_acceptIf_cons, hne]
    show (select _ _).run b (keyword.1 :: name.1 :: t :: rest) = _
    rw [run_select_of_some (by rw [keyword.2]; rfl), variableDeclaration,
      run_bind_of_ok (run_expect_cons _ _ _ _), run_bind_of_ok haccept]
    simp only [run_pure_bind, run_unclosedVariable name.1 none ht]
    rfl
  | defining keyword name equals value =>
    have haccept : (accept .equal).run b (equals.1 :: (value.tokens ++ t :: rest)) =
        .ok (some equals.1) (value.tokens ++ t :: rest) [] := by
      simp [accept, run_acceptIf_cons, equals.2]
    have hvalue := StmtPhrase.run_expressionAt (n := n + 1) value (Nat.le_succ_of_le hn) t
      (goesOnWith_of_startsStatement ht) b rest
    show (select _ _).run b (keyword.1 :: name.1 :: equals.1 :: (value.tokens ++ t :: rest)) = _
    rw [run_select_of_some (by rw [keyword.2]; rfl), variableDeclaration,
      run_bind_of_ok (run_expect_cons _ _ _ _), run_bind_of_ok haccept]
    simp only [run_bind_of_ok hvalue, run_pure_bind, run_unclosedVariable name.1 _ ht]
    rfl
  | evaluating value =>
    have hhead := value.startsExpression_head (t :: rest)
    rw [Unclosed.tokens, run_select_of_none fun u hu => declarationTable_eq_none
        (StmtSymbol.startsWith_of_startsExpression (hhead u hu)),
      statementAt_succ, run_select_of_none fun u hu => statementTable_eq_none (hhead u hu)]
    exact run_unclosedExpression value hn ht _ _

/-- **A missing semicolon takes the next keyword with it.** A `print`, a `var` or an expression that
lacks only its semicolon leaves an empty slot, and where a statement begins right behind it, reading
goes on behind the token that begins it. -/
theorem parse_unclosed (u : Unclosed) (hn : u.height ≤ n) (ht : t.kind.startsStatement = true)
    {slots : Slots} {faults : List SyntaxFault}
    (h : parse (n + 2) (synchronize (t :: rest)) = .done slots faults) :
    parse (n + 2) (u.tokens ++ t :: rest) =
      .done (none :: slots) (u.faults ++ ⟨.expected u.lacks, some t⟩ :: faults) := by
  have hslot : (declarationAt (n + 2)).run false (u.tokens ++ t :: rest) =
      .ok none (synchronize (t :: rest)) (u.faults ++ [⟨.expected u.lacks, some t⟩]) := by
    rw [run_declarationAt_succ, run_unclosed u hn ht]
    rfl
  have hrows : (rows (fun _ => false) (declarationAt (n + 2))).run false (u.tokens ++ t :: rest) =
      ((do
        let values ← rows (fun _ => false) (declarationAt (n + 2))
        return none :: values).run false (synchronize (t :: rest))).after
          (u.faults ++ [(⟨.expected u.lacks, some t⟩ : SyntaxFault)]) :=
    StmtPhrase.run_rows_of_ok (fun _ _ => rfl) (by simp) hslot
  unfold parse at h ⊢
  rw [hrows, run_bind]
  cases hr : (rows (fun _ => false) (declarationAt (n + 2))).run false (synchronize (t :: rest)) with
  | ok values left noted =>
    rw [hr] at h
    obtain ⟨rfl, rfl⟩ : values = slots ∧ noted = faults := by simpa using h
    simp [Reply.after]
  | failed left noted =>
    have hall := run_rows_all (run_declarationAt_ne_failed (n + 2) false) (synchronize (t :: rest))
    rw [hr] at hall
    simp at hall
  | tooDeep =>
    rw [hr] at h
    contradiction

end Grammar

namespace Reader

open LoxLang.Grammar (constant)

/-- The tokens of `print nil print nil;`. -/
def twoPrints : List Token :=
  [⟨.printWord, "print", 1⟩, ⟨.nilWord, "nil", 1⟩, ⟨.printWord, "print", 1⟩, ⟨.nilWord, "nil", 1⟩,
    ⟨.semicolon, ";", 1⟩]

/-- Of `print nil print nil;` nothing is left: the second statement, which is well-formed by itself, is
lost with the first one, and the call that failed passed its beginning. -/
theorem recovery_loses_statement :
    Grammar.parse 8 (twoPrints.drop 2) = .done [some (.print (.literal .nil))] [] ∧
    Grammar.parse 8 twoPrints =
      .done [none] [⟨.expected .semicolonAfterPrinted, some ⟨.printWord, "print", 1⟩⟩] ∧
    ∃ slots r, program 8 (start twoPrints (Token.atEnd 1)) = .ok slots r ∧
      ∃ v ∈ r.visits, ¬ v.Spares (twoPrints ++ [Token.atEnd 1]) := by
  let keyword : Terminal .printWord := ⟨⟨.printWord, "print", 1⟩, rfl⟩
  let value := constant ⟨.nilWord, "nil", 1⟩ .nil rfl
  refine ⟨?_, ?_, _, _, rfl, ⟨0, some 2, 5, 0, 0⟩, ?_, ?_⟩
  · exact Grammar.parse_eq_done (.cons (.statement (.printing keyword value
      ⟨⟨.semicolon, ";", 1⟩, rfl⟩)) .nil) ⟨trivial, trivial⟩ (by decide)
  · have hrest : Grammar.parse 8 (Grammar.synchronize (twoPrints.drop 2)) = .done [] [] := by
      simp [Grammar.parse, Grammar.synchronize, twoPrints, Token.Kind.startsStatement]
    exact Grammar.parse_unclosed (.printing keyword value) (by decide) rfl hrest
  · exact List.mem_singleton_self _
  · intro hspares
    have h := hspares 2 rfl 2 (by decide) (by decide) (by decide) _ rfl
    contradiction

end Reader

end LoxLang
