import LoxLang.Proofs.Grammar.Expression

set_option autoImplicit false

/-!
# Reading statements and declarations

The parsers of the grammar of statements read exactly its phrases, as those of expressions do. Two
things are different. An alternative goes to the nearest condition that has none, so a phrase is
only read if it is built that way, and if it is not open in front of one. And a declaration that
cannot be read leaves an empty slot behind; so what is read is a phrase if nothing failed on the way.

## Main definitions

* `StmtPhrase.Ends` — no alternative follows a phrase that would take it.
* `StmtPhrase.IsRead` — the parser of a symbol reads a phrase of it.

## Main results

* `StmtPhrase.isRead` — every phrase with nearest alternatives is read, given enough depth.
* `Grammar.yields_declarationAt` — whatever is read without a failure is such a phrase.
-/

namespace LoxLang

/-! ## First tokens -/

/-- Whether a phrase of a symbol may begin with a token of a kind. Keywords of declarations begin
no statement. -/
def StmtSymbol.startsWith : StmtSymbol → Token.Kind → Bool
  | _, .forWord | _, .ifWord | _, .whileWord | _, .printWord | _, .returnWord | _, .leftBrace => true
  | statement, .funWord | statement, .varWord => false
  | _, .funWord | _, .varWord => true
  | _, kind => kind.startsExpression

/-- What an expression begins with, a statement may begin with. -/
lemma StmtSymbol.startsWith_of_startsExpression {s : StmtSymbol} {k : Token.Kind}
    (h : k.startsExpression = true) : s.startsWith k = true := by
  cases k <;> simp_all [Token.Kind.startsExpression, startsWith]

/-- What a statement begins with, a declaration may begin with. -/
lemma StmtSymbol.startsWith_declaration {s : StmtSymbol} {k : Token.Kind}
    (h : s.startsWith k = true) : StmtSymbol.startsWith .declaration k = true := by
  cases s <;> cases k <;> simp_all [startsWith]

namespace Grammar

variable {e : Parser Expr} {st : Parser Stmt} {d : Advancing (Option Stmt)} {k : Token.Kind}

/-- What begins an expression selects no statement. -/
lemma statementTable_eq_none (h : k.startsExpression = true) : statementTable e st d k = none := by
  cases k <;> simp_all [Token.Kind.startsExpression, statementTable]

/-- What begins an expression selects nothing else at the beginning of a `for`. -/
lemma initialTable_eq_none (h : k.startsExpression = true) : initialTable e k = none := by
  cases k <;> simp_all [Token.Kind.startsExpression, initialTable]

/-- What begins a statement selects no declaration. -/
lemma declarationTable_eq_none (h : StmtSymbol.startsWith .statement k = true) :
    declarationTable e d k = none := by
  cases k <;> simp_all [StmtSymbol.startsWith, Token.Kind.startsExpression, declarationTable]

end Grammar

/-- Names begin with a name. -/
lemma NamesPhrase.identifier_head (p : NamesPhrase) (rest : List Token) :
    ∀ t ∈ (p.tokens ++ rest).head?, t.kind = .identifier := by
  induction p generalizing rest with
  | single name => simp [NamesPhrase.tokens, name.2]
  | further init comma name ih => simpa [NamesPhrase.tokens] using ih (comma.1 :: name.1 :: rest)

namespace StmtPhrase

/-- Every statement and every declaration begins with a token that phrases of its symbol may begin
with. -/
lemma exists_tokens_eq_cons {s : StmtSymbol} (p : StmtPhrase s) (hs : s ≠ .declarations) :
    ∃ t ts, p.tokens = t :: ts ∧ s.startsWith t.kind = true := by
  induction p with
  | evaluation s =>
    obtain ⟨t, ts, h, ht⟩ := s.value.exists_tokens_eq_cons
    refine ⟨t, ts ++ [s.closing.1], congrArg (· ++ _) h, ?_⟩
    exact StmtSymbol.startsWith_of_startsExpression (ExprSymbol.startsExpression_of_startsWith ht)
  | statement p ih =>
    obtain ⟨t, ts, h, ht⟩ := ih (by simp)
    exact ⟨t, ts, h, StmtSymbol.startsWith_declaration ht⟩
  | declared v => exact ⟨v.keyword.1, _, rfl, by rw [v.keyword.2]; rfl⟩
  | printing keyword | returning keyword | block keyword | ifThen keyword | ifElse keyword
  | whileLoop keyword | forLoop keyword | function keyword =>
    exact ⟨keyword.1, _, rfl, by rw [keyword.2]; rfl⟩
  | nil | cons => contradiction

/-- Nothing that begins with a declaration, or else with no alternative, begins with an
alternative. -/
lemma ne_elseWord_head (ds : StmtPhrase .declarations) {rest : List Token}
    (h : ∀ t ∈ rest.head?, t.kind ≠ .elseWord) :
    ∀ t ∈ (ds.tokens ++ rest).head?, t.kind ≠ .elseWord := by
  cases ds with
  | nil => exact h
  | cons d ds =>
    obtain ⟨t, ts, htokens, ht⟩ := d.exists_tokens_eq_cons (by simp)
    intro u hu hk
    obtain rfl : t = u := by simpa [tokens, htokens] using hu
    rw [hk] at ht
    contradiction

/-! ## Every phrase is read -/

/-- No alternative follows that would belong to a condition within a phrase. -/
def Ends {s : StmtSymbol} (p : StmtPhrase s) (rest : List Token) : Prop :=
  p.isOpen = true → ∀ t ∈ rest.head?, t.kind ≠ .elseWord

/-- A phrase that is not open ends anywhere. -/
lemma Ends.of_isOpen_eq_false {s : StmtSymbol} {p : StmtPhrase s} (h : p.isOpen = false)
    (rest : List Token) : p.Ends rest := by
  intro ho
  rw [h] at ho
  contradiction

open LoxLang.Parser LoxLang.Grammar

/-- The parser of a symbol reads a phrase of it. Declarations in a row are read one by one, and
more may follow. -/
def IsRead (n : Nat) : {s : StmtSymbol} → StmtPhrase s → Prop
  | .statement, p => ∀ b rest, p.Ends rest →
    (statementAt n).run b (p.tokens ++ rest) = .ok p.tree rest (p.faults b)
  | .declaration, p => ∀ b rest, p.Ends rest →
    (declarationAt n).run b (p.tokens ++ rest) = .ok (some p.tree) rest (p.faults b)
  | .declarations, p => ∀ b stop rest, (∀ t ∈ rest.head?, t.kind ≠ .elseWord) →
    (∀ kind, StmtSymbol.startsWith .declaration kind = true → stop kind = false) →
    (rows stop (declarationAt n)).run b (p.tokens ++ rest) =
      ((do
        let more ← rows stop (declarationAt n)
        return p.tree ++ more).run b rest).after (p.faults b)

/-! ### The productions -/

variable {n : Nat} {b : Bool} {rest : List Token}

/-- An expression in a statement is read up to what stops it. -/
lemma run_expressionAt (e : ExprPhrase .expression) (hn : e.height ≤ n) (t : Token)
    (ht : ExprSymbol.goesOnWith .expression t.kind = false) (b : Bool) (rest : List Token) :
    (expressionAt n).run b (e.tokens ++ t :: rest) = .ok e.tree (t :: rest) e.faults :=
  e.isRead hn b _ (by rwa [ExprSymbol.stopsAt_cons])

/-- An expression that may be left out is read up to the token that stands behind it. -/
lemma run_unlessNext_expressionAt {kind : Token.Kind} (e : Option (ExprPhrase .expression))
    (hn : e.elim 0 ExprPhrase.height ≤ n) (t : Terminal kind)
    (hk : ExprSymbol.goesOnWith .expression kind = false) (hs : kind.startsExpression = false)
    (b : Bool) (rest : List Token) :
    (unlessNext kind (expressionAt n)).run b (e.elim [] ExprPhrase.tokens ++ t.1 :: rest) =
      .ok (e.map ExprPhrase.tree) (t.1 :: rest) (e.elim [] ExprPhrase.faults) := by
  cases e with
  | none => exact run_unlessNext_stop _ _ _ _
  | some e =>
    refine run_unlessNext_of_ok (fun u hu hk' => ?_)
      (run_expressionAt e hn t.1 (by rw [t.2]; exact hk) b rest)
    have := e.startsExpression_head _ u hu
    rw [hk', hs] at this
    contradiction

/-- A variable declaration is read behind its keyword. -/
lemma run_variableDeclaration (v : VariablePhrase) (hn : v.height ≤ n) (b : Bool)
    (rest : List Token) :
    (variableDeclaration (expressionAt n)).run b (v.tokens.tail ++ rest) =
      .ok v.tree rest v.faults := by
  obtain ⟨keyword, name, initial, closing⟩ := v
  cases initial with
  | none =>
    have haccept : (accept .equal).run b (closing.1 :: rest) = .ok none (closing.1 :: rest) [] := by
      simp [accept, run_acceptIf_cons, closing.2]
    show (variableDeclaration _).run b (name.1 :: closing.1 :: rest) = _
    rw [variableDeclaration, run_bind_of_ok (run_expect_cons _ _ _ _), run_bind_of_ok haccept]
    simp only [run_bind_of_ok (run_pure _ _ _), run_bind_of_ok (run_expect_cons closing _ _ _)]
    rfl
  | some initial =>
    obtain ⟨equals, e⟩ := initial
    have haccept : (accept .equal).run b (equals.1 :: (e.tokens ++ closing.1 :: rest)) =
        .ok (some equals.1) (e.tokens ++ closing.1 :: rest) [] := by
      simp [accept, run_acceptIf_cons, equals.2]
    have he := run_expressionAt e hn closing.1 (by rw [closing.2]; rfl) b rest
    have htokens : VariablePhrase.tokens ⟨keyword, name, some (equals, e), closing⟩ =
        keyword.1 :: name.1 :: equals.1 :: (e.tokens ++ [closing.1]) := rfl
    rw [htokens, List.tail_cons, variableDeclaration]
    simp only [List.cons_append, List.append_assoc, List.nil_append]
    rw [run_bind_of_ok (run_expect_cons _ _ _ _), run_bind_of_ok haccept]
    simp only [run_bind_of_ok he, run_bind_of_ok (run_pure _ _ _),
      run_bind_of_ok (run_expect_cons closing _ _ _)]
    simp [VariablePhrase.tree, VariablePhrase.faults]

/-- An expression statement is read up to its semicolon. -/
lemma run_expressionStatement (s : EvaluationPhrase) (hn : s.value.height ≤ n) (b : Bool)
    (rest : List Token) :
    (expressionStatement (expressionAt n)).run b (s.tokens ++ rest) =
      .ok s.tree rest s.value.faults := by
  have he := run_expressionAt s.value hn s.closing.1 (by rw [s.closing.2]; rfl) b rest
  show ((expressionAt n) >>= fun value => Parser.expect .semicolon .semicolonAfterExpression >>=
    fun _ => pure (Stmt.expression value)).run b _ = _
  rw [EvaluationPhrase.tokens, List.append_assoc, List.singleton_append, run_bind_of_ok he,
    run_bind_of_ok (run_expect_cons _ _ _ _)]
  simp [EvaluationPhrase.tree]

/-- What a `for` begins with is read up to its semicolon. -/
lemma run_forInitial (i : InitialPhrase) (hn : i.height ≤ n) (b : Bool) (rest : List Token) :
    (forInitial (expressionAt n)).run b (i.tokens ++ rest) = .ok i.tree rest i.faults := by
  cases i with
  | absent closing =>
    show (forInitial (expressionAt n)).run b (closing.1 :: rest) = _
    simp [forInitial, Parser.select, closing.2, InitialPhrase.tree, InitialPhrase.faults]
  | declared v =>
    have hv := run_variableDeclaration v hn b rest
    show (forInitial (expressionAt n)).run b (v.keyword.1 :: (v.tokens.tail ++ rest)) = _
    simp only [forInitial, Parser.select, v.keyword.2, run_bind_of_ok hv]
    simp [InitialPhrase.tree, InitialPhrase.faults]
  | evaluated s =>
    have hs := run_expressionStatement s hn b rest
    have hnone : ∀ t ∈ (s.tokens ++ rest).head?, initialTable (expressionAt n) t.kind = none := by
      intro t ht
      rw [EvaluationPhrase.tokens, List.append_assoc] at ht
      exact initialTable_eq_none (s.value.startsExpression_head _ t ht)
    rw [InitialPhrase.tokens, forInitial_eq, run_select_of_none hnone, run_bind_of_ok hs]
    simp [InitialPhrase.tree, InitialPhrase.faults]

/-- Names between commas are read up to what is no comma. -/
lemma run_listed_names (p : NamesPhrase) (b : Bool) (rest : List Token) :
    (listed (Parser.expect .identifier .parameterName) .tooManyParameters).run b
        (p.tokens ++ rest) =
      ((do
        let items ← folding (· == Token.Kind.comma)
          (listedStep (Parser.expect .identifier .parameterName) .tooManyParameters)
          (List.toArray p.tree)
        return items.toList).run b rest).after p.faults := by
  induction p generalizing rest with
  | single name =>
    rw [NamesPhrase.tokens, List.singleton_append, listed_eq,
      run_bind_of_ok (run_expect_cons name _ _ _)]
    rfl
  | further init comma name ih =>
    have hi := ih (comma.1 :: name.1 :: rest)
    have hstep : (listedStep (Parser.expect .identifier .parameterName) .tooManyParameters
        (List.toArray init.tree) comma.1).run b (name.1 :: rest) =
          .ok (List.toArray (init.tree ++ [name.1])) rest
            (surplusFault .tooManyParameters init.tree.length name.1) := by
      rw [run_listedStep, run_bind_of_ok (run_expect_cons name _ _ _)]
      simp
    have hloop : (folding (· == Token.Kind.comma)
        (listedStep (Parser.expect .identifier .parameterName) .tooManyParameters)
        (List.toArray init.tree)).run b (comma.1 :: name.1 :: rest) =
          ((folding (· == Token.Kind.comma)
            (listedStep (Parser.expect .identifier .parameterName) .tooManyParameters)
            (List.toArray (init.tree ++ [name.1]))).run b rest).after
              (surplusFault .tooManyParameters init.tree.length name.1) := by
      rw [run_folding_cons, if_pos (by simp [comma.2]), run_bind_of_ok hstep]
    rw [run_bind_of_after hloop] at hi
    simpa [NamesPhrase.tokens, NamesPhrase.tree, NamesPhrase.faults] using hi

/-- Parameters are read up to the parenthesis behind them. -/
lemma run_parameters (p : Option NamesPhrase) (closing : Terminal .rightParen) (b : Bool)
    (rest : List Token) :
    (unlessNext .rightParen
      (listed (Parser.expect .identifier .parameterName) .tooManyParameters)).run b
        (p.elim [] NamesPhrase.tokens ++ closing.1 :: rest) =
      .ok (p.map NamesPhrase.tree) (closing.1 :: rest) (p.elim [] NamesPhrase.faults) := by
  cases p with
  | none => exact run_unlessNext_stop _ _ _ _
  | some p =>
    refine run_unlessNext_of_ok (fun t ht hk => ?_) ?_
    · have := p.identifier_head _ t ht
      rw [hk] at this
      contradiction
    · have hstop : ∀ t ∈ (closing.1 :: rest).head?, (t.kind == Token.Kind.comma) = false := by
        simp [closing.2]
      rw [Option.elim, run_listed_names, run_bind_of_ok (run_folding_of_stop _ hstop)]
      simp

section Productions

variable {st : Parser Stmt} {d : Advancing (Option Stmt)} {ts us : List Token} {v w : Stmt}
  {fs gs : List SyntaxFault}

/-- A `print` is read behind its keyword. -/
lemma run_printStatement (value : ExprPhrase .expression) (closing : Terminal .semicolon)
    (hn : value.height ≤ n) (b : Bool) (rest : List Token) :
    (printStatement (expressionAt n)).run b (value.tokens ++ closing.1 :: rest) =
      .ok (.print value.tree) rest value.faults := by
  rw [printStatement, run_bind_of_ok (run_expressionAt value hn _ (by rw [closing.2]; rfl) _ _),
    run_bind_of_ok (run_expect_cons _ _ _ _)]
  simp

/-- A `return` is read behind its keyword. -/
lemma run_returnStatement (keyword : Token) (value : Option (ExprPhrase .expression))
    (closing : Terminal .semicolon) (hn : value.elim 0 ExprPhrase.height ≤ n) (b : Bool)
    (rest : List Token) :
    (returnStatement (expressionAt n) keyword).run b
        (value.elim [] ExprPhrase.tokens ++ closing.1 :: rest) =
      .ok (.return keyword (value.map ExprPhrase.tree)) rest
        ((if b then [] else [⟨.returnOutsideFunction, some keyword⟩]) ++
          value.elim [] ExprPhrase.faults) := by
  have hv := run_unlessNext_expressionAt value hn closing rfl rfl b rest
  rw [returnStatement, run_bind_of_ok (run_inFunction _ _)]
  cases b with
  | false =>
    simp only [Bool.not_false, if_true, run_bind_of_ok (run_noteAt _ _ _ _), run_bind_of_ok hv,
      run_bind_of_ok (run_expect_cons closing _ _ _)]
    simp
  | true =>
    simp only [Bool.not_true, Bool.false_eq_true, if_false, run_bind_of_ok hv,
      run_bind_of_ok (run_expect_cons closing _ _ _)]
    simp

/-- An `if` without an alternative is read in front of what is none. -/
lemma run_ifStatement_ifThen (opening : Terminal .leftParen) (condition : ExprPhrase .expression)
    (closing : Terminal .rightParen) (hn : condition.height ≤ n)
    (hst : st.run b ts = .ok v rest fs) (hrest : ∀ t ∈ rest.head?, t.kind ≠ .elseWord) :
    (ifStatement (expressionAt n) st).run b
        (opening.1 :: (condition.tokens ++ closing.1 :: ts)) =
      .ok (.branch condition.tree v none) rest (condition.faults ++ fs) := by
  have haccept : (accept .elseWord).run b rest = .ok none rest [] := by
    cases rest with
    | nil => rfl
    | cons t rest => simpa [accept, run_acceptIf_cons] using hrest t (by simp)
  rw [ifStatement, run_bind_of_ok (run_expect_cons _ _ _ _),
    run_bind_of_ok (run_expressionAt condition hn _ (by rw [closing.2]; rfl) _ _),
    run_bind_of_ok (run_expect_cons _ _ _ _), run_bind_of_ok hst, run_bind_of_ok haccept]
  simp

/-- An `if` with an alternative is read if its parts are. -/
lemma run_ifStatement_ifElse (opening : Terminal .leftParen) (condition : ExprPhrase .expression)
    (closing : Terminal .rightParen) (otherwise : Terminal .elseWord) (hn : condition.height ≤ n)
    (hst : st.run b ts = .ok v (otherwise.1 :: us) fs) (hst' : st.run b us = .ok w rest gs) :
    (ifStatement (expressionAt n) st).run b
        (opening.1 :: (condition.tokens ++ closing.1 :: ts)) =
      .ok (.branch condition.tree v (some w)) rest (condition.faults ++ (fs ++ gs)) := by
  have haccept : (accept .elseWord).run b (otherwise.1 :: us) = .ok (some otherwise.1) us [] := by
    simp [accept, run_acceptIf_cons, otherwise.2]
  rw [ifStatement, run_bind_of_ok (run_expect_cons _ _ _ _),
    run_bind_of_ok (run_expressionAt condition hn _ (by rw [closing.2]; rfl) _ _),
    run_bind_of_ok (run_expect_cons _ _ _ _), run_bind_of_ok hst, run_bind_of_ok haccept]
  simp [run_bind_of_ok hst']

/-- A `while` is read if its body is. -/
lemma run_whileStatement (opening : Terminal .leftParen) (condition : ExprPhrase .expression)
    (closing : Terminal .rightParen) (hn : condition.height ≤ n)
    (hst : st.run b ts = .ok v rest fs) :
    (whileStatement (expressionAt n) st).run b
        (opening.1 :: (condition.tokens ++ closing.1 :: ts)) =
      .ok (.loop condition.tree v) rest (condition.faults ++ fs) := by
  rw [whileStatement, run_bind_of_ok (run_expect_cons _ _ _ _),
    run_bind_of_ok (run_expressionAt condition hn _ (by rw [closing.2]; rfl) _ _),
    run_bind_of_ok (run_expect_cons _ _ _ _), run_bind_of_ok hst]
  simp

/-- A `for` is read if its body is. -/
lemma run_forStatement (opening : Terminal .leftParen) (initial : InitialPhrase)
    (condition : Option (ExprPhrase .expression)) (middle : Terminal .semicolon)
    (step : Option (ExprPhrase .expression)) (closing : Terminal .rightParen)
    (hi : initial.height ≤ n) (hc : condition.elim 0 ExprPhrase.height ≤ n)
    (hs : step.elim 0 ExprPhrase.height ≤ n) (hst : st.run b ts = .ok v rest fs) :
    (forStatement (expressionAt n) st).run b
        (opening.1 :: (initial.tokens ++ (condition.elim [] ExprPhrase.tokens ++
          middle.1 :: (step.elim [] ExprPhrase.tokens ++ closing.1 :: ts)))) =
      .ok (.forLoop initial.tree (condition.map ExprPhrase.tree) (step.map ExprPhrase.tree) v) rest
        (initial.faults ++ (condition.elim [] ExprPhrase.faults ++
          (step.elim [] ExprPhrase.faults ++ fs))) := by
  rw [forStatement, run_bind_of_ok (run_expect_cons _ _ _ _),
    run_bind_of_ok (run_forInitial initial hi _ _),
    run_bind_of_ok (run_unlessNext_expressionAt condition hc middle rfl rfl _ _),
    run_bind_of_ok (run_expect_cons _ _ _ _),
    run_bind_of_ok (run_unlessNext_expressionAt step hs closing rfl rfl _ _),
    run_bind_of_ok (run_expect_cons _ _ _ _), run_bind_of_ok hst]
  simp

/-- Declarations that are read are read up to the brace behind them. -/
lemma IsRead.run_blockBody {p : StmtPhrase .declarations} (h : p.IsRead n) (b : Bool)
    (closing : Terminal .rightBrace) (rest : List Token) :
    (blockBody (declarationAt n)).run b (p.tokens ++ closing.1 :: rest) =
      .ok p.tree rest (p.faults b) := by
  have hstart : ∀ kind, StmtSymbol.startsWith .declaration kind = true →
      (kind == Token.Kind.rightBrace) = false := by
    intro kind hk
    cases kind <;> simp_all [StmtSymbol.startsWith, Token.Kind.startsExpression]
  have hend : (rows (· == Token.Kind.rightBrace) (declarationAt n)).run b (closing.1 :: rest) =
      .ok [] (closing.1 :: rest) [] := by
    rw [run_rows_cons, if_pos (by simp [closing.2])]
  have hp := h b (· == Token.Kind.rightBrace) (closing.1 :: rest) (by simp [closing.2]) hstart
  rw [run_bind_of_ok hend, run_pure, Reply.after_nil, Reply.after_ok] at hp
  rw [blockBody, run_bind_of_ok hp, run_bind_of_ok (run_expect_cons _ _ _ _)]
  simp

/-- A function declaration is read behind its keyword. -/
lemma run_functionDeclaration (name : Terminal .identifier) (opening : Terminal .leftParen)
    (parameters : Option NamesPhrase) (closing : Terminal .rightParen)
    (bodyOpening : Terminal .leftBrace) {body : StmtPhrase .declarations} (h : body.IsRead n)
    (bodyClosing : Terminal .rightBrace) (b : Bool) (rest : List Token) :
    (functionDeclaration (declarationAt n)).run b
        (name.1 :: opening.1 :: (parameters.elim [] NamesPhrase.tokens ++
          closing.1 :: bodyOpening.1 :: (body.tokens ++ bodyClosing.1 :: rest))) =
      .ok (.function name.1 (parameters.elim [] NamesPhrase.tree) body.tree) rest
        (parameters.elim [] NamesPhrase.faults ++ body.faults true) := by
  have hbody : (asFunctionBody (blockBody (declarationAt n))).run b
      (body.tokens ++ bodyClosing.1 :: rest) = .ok body.tree rest (body.faults true) :=
    h.run_blockBody true bodyClosing rest
  rw [functionDeclaration, run_bind_of_ok (run_expect_cons _ _ _ _),
    run_bind_of_ok (run_expect_cons _ _ _ _), run_bind_of_ok (run_parameters _ _ _ _),
    run_bind_of_ok (run_expect_cons _ _ _ _), run_bind_of_ok (run_expect_cons _ _ _ _),
    run_bind_of_ok hbody]
  cases parameters <;> simp

end Productions

/-- A statement whose first token selects it is read as the parser that it selects does. -/
lemma run_statementAt_of_table {t : Token} {f : Token → Parser Stmt}
    (h : statementTable (expressionAt n) (statementAt n).toParser (declarationAt n) t.kind = some f)
    (b : Bool) (rest : List Token) :
    (statementAt (n + 1)).run b (t :: rest) = (f t).run b rest := by
  rw [statementAt_succ, run_select_of_some h]

/-- Declarations in a row are read one by one. -/
lemma run_rows_of_ok {stop : Token.Kind → Bool} {d : Advancing (Option Stmt)} {ts : List Token}
    {v : Option Stmt} {fs : List SyntaxFault} (hstop : ∀ t ∈ ts.head?, stop t.kind = false)
    (hne : ts ≠ []) (h : d.run b ts = .ok v rest fs) :
    (rows stop d).run b ts = ((do
      let values ← rows stop d
      return v :: values).run b rest).after fs := by
  obtain ⟨t, us, rfl⟩ := List.exists_cons_of_ne_nil hne
  rw [run_rows_cons, if_neg (by simp [hstop t (by simp)]), run_bind_of_ok h]

/-- **Every phrase is read**: with as much depth as a phrase nests, the parser of its symbol reads it
as its tree, notes its faults, and stops behind it. Its alternatives have to be nearest, and none
may follow that it would take.

**Proof sketch.** Induction on the phrase. The first token selects the production. Where an
alternative may follow a part, the part is closed, or it is the last one and ends where the whole
phrase does. -/
theorem isRead {s : StmtSymbol} (p : StmtPhrase s) {n : Nat} (hn : p.height ≤ n)
    (hp : p.NearestElse) : p.IsRead n := by
  induction p generalizing n with
  | evaluation s =>
    intro b rest _
    obtain ⟨m, rfl⟩ : ∃ m, n = m + 1 := ⟨n - 1, by simp [height] at hn; omega⟩
    have hs := run_expressionStatement s (Nat.le_of_succ_le_succ hn) b rest
    rw [statementAt_succ, tokens, run_select_of_none (fun t ht => ?_), hs]
    · rfl
    · rw [EvaluationPhrase.tokens, List.append_assoc] at ht
      exact statementTable_eq_none (s.value.startsExpression_head _ t ht)
  | printing keyword value closing =>
    intro b rest _
    obtain ⟨m, rfl⟩ : ∃ m, n = m + 1 := ⟨n - 1, by simp [height] at hn; omega⟩
    have hprint := run_printStatement value closing (Nat.le_of_succ_le_succ hn) b rest
    rw [tokens, List.cons_append, run_statementAt_of_table (by rw [keyword.2]; rfl)]
    simpa [tree, faults] using hprint
  | returning keyword value closing =>
    intro b rest _
    obtain ⟨m, rfl⟩ : ∃ m, n = m + 1 := ⟨n - 1, by simp [height] at hn; omega⟩
    have hreturn := run_returnStatement keyword.1 value closing (Nat.le_of_succ_le_succ hn) b rest
    rw [tokens, List.cons_append, run_statementAt_of_table (by rw [keyword.2]; rfl)]
    simpa [tree, faults] using hreturn
  | block opening body closing ih =>
    intro b rest _
    obtain ⟨m, rfl⟩ : ∃ m, n = m + 1 := ⟨n - 1, by simp [height] at hn; omega⟩
    have hbody := (ih (Nat.le_of_succ_le_succ hn) hp).run_blockBody b closing rest
    rw [tokens, List.cons_append, run_statementAt_of_table (by rw [opening.2]; rfl),
      List.append_assoc, List.singleton_append, run_bind_of_ok hbody]
    simp [tree, faults]
  | ifThen keyword opening condition closing whenTrue ih =>
    intro b rest hr
    obtain ⟨m, rfl⟩ : ∃ m, n = m + 1 := ⟨n - 1, by simp [height] at hn; omega⟩
    obtain ⟨hc, hw⟩ := Nat.max_le.1 (Nat.le_of_succ_le_succ hn)
    have hrest : ∀ t ∈ rest.head?, t.kind ≠ .elseWord := hr rfl
    have hif := run_ifStatement_ifThen opening condition closing hc
      (ih hw hp b rest fun _ => hrest) hrest
    rw [tokens, List.cons_append, run_statementAt_of_table (by rw [keyword.2]; rfl)]
    simpa [tree, faults] using hif
  | ifElse keyword opening condition closing whenTrue otherwise whenFalse iht ihf =>
    intro b rest hr
    obtain ⟨m, rfl⟩ : ∃ m, n = m + 1 := ⟨n - 1, by simp [height] at hn; omega⟩
    obtain ⟨hc, hw⟩ := Nat.max_le.1 (Nat.le_of_succ_le_succ hn)
    obtain ⟨hwt, hwf⟩ := Nat.max_le.1 hw
    obtain ⟨hclosed, hpt, hpf⟩ := hp
    have hif := run_ifStatement_ifElse opening condition closing otherwise hc
      (iht hwt hpt b (otherwise.1 :: (whenFalse.tokens ++ rest)) (.of_isOpen_eq_false hclosed _))
      (ihf hwf hpf b rest hr)
    rw [tokens, List.cons_append, run_statementAt_of_table (by rw [keyword.2]; rfl)]
    simpa [tree, faults] using hif
  | whileLoop keyword opening condition closing body ih =>
    intro b rest hr
    obtain ⟨m, rfl⟩ : ∃ m, n = m + 1 := ⟨n - 1, by simp [height] at hn; omega⟩
    obtain ⟨hc, hb⟩ := Nat.max_le.1 (Nat.le_of_succ_le_succ hn)
    have hwhile := run_whileStatement opening condition closing hc (ih hb hp b rest hr)
    rw [tokens, List.cons_append, run_statementAt_of_table (by rw [keyword.2]; rfl)]
    simpa [tree, faults] using hwhile
  | forLoop keyword opening initial condition middle step closing body ih =>
    intro b rest hr
    obtain ⟨m, rfl⟩ : ∃ m, n = m + 1 := ⟨n - 1, by simp [height] at hn; omega⟩
    obtain ⟨hi, hrest⟩ := Nat.max_le.1 (Nat.le_of_succ_le_succ hn)
    obtain ⟨hc, hrest⟩ := Nat.max_le.1 hrest
    obtain ⟨hs, hb⟩ := Nat.max_le.1 hrest
    have hfor := run_forStatement opening initial condition middle step closing hi hc hs
      (ih hb hp b rest hr)
    rw [tokens, List.cons_append, run_statementAt_of_table (by rw [keyword.2]; rfl)]
    simpa [tree, faults] using hfor
  | function keyword name opening parameters closing bodyOpening body bodyClosing ih =>
    intro b rest _
    obtain ⟨m, rfl⟩ : ∃ m, n = m + 1 := ⟨n - 1, by simp [height] at hn; omega⟩
    have hfun := run_functionDeclaration name opening parameters closing bodyOpening
      (ih (Nat.le_of_succ_le_succ hn) hp) bodyClosing b rest
    rw [tokens, List.cons_append, run_declarationAt_succ,
      run_select_of_some (by rw [keyword.2]; rfl)]
    simpa [tree, faults, recover] using congrArg recover hfun
  | declared v =>
    intro b rest _
    obtain ⟨m, rfl⟩ : ∃ m, n = m + 1 := ⟨n - 1, by simp [height] at hn; omega⟩
    have hv := run_variableDeclaration v (Nat.le_of_succ_le_succ hn) b rest
    show (declarationAt (m + 1)).run b (v.keyword.1 :: (v.tokens.tail ++ rest)) = _
    rw [run_declarationAt_succ, run_select_of_some (by rw [v.keyword.2]; rfl)]
    simpa [tree, faults, recover] using congrArg recover hv
  | statement p ih =>
    intro b rest hr
    obtain ⟨m, rfl⟩ : ∃ m, n = m + 1 := ⟨n - 1, by simp [height] at hn; omega⟩
    have hs := ih (Nat.le_of_succ_le_succ hn) hp b rest hr
    obtain ⟨t, ts, htokens, ht⟩ := p.exists_tokens_eq_cons (by simp)
    rw [run_declarationAt_succ, tokens, run_select_of_none (fun u hu => ?_), hs]
    · rfl
    · obtain rfl : t = u := by simpa [htokens] using hu
      exact declarationTable_eq_none ht
  | nil =>
    intro b stop rest _ _
    show (rows stop (declarationAt n)).run b rest = _
    rw [run_bind]
    cases (rows stop (declarationAt n)).run b rest <;> simp [tree, faults]
  | cons d ds ihd ihds =>
    intro b stop rest hr hstop
    obtain ⟨hd, hds⟩ := Nat.max_le.1 hn
    obtain ⟨t, ts, htokens, ht⟩ := d.exists_tokens_eq_cons (by simp)
    have hdecl := ihd hd hp.1 b (ds.tokens ++ rest) fun _ => ds.ne_elseWord_head hr
    rw [tokens, List.append_assoc, run_rows_of_ok (by simp [htokens, hstop _ ht])
      (by simp [htokens]) hdecl, run_bind_of_after (ihds hds hp.2 b stop rest hr hstop), run_bind,
      run_bind, run_bind]
    cases (rows stop (declarationAt n)).run b rest <;> simp [tree, faults]

end StmtPhrase

/-! ## Only phrases are read -/

open SyntaxFault (Quiet)
open LoxLang.Parser

/-- A phrase stands in front of what is left of some tokens, and it is one that is read with some
depth and notes some faults. -/
structure StmtPhrase.Spans {s : StmtSymbol} (q : StmtPhrase s) (n : Nat) (b : Bool)
    (ts rest : List Token) (faults : List SyntaxFault) : Prop where
  tokens_eq : ts = q.tokens ++ rest
  faults_eq : q.faults b = faults
  height_le : q.height ≤ n
  nearestElse : q.NearestElse
  ends : q.Ends rest

/-- Whatever a parser reads without a failure is a statement. -/
def Parser.YieldsStatement (n : Nat) (p : Parser Stmt) : Prop :=
  ∀ b ts v rest faults, p.run b ts = .ok v rest faults → Quiet faults →
    ∃ q : StmtPhrase .statement, q.tree = v ∧ q.Spans n b ts rest faults

/-- Whatever a parser reads without a failure is a declaration. -/
def Parser.YieldsDeclaration (n : Nat) (p : Parser (Option Stmt)) : Prop :=
  ∀ b ts v rest faults, p.run b ts = .ok v rest faults → Quiet faults →
    ∃ q : StmtPhrase .declaration, some q.tree = v ∧ q.Spans n b ts rest faults

namespace Grammar

variable {e : Parser Expr} {st : Parser Stmt} {d : Advancing (Option Stmt)} {n : Nat} {b : Bool}
  {ts rest : List Token} {v : Stmt} {faults : List SyntaxFault}

/-- An expression that may be left out and is read is a phrase. -/
lemma yields_unlessNext (he : Parser.Yields .expression n e) {kind : Token.Kind} {v : Option Expr}
    (h : (unlessNext kind e).run b ts = .ok v rest faults) :
    ∃ q : Option (ExprPhrase .expression), ts = q.elim [] ExprPhrase.tokens ++ rest ∧
      q.map ExprPhrase.tree = v ∧ q.elim [] ExprPhrase.faults = faults ∧
        q.elim 0 ExprPhrase.height ≤ n := by
  rcases run_unlessNext_eq_ok h with ⟨rfl, rfl, rfl⟩ | ⟨w, rfl, hw⟩
  · exact ⟨none, rfl, rfl, rfl, Nat.zero_le n⟩
  · obtain ⟨q, rfl, rfl, rfl, hq⟩ := he b ts w rest faults hw
    exact ⟨some q, rfl, rfl, rfl, hq⟩

/-- A `print` that is read is a phrase. -/
lemma yields_printStatement (he : Parser.Yields .expression n e) (keyword : Terminal .printWord)
    (h : (printStatement e).run b ts = .ok v rest faults) :
    ∃ q : StmtPhrase .statement, q.tree = v ∧
      q.Spans (n + 1) b (keyword.1 :: ts) rest faults := by
  obtain ⟨value, mid, fs, gs, hvalue, hrest, rfl⟩ := run_bind_eq_ok.1 h
  obtain ⟨closing, rfl, rfl, rfl⟩ := run_closing_eq_ok.1 hrest
  obtain ⟨q, rfl, rfl, rfl, hq⟩ := he b ts value _ fs hvalue
  exact ⟨.printing keyword q closing, rfl, by simp [StmtPhrase.tokens],
    by simp [StmtPhrase.faults], Nat.succ_le_succ hq, trivial, .of_isOpen_eq_false rfl _⟩

/-- A `return` that is read is a phrase. -/
lemma yields_returnStatement (he : Parser.Yields .expression n e)
    (keyword : Terminal .returnWord)
    (h : (returnStatement e keyword.1).run b ts = .ok v rest faults) :
    ∃ q : StmtPhrase .statement, q.tree = v ∧
      q.Spans (n + 1) b (keyword.1 :: ts) rest faults := by
  -- a fault is noted outside function bodies; what follows is the same inside and outside
  obtain ⟨more, hmore, rfl⟩ : ∃ more, (do
      let value ← unlessNext .semicolon e
      let _ ← Parser.expect .semicolon .semicolonAfterReturned
      return Stmt.return keyword.1 value : Parser Stmt).run b ts = .ok v rest more ∧
        faults = (if b then [] else [⟨.returnOutsideFunction, some keyword.1⟩]) ++ more := by
    rw [returnStatement, run_bind_of_ok (run_inFunction _ _), Reply.after_nil] at h
    cases b with
    | false =>
      simp only [Bool.not_false, if_true, run_bind_of_ok (run_noteAt _ _ _ _)] at h
      exact Reply.after_eq_ok.1 h
    | true => exact ⟨faults, h, rfl⟩
  obtain ⟨value, mid, fs, gs, hvalue, hrest, rfl⟩ := run_bind_eq_ok.1 hmore
  obtain ⟨closing, rfl, rfl, rfl⟩ := run_closing_eq_ok.1 hrest
  obtain ⟨q, rfl, rfl, rfl, hq⟩ := yields_unlessNext he hvalue
  exact ⟨.returning keyword q closing, rfl, by simp [StmtPhrase.tokens],
    by simp [StmtPhrase.faults], Nat.succ_le_succ hq, trivial, .of_isOpen_eq_false rfl _⟩

/-- An expression statement that is read is a phrase. -/
lemma yields_expressionStatement (he : Parser.Yields .expression n e)
    (h : (expressionStatement e).run b ts = .ok v rest faults) :
    ∃ q : EvaluationPhrase, ts = q.tokens ++ rest ∧ q.tree = v ∧ q.value.faults = faults ∧
      q.value.height ≤ n := by
  obtain ⟨value, mid, fs, gs, hvalue, hrest, rfl⟩ := run_bind_eq_ok.1 h
  obtain ⟨closing, rfl, rfl, rfl⟩ := run_closing_eq_ok.1 hrest
  obtain ⟨q, rfl, rfl, rfl, hq⟩ := he b ts value _ fs hvalue
  exact ⟨⟨q, closing⟩, by simp [EvaluationPhrase.tokens], rfl, by simp, hq⟩

/-- A variable declaration that is read is a phrase. -/
lemma yields_variableDeclaration (he : Parser.Yields .expression n e)
    (keyword : Terminal .varWord)
    (h : (variableDeclaration e).run b ts = .ok v rest faults) :
    ∃ q : VariablePhrase, keyword.1 :: ts = q.tokens ++ rest ∧ q.tree = v ∧ q.faults = faults ∧
      q.height ≤ n := by
  obtain ⟨name, mid, rfl, hrest⟩ := run_expect_bind_eq_ok.1 h
  obtain ⟨equals?, us, fs', hs, haccept, hinitial, rfl⟩ := run_bind_eq_ok.1 hrest
  obtain ⟨rfl, ⟨rfl, rfl, -⟩ | ⟨equals, rfl, rfl, hk'⟩⟩ := run_acceptIf_eq_ok haccept
  · simp only [run_pure_bind] at hinitial
    obtain ⟨closing, rfl, rfl, rfl⟩ := run_closing_eq_ok.1 hinitial
    exact ⟨⟨keyword, name, none, closing⟩, rfl, rfl, rfl, Nat.zero_le n⟩
  · obtain ⟨value, ws, hs', ks, hvalue, hclose, rfl⟩ := run_bind_eq_ok.1 hinitial
    simp only [run_pure_bind] at hclose
    obtain ⟨closing, rfl, rfl, rfl⟩ := run_closing_eq_ok.1 hclose
    obtain ⟨q, rfl, rfl, rfl, hq⟩ := he b _ value _ _ hvalue
    exact ⟨⟨keyword, name, some (⟨equals, by simpa using hk'⟩, q), closing⟩,
      by simp [VariablePhrase.tokens], rfl, by simp [VariablePhrase.faults], hq⟩

/-- What a `for` begins with is a phrase if it is read. -/
lemma yields_forInitial (he : Parser.Yields .expression n e) {v : Option Stmt}
    (h : (forInitial e).run b ts = .ok v rest faults) :
    ∃ q : InitialPhrase, ts = q.tokens ++ rest ∧ q.tree = v ∧ q.faults = faults ∧
      q.height ≤ n := by
  rw [forInitial_eq] at h
  rcases eq_or_eq_of_run_select h with ⟨t, us, f, rfl, hf, hs⟩ | hs
  · cases hk : t.kind
    all_goals
      rw [hk] at hf
      try contradiction
    case semicolon =>
      obtain rfl : _ = f := Option.some.inj hf
      obtain ⟨rfl, rfl, rfl⟩ : none = v ∧ us = rest ∧ [] = faults := by simpa using hs
      exact ⟨.absent ⟨t, hk⟩, rfl, rfl, rfl, Nat.zero_le n⟩
    case varWord =>
      obtain rfl : _ = f := Option.some.inj hf
      obtain ⟨declared, mid, fs, gs, hdeclared, hpure, rfl⟩ := run_bind_eq_ok.1 hs
      obtain ⟨rfl, rfl, rfl⟩ : some declared = v ∧ mid = rest ∧ [] = gs := by simpa using hpure
      obtain ⟨q, hq, rfl, rfl, hh⟩ := yields_variableDeclaration he ⟨t, hk⟩ hdeclared
      exact ⟨.declared q, hq, rfl, by simp [InitialPhrase.faults], hh⟩
  · obtain ⟨evaluated, mid, fs, gs, hevaluated, hpure, rfl⟩ := run_bind_eq_ok.1 hs
    obtain ⟨rfl, rfl, rfl⟩ : some evaluated = v ∧ mid = rest ∧ [] = gs := by simpa using hpure
    obtain ⟨q, rfl, rfl, rfl, hq⟩ := yields_expressionStatement he hevaluated
    exact ⟨.evaluated q, rfl, rfl, by simp [InitialPhrase.faults], hq⟩

/-- An `if` that is read is a phrase. Its alternative is not one that its first branch would have
taken. -/
lemma yields_ifStatement (he : Parser.Yields .expression n e) (hst : YieldsStatement n st)
    (keyword : Terminal .ifWord) (h : (ifStatement e st).run b ts = .ok v rest faults)
    (hq : Quiet faults) :
    ∃ q : StmtPhrase .statement, q.tree = v ∧
      q.Spans (n + 1) b (keyword.1 :: ts) rest faults := by
  obtain ⟨opening, us, rfl, h₁⟩ := run_expect_bind_eq_ok.1 h
  obtain ⟨condition, mid, fs, noted, hcondition, h₂, rfl⟩ := run_bind_eq_ok.1 h₁
  obtain ⟨closing, ws, rfl, h₃⟩ := run_expect_bind_eq_ok.1 h₂
  obtain ⟨whenTrue, left, gs, noted, hwhenTrue, h₄, rfl⟩ := run_bind_eq_ok.1 h₃
  obtain ⟨otherwise?, left', _, noted, haccept, h₅, rfl⟩ := run_bind_eq_ok.1 h₄
  simp only [SyntaxFault.quiet_append] at hq
  obtain ⟨c, rfl, rfl, rfl, hcn⟩ := he b us condition _ fs hcondition
  obtain ⟨p, rfl, hp⟩ := hst b ws whenTrue left gs hwhenTrue hq.2.1
  obtain ⟨rfl, ⟨rfl, rfl, hne⟩ | ⟨otherwise, rfl, rfl, hk⟩⟩ := run_acceptIf_eq_ok haccept
  · obtain ⟨rfl, rfl, rfl⟩ : Stmt.branch c.tree p.tree none = v ∧ left = rest ∧ [] = noted := by
      simpa using h₅
    refine ⟨.ifThen keyword opening c closing p, rfl, ?_, ?_, ?_, hp.nearestElse, ?_⟩
    · simp [StmtPhrase.tokens, hp.tokens_eq]
    · simp [StmtPhrase.faults, hp.faults_eq]
    · exact Nat.succ_le_succ (Nat.max_le.2 ⟨hcn, hp.height_le⟩)
    · intro _ t ht hk
      have := hne t ht
      rw [hk] at this
      contradiction
  · obtain ⟨whenFalse, left'', hs, noted, hwhenFalse, hpure, rfl⟩ := run_bind_eq_ok.1 h₅
    obtain ⟨rfl, rfl, rfl⟩ : Stmt.branch c.tree p.tree (some whenFalse) = v ∧ left'' = rest ∧
        [] = noted := by simpa using hpure
    simp only [SyntaxFault.quiet_append] at hq
    obtain ⟨q, rfl, hqs⟩ := hst b left' whenFalse left'' hs hwhenFalse hq.2.2.2.1
    have hk : otherwise.kind = .elseWord := by simpa using hk
    -- an open branch would not have ended in front of the alternative
    have hclosed : p.isOpen = false := by
      by_contra hopen
      exact hp.ends (by simpa using hopen) otherwise (by simp) hk
    refine ⟨.ifElse keyword opening c closing p ⟨otherwise, hk⟩ q, rfl, ?_, ?_, ?_,
      ⟨hclosed, hp.nearestElse, hqs.nearestElse⟩, hqs.ends⟩
    · simp [StmtPhrase.tokens, hp.tokens_eq, hqs.tokens_eq]
    · simp [StmtPhrase.faults, hp.faults_eq, hqs.faults_eq]
    · exact Nat.succ_le_succ (Nat.max_le.2 ⟨hcn, Nat.max_le.2 ⟨hp.height_le, hqs.height_le⟩⟩)

/-- A `while` that is read is a phrase. -/
lemma yields_whileStatement (he : Parser.Yields .expression n e) (hst : YieldsStatement n st)
    (keyword : Terminal .whileWord) (h : (whileStatement e st).run b ts = .ok v rest faults)
    (hq : Quiet faults) :
    ∃ q : StmtPhrase .statement, q.tree = v ∧
      q.Spans (n + 1) b (keyword.1 :: ts) rest faults := by
  obtain ⟨opening, us, rfl, h₁⟩ := run_expect_bind_eq_ok.1 h
  obtain ⟨condition, mid, fs, noted, hcondition, h₂, rfl⟩ := run_bind_eq_ok.1 h₁
  obtain ⟨closing, ws, rfl, h₃⟩ := run_expect_bind_eq_ok.1 h₂
  obtain ⟨body, left, gs, noted, hbody, hpure, rfl⟩ := run_bind_eq_ok.1 h₃
  obtain ⟨rfl, rfl, rfl⟩ : Stmt.loop condition body = v ∧ left = rest ∧ [] = noted := by
    simpa using hpure
  simp only [SyntaxFault.quiet_append] at hq
  obtain ⟨c, rfl, rfl, rfl, hcn⟩ := he b us condition _ fs hcondition
  obtain ⟨p, rfl, hp⟩ := hst b ws body left gs hbody hq.2.1
  refine ⟨.whileLoop keyword opening c closing p, rfl, ?_, ?_, ?_, hp.nearestElse, hp.ends⟩
  · simp [StmtPhrase.tokens, hp.tokens_eq]
  · simp [StmtPhrase.faults, hp.faults_eq]
  · exact Nat.succ_le_succ (Nat.max_le.2 ⟨hcn, hp.height_le⟩)

/-- A `for` that is read is a phrase. -/
lemma yields_forStatement (he : Parser.Yields .expression n e) (hst : YieldsStatement n st)
    (keyword : Terminal .forWord) (h : (forStatement e st).run b ts = .ok v rest faults)
    (hq : Quiet faults) :
    ∃ q : StmtPhrase .statement, q.tree = v ∧
      q.Spans (n + 1) b (keyword.1 :: ts) rest faults := by
  obtain ⟨opening, us, rfl, h₁⟩ := run_expect_bind_eq_ok.1 h
  obtain ⟨initial, mid, fs, noted, hinitial, h₂, rfl⟩ := run_bind_eq_ok.1 h₁
  obtain ⟨condition, mid', gs, noted, hcondition, h₃, rfl⟩ := run_bind_eq_ok.1 h₂
  obtain ⟨middle, ws, rfl, h₄⟩ := run_expect_bind_eq_ok.1 h₃
  obtain ⟨step, mid'', hs, noted, hstep, h₅, rfl⟩ := run_bind_eq_ok.1 h₄
  obtain ⟨closing, xs, rfl, h₆⟩ := run_expect_bind_eq_ok.1 h₅
  obtain ⟨body, left, ks, noted, hbody, hpure, rfl⟩ := run_bind_eq_ok.1 h₆
  obtain ⟨rfl, rfl, rfl⟩ : Stmt.forLoop initial condition step body = v ∧ left = rest ∧
      [] = noted := by simpa using hpure
  simp only [SyntaxFault.quiet_append] at hq
  obtain ⟨i, rfl, rfl, rfl, hin⟩ := yields_forInitial he hinitial
  obtain ⟨c, rfl, rfl, rfl, hcn⟩ := yields_unlessNext he hcondition
  obtain ⟨s, rfl, rfl, rfl, hsn⟩ := yields_unlessNext he hstep
  obtain ⟨p, rfl, hp⟩ := hst b xs body left ks hbody hq.2.2.2.1
  refine ⟨.forLoop keyword opening i c middle s closing p, rfl, ?_, ?_, ?_, hp.nearestElse,
    hp.ends⟩
  · simp [StmtPhrase.tokens, hp.tokens_eq]
  · simp [StmtPhrase.faults, hp.faults_eq]
  · exact Nat.succ_le_succ (Nat.max_le.2 ⟨hin, Nat.max_le.2 ⟨hcn, Nat.max_le.2
      ⟨hsn, hp.height_le⟩⟩⟩)

/-- Declarations in a row that are read are a phrase, up to the end or to where they stop.

**Proof sketch.** Induction on the number of tokens, of which each declaration takes at least
one. -/
lemma yields_rows (hd : YieldsDeclaration n d.toParser) {stop : Token.Kind → Bool} {vs : Slots}
    (h : (rows stop d).run b ts = .ok vs rest faults) (hq : Quiet faults) :
    ∃ q : StmtPhrase .declarations, ts = q.tokens ++ rest ∧ q.tree = vs ∧ q.faults b = faults ∧
      q.height ≤ n ∧ q.NearestElse ∧ ∀ t ∈ rest.head?, stop t.kind = true := by
  induction hn : ts.length using Nat.strongRecOn generalizing ts vs faults with
  | ind k ih =>
    cases ts with
    | nil =>
      obtain ⟨rfl, rfl, rfl⟩ : [] = vs ∧ [] = rest ∧ [] = faults := by simpa using h
      exact ⟨.nil, rfl, rfl, rfl, Nat.zero_le n, trivial, by simp⟩
    | cons t us =>
      rw [run_rows_cons] at h
      split at h
      · obtain ⟨rfl, rfl, rfl⟩ : [] = vs ∧ t :: us = rest ∧ [] = faults := by simpa using h
        exact ⟨.nil, rfl, rfl, rfl, Nat.zero_le n, trivial, by simpa⟩
      · obtain ⟨v, mid, fs, noted, hv, hrest, rfl⟩ := run_bind_eq_ok.1 h
        obtain ⟨ws, left, gs, fs', hws, hpure, rfl⟩ := run_bind_eq_ok.1 hrest
        obtain ⟨rfl, rfl, rfl⟩ : v :: ws = vs ∧ left = rest ∧ [] = fs' := by simpa using hpure
        simp only [SyntaxFault.quiet_append] at hq
        have hshort := d.advances b t us
        rw [hv] at hshort
        obtain ⟨p, rfl, hp⟩ := hd b (t :: us) v mid fs hv hq.1
        obtain ⟨q, rfl, rfl, rfl, hqn, hqe, hstop⟩ := ih mid.length (hn ▸ hshort) hws hq.2.1 rfl
        refine ⟨.cons p q, ?_, rfl, ?_, Nat.max_le.2 ⟨hp.height_le, hqn⟩, ⟨hp.nearestElse, hqe⟩,
          hstop⟩
        · simp [StmtPhrase.tokens, hp.tokens_eq]
        · simp [StmtPhrase.faults, hp.faults_eq]

/-- The body of a block that is read is a phrase in front of a brace. -/
lemma yields_blockBody (hd : YieldsDeclaration n d.toParser) {vs : Slots}
    (h : (blockBody d).run b ts = .ok vs rest faults) (hq : Quiet faults) :
    ∃ (q : StmtPhrase .declarations) (closing : Terminal .rightBrace),
      ts = q.tokens ++ closing.1 :: rest ∧ q.tree = vs ∧ q.faults b = faults ∧ q.height ≤ n ∧
        q.NearestElse := by
  obtain ⟨body, mid, fs, gs, hbody, hclosing, rfl⟩ := run_bind_eq_ok.1 h
  obtain ⟨closing, rfl, rfl, rfl⟩ := run_closing_eq_ok.1 hclosing
  obtain ⟨q, rfl, rfl, rfl, hn, he, -⟩ := yields_rows hd hbody (by simpa using hq)
  exact ⟨q, closing, rfl, rfl, by simp, hn, he⟩

/-- Names between commas that are read are a phrase. -/
lemma yields_listed_names {vs : List Token}
    (h : (listed (Parser.expect .identifier .parameterName) .tooManyParameters).run b ts =
      .ok vs rest faults) :
    ∃ q : NamesPhrase, ts = q.tokens ++ rest ∧ q.tree = vs ∧ q.faults = faults := by
  rw [listed_eq] at h
  obtain ⟨head, mid, rfl, hloop⟩ := run_expect_bind_eq_ok.1 h
  obtain ⟨items, left, fs, gs, hitems, hpure, rfl⟩ := run_bind_eq_ok.1 hloop
  obtain ⟨rfl, rfl, rfl⟩ : items.toList = vs ∧ left = rest ∧ [] = gs := by simpa using hpure
  obtain ⟨new, rfl, p, ht, hv, hf⟩ := invariant_of_run_folding
    (fun (items : Array Token) taken noted => ∃ p : NamesPhrase,
      p.tokens = taken ∧ p.tree = items.toList ∧ p.faults = noted)
    (fun items taken noted t us items' left more hI ht hr => by
      obtain ⟨p, rfl, hp, rfl⟩ := hI
      have hcomma : t.kind = .comma := by simpa using ht
      rw [run_listedStep] at hr
      obtain ⟨more, hitem, rfl⟩ := Reply.after_eq_ok.1 hr
      obtain ⟨next, mid, rfl, hpure⟩ := run_expect_bind_eq_ok.1 hitem
      obtain ⟨rfl, rfl, rfl⟩ : items.push next.1 = items' ∧ mid = left ∧ [] = more := by
        simpa using hpure
      exact ⟨[next.1], rfl, .further p ⟨t, hcomma⟩ next, rfl, by simp [NamesPhrase.tree, hp],
        by simp [NamesPhrase.faults, hp]⟩)
    ⟨.single head, rfl, rfl, rfl⟩ hitems
  exact ⟨p, by simp [ht, NamesPhrase.tokens], hv, by simp [hf, NamesPhrase.faults]⟩

/-- Parameters that may be left out and are read are a phrase. -/
lemma yields_parameters {vs : Option (List Token)}
    (h : (unlessNext .rightParen
      (listed (Parser.expect .identifier .parameterName) .tooManyParameters)).run b ts =
        .ok vs rest faults) :
    ∃ q : Option NamesPhrase, ts = q.elim [] NamesPhrase.tokens ++ rest ∧
      q.elim [] NamesPhrase.tree = vs.getD [] ∧ q.elim [] NamesPhrase.faults = faults := by
  rcases run_unlessNext_eq_ok h with ⟨rfl, rfl, rfl⟩ | ⟨w, rfl, hw⟩
  · exact ⟨none, rfl, rfl, rfl⟩
  · obtain ⟨q, rfl, rfl, rfl⟩ := yields_listed_names hw
    exact ⟨some q, rfl, rfl, rfl⟩

/-- A function declaration that is read is a phrase. -/
lemma yields_functionDeclaration (hd : YieldsDeclaration n d.toParser)
    (keyword : Terminal .funWord) (h : (functionDeclaration d).run b ts = .ok v rest faults)
    (hq : Quiet faults) :
    ∃ q : StmtPhrase .declaration, q.tree = v ∧
      q.Spans (n + 1) b (keyword.1 :: ts) rest faults := by
  obtain ⟨name, us, rfl, h₁⟩ := run_expect_bind_eq_ok.1 h
  obtain ⟨opening, mid, rfl, h₂⟩ := run_expect_bind_eq_ok.1 h₁
  obtain ⟨parameters, mid', fs, noted, hparameters, h₃, rfl⟩ := run_bind_eq_ok.1 h₂
  obtain ⟨closing, ws, rfl, h₄⟩ := run_expect_bind_eq_ok.1 h₃
  obtain ⟨bodyOpening, xs, rfl, h₅⟩ := run_expect_bind_eq_ok.1 h₄
  obtain ⟨body, left, gs, noted, hbody, hpure, rfl⟩ := run_bind_eq_ok.1 h₅
  obtain ⟨rfl, rfl, rfl⟩ : Stmt.function name.1 (parameters.getD []) body = v ∧ left = rest ∧
      [] = noted := by simpa using hpure
  simp only [SyntaxFault.quiet_append] at hq
  obtain ⟨p, rfl, hp, rfl⟩ := yields_parameters hparameters
  obtain ⟨q, bodyClosing, rfl, rfl, rfl, hn, he⟩ := yields_blockBody hd hbody hq.2.1
  refine ⟨.function keyword name opening p closing bodyOpening q bodyClosing, ?_, ?_, ?_,
    Nat.succ_le_succ hn, he, .of_isOpen_eq_false rfl _⟩
  · simp [StmtPhrase.tree, hp]
  · simp [StmtPhrase.tokens]
  · simp [StmtPhrase.faults]

/-- A keyword or brace at the beginning of a statement that is read selects a phrase. -/
lemma yields_statementTable (he : Parser.Yields .expression n e) (hst : YieldsStatement n st)
    (hd : YieldsDeclaration n d.toParser) {t : Token} {f : Token → Parser Stmt}
    (hf : statementTable e st d t.kind = some f) (h : (f t).run b ts = .ok v rest faults)
    (hq : Quiet faults) :
    ∃ q : StmtPhrase .statement, q.tree = v ∧ q.Spans (n + 1) b (t :: ts) rest faults := by
  cases hk : t.kind
  all_goals
    rw [hk] at hf
    try contradiction
  all_goals obtain rfl : _ = f := Option.some.inj hf
  case forWord => exact yields_forStatement he hst ⟨t, hk⟩ h hq
  case ifWord => exact yields_ifStatement he hst ⟨t, hk⟩ h hq
  case whileWord => exact yields_whileStatement he hst ⟨t, hk⟩ h hq
  case printWord => exact yields_printStatement he ⟨t, hk⟩ h
  case returnWord => exact yields_returnStatement he ⟨t, hk⟩ h
  case leftBrace =>
    obtain ⟨body, mid, fs, gs, hbody, hpure, rfl⟩ := run_bind_eq_ok.1 h
    obtain ⟨rfl, rfl, rfl⟩ : Stmt.block body = v ∧ mid = rest ∧ [] = gs := by simpa using hpure
    obtain ⟨q, closing, rfl, rfl, rfl, hn, hqe⟩ := yields_blockBody hd hbody (by simpa using hq)
    exact ⟨.block ⟨t, hk⟩ q closing, rfl, by simp [StmtPhrase.tokens], by simp [StmtPhrase.faults],
      Nat.succ_le_succ hn, hqe, .of_isOpen_eq_false rfl _⟩

/-- A statement that is read is a phrase. -/
lemma yields_statementAt_succ (he : Parser.Yields .expression n (expressionAt n))
    (hst : YieldsStatement n (statementAt n).toParser)
    (hd : YieldsDeclaration n (declarationAt n).toParser) :
    YieldsStatement (n + 1) (statementAt (n + 1)).toParser := by
  intro b ts v rest faults h hq
  rw [statementAt_succ] at h
  rcases eq_or_eq_of_run_select h with ⟨t, us, f, rfl, hf, hs⟩ | hs
  · exact yields_statementTable he hst hd hf hs hq
  · obtain ⟨q, rfl, rfl, rfl, hn⟩ := yields_expressionStatement he hs
    exact ⟨.evaluation q, rfl, rfl, rfl, Nat.succ_le_succ hn, trivial, .of_isOpen_eq_false rfl _⟩

/-- A declaration that is read is a phrase, unless it failed and left an empty slot. -/
lemma yields_declarationAt_succ (he : Parser.Yields .expression n (expressionAt n))
    (hst : YieldsStatement n (statementAt n).toParser)
    (hd : YieldsDeclaration n (declarationAt n).toParser) :
    YieldsDeclaration (n + 1) (declarationAt (n + 1)).toParser := by
  intro b ts v rest faults h hq
  rw [run_declarationAt_succ] at h
  cases hr : (select (declarationTable (expressionAt n) (declarationAt n))
    (statementAt n).toParser).run b ts with
  | tooDeep =>
    rw [hr] at h
    contradiction
  | failed left noted =>
    rw [hr] at h
    obtain ⟨-, -, rfl⟩ : none = v ∧ synchronize left = rest ∧ noted = faults := by
      simpa [recover] using h
    exact absurd hq (raises_declarationTable n b ts left noted hr)
  | ok w left noted =>
    rw [hr] at h
    obtain ⟨rfl, rfl, rfl⟩ : some w = v ∧ left = rest ∧ noted = faults := by
      simpa [recover] using h
    rcases eq_or_eq_of_run_select hr with ⟨t, us, f, rfl, hf, hs⟩ | hs
    · cases hk : t.kind
      all_goals
        rw [hk] at hf
        try contradiction
      all_goals obtain rfl : _ = f := Option.some.inj hf
      case funWord =>
        obtain ⟨q, rfl, hqs⟩ := yields_functionDeclaration hd ⟨t, hk⟩ hs hq
        exact ⟨q, rfl, hqs⟩
      case varWord =>
        obtain ⟨q, htokens, rfl, rfl, hn⟩ := yields_variableDeclaration he ⟨t, hk⟩ hs
        exact ⟨.declared q, rfl, htokens, rfl, Nat.succ_le_succ hn, trivial, .of_isOpen_eq_false rfl _⟩
    · obtain ⟨q, rfl, hqs⟩ := hst b ts w left noted hs hq
      exact ⟨.statement q, rfl, hqs.tokens_eq, hqs.faults_eq, Nat.succ_le_succ hqs.height_le,
        hqs.nearestElse, hqs.ends⟩

/-- **Whatever is read without a failure is a phrase**, which nests no deeper than the depth that
was allowed, and whose alternatives are nearest. -/
theorem yields_declarationAt (n : Nat) :
    YieldsStatement n (statementAt n).toParser ∧
      YieldsDeclaration n (declarationAt n).toParser := by
  induction n with
  | zero =>
    refine ⟨fun b ts v rest faults h => ?_, fun b ts v rest faults h => ?_⟩
    · simp [statementAt, Advancing.tooDeep, tooDeep] at h
    · simp [declarationAt, Advancing.tooDeep, tooDeep] at h
  | succ n ih =>
    have he := (yields_expressionAt n).1
    exact ⟨yields_statementAt_succ he ih.1 ih.2, yields_declarationAt_succ he ih.1 ih.2⟩

end Grammar

end LoxLang
