import LoxLang.Proofs.Grammar.Depth

set_option autoImplicit false

/-!
# Reading expressions

The parsers of the grammar of expressions read exactly its phrases. A phrase is read as its tree,
with its faults, wherever no token follows that would go on with it; and whatever is read is a
phrase that stands in front of what is left.

Operators of one level and calls group from the left, but are read by a loop. So the phrases of
these symbols are not said to be read, but to bring their loop to where it stands behind them.

## Main definitions

* `ExprSymbol.StopsAt` — no token of what follows would go on with a phrase of a symbol.
* `ExprPhrase.IsRead` — the parser of a symbol reads a phrase of it.

## Main results

* `ExprPhrase.isRead` — every phrase is read, given enough depth.
* `Grammar.yields_expressionAt` — whatever is read is a phrase.
-/

namespace LoxLang

/-! ## First tokens -/

/-- Whether an expression may begin with a token of a kind. -/
def Token.Kind.startsExpression : Token.Kind → Bool
  | .bang | .minus | .falseWord | .trueWord | .nilWord | .number | .string | .identifier
  | .leftParen => true
  | _ => false

/-- The operators in front of an operand are two. -/
lemma Token.Kind.eq_of_isUnary {kind : Token.Kind} (h : kind.isUnary = true) :
    kind = .bang ∨ kind = .minus := by
  cases kind <;> simp_all [isUnary]

/-- The operators in front of an operand may begin an expression. -/
lemma Token.Kind.startsExpression_of_isUnary {k : Token.Kind} (h : k.isUnary = true) :
    k.startsExpression = true := by
  cases k <;> simp_all [isUnary, startsExpression]

/-- Whether a phrase of a symbol may begin with a token of a kind. Calls have no operator in front. -/
def ExprSymbol.startsWith : ExprSymbol → Token.Kind → Bool
  | primary, kind | call, kind => kind.startsExpression && !kind.isUnary
  | _, kind => kind.startsExpression

/-- What a phrase begins with, an expression may begin with. -/
lemma ExprSymbol.startsExpression_of_startsWith {s : ExprSymbol} {k : Token.Kind}
    (h : s.startsWith k = true) : k.startsExpression = true := by
  cases s <;> simp_all [startsWith]

/-- Every phrase begins with a token that phrases of its symbol may begin with. -/
lemma ExprPhrase.exists_tokens_eq_cons {s : ExprSymbol} (p : ExprPhrase s) :
    ∃ t ts, p.tokens = t :: ts ∧ s.startsWith t.kind = true := by
  induction p with
  | literal token value h =>
    refine ⟨token, [], rfl, ?_⟩
    unfold Token.constant? Token.literal? at h
    cases hk : token.kind <;>
      simp_all [ExprSymbol.startsWith, Token.Kind.startsExpression, Token.Kind.isUnary]
  | named name => exact ⟨name.1, [], rfl, by rw [name.2]; rfl⟩
  | grouping opening inner closing => exact ⟨opening.1, _, rfl, by rw [opening.2]; rfl⟩
  | unary operator h operand =>
    exact ⟨operator, _, rfl, Token.Kind.startsExpression_of_isUnary h⟩
  | ofPrimary p ih | ofUnary p ih | looser _ _ p ih | plain p ih | single p ih => exact ih
  | ofCall p ih =>
    obtain ⟨t, ts, h, ht⟩ := ih
    exact ⟨t, ts, h, ExprSymbol.startsExpression_of_startsWith ht⟩
  | callEmpty p _ _ ih | call p _ _ _ ih _ | further p _ _ ih _ | join _ _ p _ _ _ ih _
  | assign p _ _ ih _ =>
    obtain ⟨t, ts, h, ht⟩ := ih
    exact ⟨t, ts ++ _, congrArg (· ++ _) h, ht⟩

/-- The first token of a phrase, whatever follows it, is one that an expression may begin with. -/
lemma ExprPhrase.startsExpression_head {s : ExprSymbol} (p : ExprPhrase s) (rest : List Token) :
    ∀ t ∈ (p.tokens ++ rest).head?, t.kind.startsExpression = true := by
  obtain ⟨u, us, h, hu⟩ := p.exists_tokens_eq_cons
  simp only [h, List.cons_append, List.head?_cons, Option.mem_def, Option.some.injEq, forall_eq']
  exact ExprSymbol.startsExpression_of_startsWith hu

/-! ## What goes on with a phrase -/

/-- Whether a token of a kind behind a phrase of a symbol would be taken as part of it. -/
def ExprSymbol.goesOnWith : ExprSymbol → Token.Kind → Bool
  | primary, _ => false
  | call, kind | unary, kind => kind == .leftParen
  | operation levels, kind => kind == .leftParen || levels.any (·.holds kind)
  | expression, kind => kind == .leftParen || Level.ordered.any (·.holds kind) || kind == .equal
  | arguments, kind =>
    kind == .leftParen || Level.ordered.any (·.holds kind) || kind == .equal || kind == Token.Kind.comma

/-- No token of what follows would go on with a phrase of a symbol. -/
def ExprSymbol.StopsAt (s : ExprSymbol) (rest : List Token) : Prop :=
  ∀ t ∈ rest.head?, s.goesOnWith t.kind = false

@[simp] lemma ExprSymbol.stopsAt_cons (s : ExprSymbol) (t : Token) (rest : List Token) :
    s.StopsAt (t :: rest) ↔ s.goesOnWith t.kind = false := by
  simp [StopsAt]

/-- What stops an expression stops the operation it may be. -/
lemma ExprSymbol.StopsAt.operation {rest : List Token} (h : ExprSymbol.StopsAt .expression rest) :
    ExprSymbol.StopsAt (.operation Level.ordered) rest := by
  intro t ht
  have := h t ht
  simp only [goesOnWith, Bool.or_eq_false_iff] at this ⊢
  exact this.1

/-- What stops an expression is no equals sign. -/
lemma ExprSymbol.StopsAt.ne_equal {rest : List Token} (h : ExprSymbol.StopsAt .expression rest) :
    ∀ t ∈ rest.head?, (t.kind == Token.Kind.equal) = false := by
  intro t ht
  have := h t ht
  simp only [goesOnWith, Bool.or_eq_false_iff] at this
  exact this.2

/-! ## Every phrase is read -/

open LoxLang.Parser LoxLang.Grammar

/-- One more operand after an operator of a level. -/
def Grammar.chainStep (level : Level) (operand : Parser Expr) (left : Expr) (operator : Token) :
    Parser Expr := do
  let right ← operand
  return level.node left operator right

/-- The parser of a symbol reads a phrase of it, and a phrase that ends in a loop brings that loop
to where it stands behind the phrase. -/
def ExprPhrase.IsRead (n : Nat) : {s : ExprSymbol} → ExprPhrase s → Prop
  | .primary, p => ∀ b rest,
    (Grammar.primary (expressionAt n)).run b (p.tokens ++ rest) = .ok p.tree rest p.faults
  | .call, p => ∀ b rest,
    (Grammar.call (expressionAt n)).run b (p.tokens ++ rest) =
      ((folding (· == Token.Kind.leftParen) (fun callee _ => finishCall (expressionAt n) callee) p.tree).run b
        rest).after p.faults
  | .arguments, p => ∀ b rest, ExprSymbol.StopsAt .expression rest →
    (listed (expressionAt n) .tooManyArguments).run b (p.tokens ++ rest) =
      ((do
        let items ← folding (· == Token.Kind.comma) (listedStep (expressionAt n) .tooManyArguments)
          (List.toArray p.tree)
        return items.toList).run b rest).after p.faults
  | .unary, p => ∀ b rest, ExprSymbol.StopsAt .unary rest →
    (unaryAt n).run b (p.tokens ++ rest) = .ok p.tree rest p.faults
  | .operation [], p => ∀ b rest, ExprSymbol.StopsAt (.operation []) rest →
    (unaryAt n).run b (p.tokens ++ rest) = .ok p.tree rest p.faults
  | .operation (level :: levels), p => (level :: levels).Nodup →
    ∀ b rest, ExprSymbol.StopsAt (.operation levels) rest →
    (chain level (levels.foldr chain (unaryAt n))).run b (p.tokens ++ rest) =
      ((folding level.holds (chainStep level (levels.foldr chain (unaryAt n))) p.tree).run b
        rest).after p.faults
  | .expression, p => ∀ b rest, ExprSymbol.StopsAt .expression rest →
    (expressionAt n).run b (p.tokens ++ rest) = .ok p.tree rest p.faults

namespace ExprPhrase

variable {n : Nat}

/-- An operation that is read stops where its loop does. -/
lemma IsRead.run_operation {levels : List Level} {p : ExprPhrase (.operation levels)}
    (h : p.IsRead n) (hl : levels.Nodup) (b : Bool) {rest : List Token}
    (hr : ExprSymbol.StopsAt (.operation levels) rest) :
    (levels.foldr chain (unaryAt n)).run b (p.tokens ++ rest) = .ok p.tree rest p.faults := by
  cases levels with
  | nil => exact h b rest hr
  | cons level levels =>
    have hstop : ∀ t ∈ rest.head?, level.holds t.kind = false := by
      intro t ht
      have := hr t ht
      simp only [ExprSymbol.goesOnWith, List.any_cons, Bool.or_eq_false_iff] at this
      exact this.2.1
    have htight : ExprSymbol.StopsAt (.operation levels) rest := by
      intro t ht
      have := hr t ht
      simp only [ExprSymbol.goesOnWith, List.any_cons, Bool.or_eq_false_iff] at this ⊢
      exact ⟨this.1, this.2.2⟩
    rw [List.foldr_cons, h hl b rest htight, run_folding_of_stop _ hstop]
    simp

/-- Arguments that are read stop in front of what is no comma. -/
lemma IsRead.run_arguments {p : ExprPhrase .arguments} (h : p.IsRead n) (b : Bool)
    {rest : List Token} (hr : ExprSymbol.StopsAt .arguments rest) :
    (listed (expressionAt n) .tooManyArguments).run b (p.tokens ++ rest) =
      .ok p.tree rest p.faults := by
  have he : ExprSymbol.StopsAt .expression rest := by
    intro t ht
    have := hr t ht
    simp only [ExprSymbol.goesOnWith, Bool.or_eq_false_iff] at this ⊢
    exact this.1
  have hstop : ∀ t ∈ rest.head?, (t.kind == Token.Kind.comma) = false := by
    intro t ht
    have := hr t ht
    simp only [ExprSymbol.goesOnWith, Bool.or_eq_false_iff] at this
    exact this.2
  rw [h b rest he, run_bind_of_ok (run_folding_of_stop _ hstop)]
  simp

/-! ### The productions -/

section Productions

variable {e : Parser Expr} {b : Bool} {rest : List Token}

/-- A literal is read by its token. -/
lemma run_primary_of_constant? {t : Token} {value : Literal} (h : t.constant? = some value) :
    (primary e).run b (t :: rest) = .ok (.literal value) rest [] := by
  unfold Token.constant? Token.literal? at h
  cases hk : t.kind <;> simp_all [primary, Parser.select]

/-- A name is read by its token. -/
lemma run_primary_named (name : Terminal .identifier) :
    (primary e).run b (name.1 :: rest) = .ok (.variable name.1) rest [] := by
  simp [primary, Parser.select, name.2]

/-- An expression in parentheses is read if the expression is. -/
lemma run_primary_grouping (opening : Terminal .leftParen) (closing : Terminal .rightParen)
    {ts : List Token} {v : Expr} {faults : List SyntaxFault}
    (h : e.run b (ts ++ closing.1 :: rest) = .ok v (closing.1 :: rest) faults) :
    (primary e).run b (opening.1 :: (ts ++ closing.1 :: rest)) =
      .ok (.grouping v) rest faults := by
  simp only [primary, Parser.select, opening.2]
  rw [run_bind_of_ok h, run_bind_of_ok (run_expect_cons _ _ _ _)]
  simp

/-- A call without arguments is finished by its second parenthesis. -/
lemma run_finishCall_empty (callee : Expr) (closing : Terminal .rightParen) :
    (finishCall e callee).run b (closing.1 :: rest) = .ok (.call callee closing.1 []) rest [] := by
  rw [finishCall, run_bind_of_ok (run_unlessNext_stop _ _ _ _),
    run_bind_of_ok (run_expect_cons _ _ _ _)]
  simp

/-- A call is finished by its arguments and its second parenthesis. -/
lemma run_finishCall (callee : Expr) (closing : Terminal .rightParen) {ts : List Token}
    {vs : List Expr} {faults : List SyntaxFault}
    (hne : ∀ t ∈ ts.head?, t.kind ≠ .rightParen)
    (h : (listed e .tooManyArguments).run b ts = .ok vs (closing.1 :: rest) faults) :
    (finishCall e callee).run b ts = .ok (.call callee closing.1 vs) rest faults := by
  rw [finishCall, run_bind_of_ok (run_unlessNext_of_ok hne h),
    run_bind_of_ok (run_expect_cons _ _ _ _)]
  simp

/-- One more item is read if the item is. -/
lemma run_listedStep_of_ok (surplus : SyntaxFault.Cause) (items : Array Expr) (t : Token)
    {ts : List Token} {v : Expr} {faults : List SyntaxFault} (h : e.run b ts = .ok v rest faults) :
    (listedStep e surplus items t).run b ts =
      .ok (items.push v) rest (surplusFault surplus items.size ts.head? ++ faults) := by
  rw [run_listedStep, run_bind_of_ok h]
  simp

/-- One more operand is read if the operand is. -/
lemma run_chainStep_of_ok {level : Level} {left : Expr} {operator : Token} {ts : List Token}
    {v : Expr} {faults : List SyntaxFault} (h : e.run b ts = .ok v rest faults) :
    (chainStep level e left operator).run b ts = .ok (level.node left operator v) rest faults := by
  rw [chainStep, run_bind_of_ok h]
  simp

/-- What stands in front of no equals sign is no target. -/
lemma run_assignment_plain {u : Parser Expr} {ts : List Token} {v : Expr}
    {faults : List SyntaxFault} (hne : ∀ t ∈ rest.head?, (t.kind == Token.Kind.equal) = false)
    (h : u.run b ts = .ok v rest faults) :
    (assignment u e).run b ts = .ok v rest faults := by
  have haccept : (accept .equal).run b rest = .ok none rest [] := by
    cases rest with
    | nil => rfl
    | cons t ts => simp [accept, run_acceptIf_cons, hne t (by simp)]
  rw [assignment, run_bind_of_ok h, run_bind_of_ok haccept]
  simp

end Productions

/-- The target of an assignment that is a bare name makes an assignment; any other is kept, with a
fault behind the right side. -/
lemma run_assignment_assign {u e : Parser Expr} {b : Bool} {ts us rest : List Token} {v w : Expr}
    {fs gs : List SyntaxFault} (equals : Terminal .equal)
    (hu : u.run b ts = .ok v (equals.1 :: us) fs) (he : e.run b us = .ok w rest gs) :
    (assignment u e).run b ts =
      .ok (v.assigned w) rest (fs ++ (gs ++ targetFaults equals.1 v)) := by
  have haccept : (accept .equal).run b (equals.1 :: us) = .ok (some equals.1) us [] := by
    simp [accept, run_acceptIf_cons, equals.2]
  rw [assignment, run_bind_of_ok hu, run_bind_of_ok haccept]
  simp only [run_bind_of_ok he]
  cases v
  case «variable» name => simp [Expr.assigned, targetFaults]
  all_goals
    simp only [run_bind_of_ok (run_noteAt _ _ _ _)]
    simp [Expr.assigned, targetFaults]

/-- An operator of a level is one of no other level. -/
lemma eq_of_holds {level level' : Level} {kind : Token.Kind} (h : level.holds kind = true)
    (h' : level'.holds kind = true) : level' = level := by
  simp only [Level.holds, beq_iff_eq] at h h'
  rw [h] at h'
  exact (Option.some.inj h').symm

/-- An operator is no parenthesis. -/
lemma ne_leftParen_of_holds {level : Level} {kind : Token.Kind} (h : level.holds kind = true) :
    (kind == Token.Kind.leftParen) = false := by
  cases kind <;> simp_all [Level.holds, Level.of?]

/-- An operator of a looser level does not go on with an operation. -/
lemma stopsAt_operation_of_holds {level : Level} {levels : List Level} {operator : Token}
    (hl : (level :: levels).Nodup) (h : level.holds operator.kind = true) (rest : List Token) :
    ExprSymbol.StopsAt (.operation levels) (operator :: rest) := by
  rw [ExprSymbol.stopsAt_cons]
  simp only [ExprSymbol.goesOnWith, ne_leftParen_of_holds h, Bool.false_or, List.any_eq_false]
  intro other hmem hother
  rw [eq_of_holds h hother] at hmem
  exact (List.nodup_cons.1 hl).1 hmem

/-- **Every phrase is read**: with as much depth as a phrase nests, the parser of its symbol reads
it as its tree, notes its faults, and stops behind it.

**Proof sketch.** Induction on the phrase, with one production of the grammar in each case. A phrase
that ends in a loop has brought that loop behind its shorter part; the next token enters the loop
once more. -/
theorem isRead {s : ExprSymbol} (p : ExprPhrase s) {n : Nat} (hn : p.height ≤ n) : p.IsRead n := by
  induction p generalizing n with
  | literal token value h => exact fun b rest => run_primary_of_constant? h
  | named name => exact fun b rest => run_primary_named name
  | grouping opening inner closing ih =>
    intro b rest
    have hstop : ExprSymbol.StopsAt .expression (closing.1 :: rest) := by
      rw [ExprSymbol.stopsAt_cons, closing.2]
      decide
    have hi := ih hn b _ hstop
    simpa [tokens, tree, faults] using run_primary_grouping opening closing hi
  | ofPrimary p ih =>
    intro b rest
    rw [tokens, Grammar.call, run_bind_of_ok (ih hn b rest)]
    rfl
  | callEmpty callee opening closing ih =>
    intro b rest
    have hc := ih hn b (opening.1 :: closing.1 :: rest)
    rw [run_folding_cons, if_pos (by simp [opening.2]),
      run_bind_of_ok (run_finishCall_empty _ closing)] at hc
    simpa [tokens, tree, faults] using hc
  | call callee opening arguments closing ihc iha =>
    intro b rest
    have hh : callee.height ≤ n ∧ arguments.height ≤ n := Nat.max_le.1 hn
    have hc := ihc hh.1 b (opening.1 :: (arguments.tokens ++ closing.1 :: rest))
    have hstop : ExprSymbol.StopsAt .arguments (closing.1 :: rest) := by
      rw [ExprSymbol.stopsAt_cons, closing.2]
      decide
    have ha := (iha hh.2).run_arguments b hstop
    have hne : ∀ t ∈ (arguments.tokens ++ closing.1 :: rest).head?, t.kind ≠ .rightParen := by
      intro t ht hk
      have := arguments.startsExpression_head _ t ht
      rw [hk] at this
      simp [Token.Kind.startsExpression] at this
    rw [run_folding_cons, if_pos (by simp [opening.2]),
      run_bind_of_ok (run_finishCall _ closing hne ha)] at hc
    simpa [tokens, tree, faults] using hc
  | single e ih =>
    intro b rest hr
    rw [tokens, listed_eq, run_bind_of_ok (ih hn b rest hr)]
    rfl
  | further init comma next ihi ihn =>
    intro b rest hr
    have hh : init.height ≤ n ∧ next.height ≤ n := Nat.max_le.1 hn
    have hstop : ExprSymbol.StopsAt .expression (comma.1 :: (next.tokens ++ rest)) := by
      rw [ExprSymbol.stopsAt_cons, comma.2]
      decide
    have hi := ihi hh.1 b _ hstop
    have hnext := run_listedStep_of_ok .tooManyArguments (List.toArray init.tree) comma.1
      (ihn hh.2 b rest hr)
    have hloop : (folding (· == Token.Kind.comma) (listedStep (expressionAt n) .tooManyArguments)
        (List.toArray init.tree)).run b (comma.1 :: (next.tokens ++ rest)) =
          ((folding (· == Token.Kind.comma) (listedStep (expressionAt n) .tooManyArguments)
            (List.toArray (init.tree ++ [next.tree]))).run b rest).after
              (surplusFault .tooManyArguments init.tree.length next.tokens.head? ++
                next.faults) := by
      obtain ⟨t, ts, ht, -⟩ := next.exists_tokens_eq_cons
      rw [run_folding_cons, if_pos (by simp [comma.2]), run_bind_of_ok hnext]
      simp [ht]
    rw [run_bind_of_after hloop] at hi
    simpa [tokens, tree, faults] using hi
  | unary operator h operand ih =>
    intro b rest hr
    obtain ⟨m, rfl⟩ : ∃ m, n = m + 1 := ⟨n - 1, by simp [height] at hn; omega⟩
    have ho := ih (Nat.le_of_succ_le_succ hn) b rest hr
    have haccept : (acceptIf Token.Kind.isUnary).run b (operator :: (operand.tokens ++ rest)) =
        .ok (some operator) (operand.tokens ++ rest) [] := by
      rw [run_acceptIf_cons, if_pos h]
    rw [unaryAt, delay_eq, Grammar.unary, tokens, List.cons_append, run_bind_of_ok haccept,
      run_bind_of_ok ho]
    simp [tree, faults]
  | ofCall c ih =>
    intro b rest hr
    obtain ⟨m, rfl⟩ : ∃ m, n = m + 1 := ⟨n - 1, by simp [height] at hn; omega⟩
    have hc := ih (Nat.le_of_succ_le_succ hn) b rest
    have hstop : ∀ t ∈ rest.head?, (t.kind == Token.Kind.leftParen) = false := hr
    rw [run_folding_of_stop _ hstop] at hc
    obtain ⟨t, ts, ht, hs⟩ := c.exists_tokens_eq_cons
    have hu : t.kind.isUnary = false := by
      simp only [ExprSymbol.startsWith, Bool.and_eq_true, Bool.not_eq_true'] at hs
      exact hs.2
    have haccept : (acceptIf Token.Kind.isUnary).run b (c.tokens ++ rest) =
        .ok none (c.tokens ++ rest) [] := by
      rw [ht, List.cons_append, run_acceptIf_cons, hu]
      rfl
    rw [unaryAt, delay_eq, Grammar.unary, tokens, run_bind_of_ok haccept]
    simpa [tree, faults] using hc
  | ofUnary u ih =>
    intro b rest hr
    refine ih hn b rest fun t ht => ?_
    simpa [ExprSymbol.goesOnWith] using hr t ht
  | looser level levels p ih =>
    intro hl b rest hr
    rw [tokens, chain, run_bind_of_ok ((ih hn).run_operation (List.nodup_cons.1 hl).2 b hr)]
    rfl
  | join level levels left operator h right ihl ihr =>
    intro hl b rest hr
    have hh : left.height ≤ n ∧ right.height ≤ n := Nat.max_le.1 hn
    have hleft := ihl hh.1 hl b (operator :: (right.tokens ++ rest))
      (stopsAt_operation_of_holds hl h _)
    have hright := (ihr hh.2).run_operation (List.nodup_cons.1 hl).2 b hr
    rw [run_folding_cons, if_pos h, run_bind_of_ok (run_chainStep_of_ok hright)] at hleft
    simpa [tokens, tree, faults] using hleft
  | plain p ih =>
    intro b rest hr
    obtain ⟨m, rfl⟩ : ∃ m, n = m + 1 := ⟨n - 1, by simp [height] at hn; omega⟩
    have hop := (ih (Nat.le_of_succ_le_succ hn)).run_operation (by decide) b hr.operation
    rw [expressionAt, delay_eq]
    exact run_assignment_plain hr.ne_equal hop
  | assign target equals value iht ihv =>
    intro b rest hr
    obtain ⟨m, rfl⟩ : ∃ m, n = m + 1 := ⟨n - 1, by simp [height] at hn; omega⟩
    have hh : target.height ≤ m ∧ value.height ≤ m :=
      Nat.max_le.1 (Nat.le_of_succ_le_succ hn)
    have hstop : ExprSymbol.StopsAt (.operation Level.ordered)
        (equals.1 :: (value.tokens ++ rest)) := by
      rw [ExprSymbol.stopsAt_cons, equals.2]
      decide
    have htarget := (iht hh.1).run_operation (by decide) b hstop
    have hassign := run_assignment_assign equals htarget (ihv hh.2 b rest hr)
    rw [expressionAt, delay_eq, tokens, List.append_assoc]
    exact hassign

end ExprPhrase

/-! ## Only phrases are read -/

/-- Whatever a parser reads is a phrase of a symbol that nests at most so deep. -/
def Parser.Yields (s : ExprSymbol) (n : Nat) (p : Parser s.Tree) : Prop :=
  ∀ b ts v rest faults, p.run b ts = .ok v rest faults →
    ∃ q : ExprPhrase s, ts = q.tokens ++ rest ∧ q.tree = v ∧ q.faults = faults ∧ q.height ≤ n

namespace Grammar

variable {e u : Parser Expr} {n : Nat}

/-- What may be read as a primary expression: a literal, a name, or an expression in parentheses. -/
lemma run_primary_eq_ok {b : Bool} {ts rest : List Token} {v : Expr} {faults : List SyntaxFault}
    (h : (primary e).run b ts = .ok v rest faults) :
    (∃ t value, ts = t :: rest ∧ t.constant? = some value ∧ v = .literal value ∧ faults = []) ∨
    (∃ name : Terminal .identifier, ts = name.1 :: rest ∧ v = .variable name.1 ∧ faults = []) ∨
    (∃ (opening : Terminal .leftParen) (closing : Terminal .rightParen) (us : List Token)
      (inner : Expr), ts = opening.1 :: us ∧ e.run b us = .ok inner (closing.1 :: rest) faults ∧
        v = .grouping inner) := by
  cases ts with
  | nil => simp [primary, Parser.select, fail] at h
  | cons t us =>
    cases hk : t.kind
    case leftParen =>
      simp only [primary, Parser.select, hk] at h
      obtain ⟨inner, mid, fs, gs, hi, hclose, rfl⟩ := run_bind_eq_ok.1 h
      obtain ⟨closing, left, fs', gs', hc, hpure, rfl⟩ := run_bind_eq_ok.1 hclose
      obtain ⟨rfl, hk', rfl⟩ := run_expect_eq_ok.1 hc
      obtain ⟨rfl, rfl, rfl⟩ : inner.grouping = v ∧ left = rest ∧ [] = gs' := by
        simpa using hpure
      exact .inr (.inr ⟨⟨t, hk⟩, ⟨closing, hk'⟩, us, inner, rfl, by simpa using hi, rfl⟩)
    case identifier =>
      obtain ⟨rfl, rfl, rfl⟩ : Expr.variable t = v ∧ us = rest ∧ [] = faults := by
        simpa [primary, Parser.select, hk] using h
      exact .inr (.inl ⟨⟨t, hk⟩, rfl, rfl, rfl⟩)
    case falseWord | trueWord | nilWord | number | string =>
      simp only [primary, Parser.select, hk, run_pure, Reply.ok.injEq] at h
      obtain ⟨rfl, rfl, rfl⟩ := h
      exact .inl ⟨t, _, rfl, by simp only [Token.constant?, Token.literal?, hk], rfl, rfl⟩
    all_goals simp [primary, Parser.select, hk, fail] at h

/-- A primary expression that is read is a phrase. -/
lemma yields_primary (he : Parser.Yields .expression n e) :
    Parser.Yields .primary n (primary e) := by
  intro b ts v rest faults h
  rcases run_primary_eq_ok h with ⟨t, value, rfl, hc, rfl, rfl⟩ | ⟨name, rfl, rfl, rfl⟩ |
    ⟨opening, closing, us, inner, rfl, hi, rfl⟩
  · exact ⟨.literal t value hc, rfl, rfl, rfl, Nat.zero_le n⟩
  · exact ⟨.named name, rfl, rfl, rfl, Nat.zero_le n⟩
  · obtain ⟨q, rfl, rfl, rfl, hq⟩ := he b us inner _ faults hi
    exact ⟨.grouping opening q closing, by simp [ExprPhrase.tokens], rfl, rfl, hq⟩

/-- Items between commas that are read are a phrase. -/
lemma yields_listed (he : Parser.Yields .expression n e) :
    Parser.Yields .arguments n (listed e .tooManyArguments) := by
  intro b ts v rest faults h
  rw [listed_eq] at h
  obtain ⟨head, mid, fs, gs, hhead, hloop, rfl⟩ := run_bind_eq_ok.1 h
  obtain ⟨items, left, fs', gs', hitems, hpure, rfl⟩ := run_bind_eq_ok.1 hloop
  obtain ⟨rfl, rfl, rfl⟩ : items.toList = v ∧ left = rest ∧ [] = gs' := by simpa using hpure
  obtain ⟨q, rfl, rfl, rfl, hq⟩ := he b ts head mid fs hhead
  -- the items so far are the trees of a phrase that made the tokens and faults so far
  obtain ⟨new, rfl, p, ht, hv, hf, hh⟩ := invariant_of_run_folding
    (fun (items : Array Expr) taken noted => ∃ p : ExprPhrase .arguments,
      p.tokens = taken ∧ p.tree = items.toList ∧ p.faults = noted ∧ p.height ≤ n)
    (fun items taken noted t us items' left more hI ht hr => by
      obtain ⟨p, rfl, hp, rfl, hh⟩ := hI
      have hk : t.kind = .comma := by simpa using ht
      rw [run_listedStep] at hr
      obtain ⟨more, hitem, rfl⟩ := Reply.after_eq_ok.1 hr
      obtain ⟨next, mid, fs, gs, hnext, hpure, rfl⟩ := run_bind_eq_ok.1 hitem
      obtain ⟨rfl, rfl, rfl⟩ : items.push next = items' ∧ mid = left ∧ [] = gs := by
        simpa using hpure
      obtain ⟨q, rfl, rfl, rfl, hq⟩ := he b us next mid fs hnext
      refine ⟨q.tokens, rfl, .further p ⟨t, hk⟩ q, rfl, ?_, ?_, Nat.max_le.2 ⟨hh, hq⟩⟩
      · simp [ExprPhrase.tree, hp]
      · obtain ⟨u, us, hu, -⟩ := q.exists_tokens_eq_cons
        simp [ExprPhrase.faults, hp, hu])
    ⟨.single q, rfl, rfl, rfl, hq⟩ hitems
  exact ⟨p, by simp [ht, ExprPhrase.tokens], hv, by simp [hf, ExprPhrase.faults], hh⟩

/-- The end of a call is its arguments and its second parenthesis. -/
lemma run_finishCall_eq_ok (he : Parser.Yields .expression n e) {callee : Expr} {b : Bool}
    {ts rest : List Token} {v : Expr} {faults : List SyntaxFault}
    (h : (finishCall e callee).run b ts = .ok v rest faults) :
    ∃ closing : Terminal .rightParen,
      (ts = closing.1 :: rest ∧ v = .call callee closing.1 [] ∧ faults = []) ∨
      ∃ arguments : ExprPhrase .arguments, ts = arguments.tokens ++ closing.1 :: rest ∧
        v = .call callee closing.1 arguments.tree ∧ faults = arguments.faults ∧
        arguments.height ≤ n := by
  obtain ⟨arguments, mid, fs, gs, ha, hclose, rfl⟩ := run_bind_eq_ok.1 h
  obtain ⟨closing, left, fs', gs', hc, hpure, rfl⟩ := run_bind_eq_ok.1 hclose
  obtain ⟨rfl, hk, rfl⟩ := run_expect_eq_ok.1 hc
  obtain ⟨rfl, rfl, rfl⟩ :
      Expr.call callee closing (arguments.getD []) = v ∧ left = rest ∧ [] = gs' := by
    simpa using hpure
  refine ⟨⟨closing, hk⟩, ?_⟩
  rcases run_unlessNext_eq_ok ha with ⟨rfl, rfl, rfl⟩ | ⟨vs, rfl, hvs⟩
  · exact .inl ⟨rfl, rfl, rfl⟩
  · obtain ⟨q, rfl, rfl, rfl, hq⟩ := yields_listed he b ts vs _ fs hvs
    exact .inr ⟨q, rfl, rfl, by simp, hq⟩

/-- A call that is read is a phrase. -/
lemma yields_call (he : Parser.Yields .expression n e) : Parser.Yields .call n (call e) := by
  intro b ts v rest faults h
  obtain ⟨callee, mid, fs, gs, hcallee, hloop, rfl⟩ := run_bind_eq_ok.1 h
  obtain ⟨q, rfl, rfl, rfl, hq⟩ := yields_primary he b ts callee mid fs hcallee
  obtain ⟨new, rfl, p, ht, hv, hf, hh⟩ := invariant_of_run_folding
    (fun (callee : Expr) taken noted => ∃ p : ExprPhrase .call,
      p.tokens = taken ∧ p.tree = callee ∧ p.faults = noted ∧ p.height ≤ n)
    (fun callee taken noted t us callee' left more hI ht hr => by
      obtain ⟨p, rfl, rfl, rfl, hh⟩ := hI
      have ht : t.kind = .leftParen := by simpa using ht
      obtain ⟨closing, ⟨rfl, rfl, rfl⟩ | ⟨arguments, rfl, rfl, rfl, ha⟩⟩ :=
        run_finishCall_eq_ok he hr
      · exact ⟨[closing.1], rfl, .callEmpty p ⟨t, ht⟩ closing, rfl, rfl, by
          simp [ExprPhrase.faults], hh⟩
      · exact ⟨arguments.tokens ++ [closing.1], by simp, .call p ⟨t, ht⟩ arguments closing, rfl,
          rfl, rfl, Nat.max_le.2 ⟨hh, ha⟩⟩)
    ⟨.ofPrimary q, rfl, rfl, rfl, hq⟩ hloop
  exact ⟨p, by simp [ht, ExprPhrase.tokens], hv, by simp [hf, ExprPhrase.faults], hh⟩

/-- Operators of one level with operands between them that are read are a phrase. -/
lemma yields_chain {level : Level} {levels : List Level}
    (hu : Parser.Yields (.operation levels) n u) :
    Parser.Yields (.operation (level :: levels)) n (chain level u) := by
  intro b ts v rest faults h
  obtain ⟨left, mid, fs, gs, hleft, hloop, rfl⟩ := run_bind_eq_ok.1 h
  obtain ⟨q, rfl, rfl, rfl, hq⟩ := hu b ts left mid fs hleft
  obtain ⟨new, rfl, p, ht, hv, hf, hh⟩ := invariant_of_run_folding
    (fun (left : Expr) taken noted => ∃ p : ExprPhrase (.operation (level :: levels)),
      p.tokens = taken ∧ p.tree = left ∧ p.faults = noted ∧ p.height ≤ n)
    (fun left taken noted t us left' rest' more hI ht hr => by
      obtain ⟨p, rfl, rfl, rfl, hh⟩ := hI
      obtain ⟨right, mid, fs, gs, hright, hpure, rfl⟩ := run_bind_eq_ok.1 hr
      obtain ⟨rfl, rfl, rfl⟩ : level.node p.tree t right = left' ∧ mid = rest' ∧ [] = gs := by
        simpa using hpure
      obtain ⟨q, rfl, rfl, rfl, hq⟩ := hu b us right mid fs hright
      exact ⟨q.tokens, rfl, .join level levels p t ht q, rfl, rfl, by simp [ExprPhrase.faults],
        Nat.max_le.2 ⟨hh, hq⟩⟩)
    ⟨.looser level levels q, rfl, rfl, rfl, hq⟩ hloop
  exact ⟨p, by simp [ht, ExprPhrase.tokens], hv, by simp [hf, ExprPhrase.faults], hh⟩

/-- An operation that is read is a phrase. -/
lemma yields_operation (hu : Parser.Yields .unary n u) :
    Parser.Yields (.operation Level.ordered) n (operation u) := by
  unfold operation
  induction Level.ordered with
  | nil =>
    intro b ts v rest faults h
    obtain ⟨q, rfl, rfl, rfl, hq⟩ := hu b ts v rest faults h
    exact ⟨.ofUnary q, rfl, rfl, rfl, hq⟩
  | cons level levels ih => exact yields_chain ih

/-- What may be read as an assignment: its left side, or all of it. -/
lemma run_assignment_eq_ok {b : Bool} {ts rest : List Token} {v : Expr}
    {faults : List SyntaxFault} (h : (assignment u e).run b ts = .ok v rest faults) :
    u.run b ts = .ok v rest faults ∨
      ∃ (target value : Expr) (equals : Terminal .equal) (us : List Token)
        (fs gs : List SyntaxFault), u.run b ts = .ok target (equals.1 :: us) fs ∧
          e.run b us = .ok value rest gs ∧ v = target.assigned value ∧
          faults = fs ++ (gs ++ targetFaults equals.1 target) := by
  obtain ⟨target, mid, fs, gs, ht, hrest, rfl⟩ := run_bind_eq_ok.1 h
  obtain ⟨equals?, left, fs', gs', ha, hassign, rfl⟩ := run_bind_eq_ok.1 hrest
  obtain ⟨rfl, ⟨rfl, rfl, -⟩ | ⟨equals, rfl, rfl, hk⟩⟩ := run_acceptIf_eq_ok ha
  · obtain ⟨rfl, rfl, rfl⟩ : target = v ∧ mid = rest ∧ [] = gs' := by simpa using hassign
    exact .inl (by simpa using ht)
  · obtain ⟨value, right, hs, ks, hv, hnode, rfl⟩ := run_bind_eq_ok.1 hassign
    refine .inr ⟨target, value, ⟨equals, by simpa using hk⟩, left, fs, hs, ht, ?_⟩
    cases target
    case «variable» name =>
      obtain ⟨rfl, rfl, rfl⟩ : Expr.assign name value = v ∧ right = rest ∧ [] = ks := by
        simpa using hnode
      exact ⟨hv, rfl, by simp [targetFaults]⟩
    all_goals
      simp only [run_bind_of_ok (run_noteAt _ _ _ _), run_pure, Reply.after_ok,
        Reply.ok.injEq] at hnode
      obtain ⟨rfl, rfl, rfl⟩ := hnode
      exact ⟨hv, rfl, by simp [targetFaults]⟩

/-- An expression that is read is a phrase. -/
lemma yields_assignment (hu : Parser.Yields (.operation Level.ordered) n u)
    (he : Parser.Yields .expression n e) :
    Parser.Yields .expression (n + 1) (assignment u e) := by
  intro b ts v rest faults h
  rcases run_assignment_eq_ok h with h | ⟨target, value, equals, us, fs, gs, ht, hv, rfl, rfl⟩
  · obtain ⟨q, rfl, rfl, rfl, hq⟩ := hu b ts v rest faults h
    exact ⟨.plain q, rfl, rfl, rfl, Nat.succ_le_succ hq⟩
  · obtain ⟨p, rfl, rfl, rfl, hp⟩ := hu b ts target _ fs ht
    obtain ⟨q, rfl, rfl, rfl, hq⟩ := he b us value _ gs hv
    exact ⟨.assign p equals q, by simp [ExprPhrase.tokens], rfl, rfl,
      Nat.succ_le_succ (Nat.max_le.2 ⟨hp, hq⟩)⟩

/-- A unary expression that is read is a phrase. -/
lemma yields_unary (hu : Parser.Yields .unary n u) (he : Parser.Yields .expression n e) :
    Parser.Yields .unary (n + 1) (unary u e) := by
  intro b ts v rest faults h
  obtain ⟨operator?, mid, fs, gs, ha, hrest, rfl⟩ := run_bind_eq_ok.1 h
  obtain ⟨rfl, ⟨rfl, rfl, -⟩ | ⟨operator, rfl, rfl, hk⟩⟩ := run_acceptIf_eq_ok ha
  · obtain ⟨q, rfl, rfl, rfl, hq⟩ := yields_call he b ts v rest gs hrest
    exact ⟨.ofCall q, rfl, rfl, rfl, Nat.succ_le_succ hq⟩
  · obtain ⟨inner, left, fs', gs', hi, hpure, rfl⟩ := run_bind_eq_ok.1 hrest
    obtain ⟨rfl, rfl, rfl⟩ : Expr.unary operator inner = v ∧ left = rest ∧ [] = gs' := by
      simpa using hpure
    obtain ⟨q, rfl, rfl, rfl, hq⟩ := hu b mid inner left fs' hi
    exact ⟨.unary operator hk q, rfl, rfl, by simp [ExprPhrase.faults], Nat.succ_le_succ hq⟩

/-- **Whatever is read is a phrase**, which nests no deeper than the depth that was allowed. -/
theorem yields_expressionAt (n : Nat) :
    Parser.Yields .expression n (expressionAt n) ∧ Parser.Yields .unary n (unaryAt n) := by
  induction n with
  | zero =>
    refine ⟨fun b ts v rest faults h => ?_, fun b ts v rest faults h => ?_⟩
    · simp [expressionAt, tooDeep] at h
    · simp [unaryAt, tooDeep] at h
  | succ n ih =>
    obtain ⟨he, hu⟩ := ih
    rw [expressionAt, unaryAt]
    exact ⟨yields_assignment (yields_operation hu) he, yields_unary hu he⟩

end Grammar

end LoxLang
