import LoxLang.Proofs.Grammar.Depth

set_option autoImplicit false

/-!
# How deep a text can nest

A text nests no deeper than it is long: whatever stands in something else comes after a token of it. So
a limit on the depth that is large for the number of tokens is never reached, and every loop and every
descent of the grammar comes to an end by itself.

## Main definitions

* `Parser.Finishes` — a parser does not give up in front of fewer tokens than so many.

## Main results

* `Grammar.finishes_expressionAt`, `Grammar.finishes_declarationAt` — a depth that is large enough for
  expressions and for declarations.
-/

namespace LoxLang

variable {α β : Type}

/-- Faults that were noted before do not make a parser give up. -/
@[simp] lemma Reply.after_eq_tooDeep {r : Reply α} {noted : List SyntaxFault} :
    r.after noted = .tooDeep ↔ r = .tooDeep := by
  cases r <;> simp [Reply.after]

/-- A parser does not give up in front of fewer tokens than so many. -/
def Parser.Finishes (n : Nat) (p : Parser α) : Prop :=
  ∀ b (ts : List Token), ts.length < n → p.run b ts ≠ .tooDeep

namespace Parser.Finishes

variable {p : Parser α} {n m : Nat}

lemma mono (h : p.Finishes n) (hle : m ≤ n) : p.Finishes m :=
  fun b ts hts => h b ts (Nat.lt_of_lt_of_le hts hle)

lemma zero (p : Parser α) : p.Finishes 0 := fun _ _ hts => absurd hts (Nat.not_lt_zero _)

lemma pure (v : α) : (pure v : Parser α).Finishes n := by
  intro b ts _
  simp

lemma bind {f : α → Parser β} (h : p.Finishes n) (hf : ∀ v, (f v).Finishes n) :
    (p >>= f).Finishes n := by
  intro b ts hts
  have hp := h b ts hts
  have hwithin := p.within b ts
  rw [run_bind]
  cases hr : p.run b ts with
  | ok v rest faults =>
    rw [hr] at hwithin
    have hrest := hf v b rest (Nat.lt_of_le_of_lt (List.IsSuffix.length_le hwithin) hts)
    simpa using hrest
  | failed => simp
  | tooDeep => exact absurd hr hp

lemma expect (kind : Token.Kind) (what : Expected) : (expect kind what).Finishes n := by
  intro b ts _
  cases ts with
  | nil => simp [Parser.expect]
  | cons t rest =>
    simp only [Parser.expect]
    split <;> simp

/-- After a token that may be taken there is one token fewer. -/
lemma acceptIf_bind {belongs : Token.Kind → Bool} {f : Option Token → Parser β}
    (hsome : ∀ t, (f (some t)).Finishes n) (hnone : (f none).Finishes (n + 1)) :
    (acceptIf belongs >>= f).Finishes (n + 1) := by
  intro b ts hts
  cases ts with
  | nil =>
    rw [run_bind_of_ok (rfl : (acceptIf belongs).run b [] = .ok none [] []), Reply.after_nil]
    exact hnone b [] hts
  | cons t rest =>
    by_cases ht : belongs t.kind = true
    · rw [run_bind_of_ok (by rw [run_acceptIf_cons, if_pos ht]), Reply.after_nil]
      exact hsome t b rest (Nat.lt_of_succ_lt_succ hts)
    · rw [run_bind_of_ok (by rw [run_acceptIf_cons, if_neg ht]), Reply.after_nil]
      exact hnone b (t :: rest) hts

/-- After a token that selects what follows there is one token fewer. -/
lemma select {table : Token.Kind → Option (Token → Parser α)}
    (ht : ∀ kind, (table kind).elim True fun f => ∀ t, (f t).Finishes n)
    (h : p.Finishes (n + 1)) : (select table p).Finishes (n + 1) := by
  intro b ts hts
  cases ts with
  | nil => exact h b [] hts
  | cons t rest =>
    cases hf : table t.kind with
    | some f =>
      have hentry := ht t.kind
      rw [hf] at hentry
      rw [run_select_of_some hf]
      exact hentry t b rest (Nat.lt_of_succ_lt_succ hts)
    | none =>
      rw [run_select_of_none (by simpa using hf)]
      exact h b _ hts

/-- A round of a loop comes after a token, in front of one token fewer.

**Proof sketch.** Induction on the number of tokens, of which each round takes at least one. -/
lemma folding {enter : Token.Kind → Bool} {step : α → Token → Parser α}
    (h : ∀ v t, (step v t).Finishes n) (v : α) : (folding enter step v).Finishes (n + 1) := by
  intro b ts hts
  induction hn : ts.length using Nat.strongRecOn generalizing b v ts with
  | ind k ih =>
    cases ts with
    | nil => simp
    | cons t rest =>
      rw [run_folding_cons]
      split
      · have hround : (step v t >>= Parser.folding enter step).Finishes (rest.length + 1) := by
          refine bind ((h v t).mono (Nat.lt_of_succ_lt_succ hts)) fun w b us hus => ?_
          have hlt : us.length < k := by
            simp only [List.length_cons] at hn
            omega
          exact ih us.length hlt w b us (Nat.lt_trans hlt (hn ▸ hts)) rfl
        exact hround b rest (Nat.lt_succ_self _)
      · simp

/-- Rows do not give up if none of them does.

**Proof sketch.** Induction on the number of tokens, of which each row takes at least one. -/
lemma rows {p : Advancing α} (stop : Token.Kind → Bool) (h : p.toParser.Finishes n) :
    (rows stop p).Finishes n := by
  intro b ts hts
  induction hn : ts.length using Nat.strongRecOn generalizing ts with
  | ind k ih =>
    cases ts with
    | nil => simp
    | cons t rest =>
      rw [run_rows_cons]
      split
      · simp
      · have hadvances := p.advances b t rest
        have hp := h b (t :: rest) hts
        rw [run_bind]
        cases hr : p.run b (t :: rest) with
        | ok v left faults =>
          rw [hr] at hadvances
          simp only [Reply.Shorter] at hadvances
          have hmore := ih left.length (hn ▸ hadvances) left (Nat.lt_trans hadvances hts) rfl
          dsimp only
          rw [run_bind, Ne, Reply.after_eq_tooDeep]
          cases hleft : (Parser.rows stop p).run b left with
          | tooDeep => exact absurd hleft hmore
          | ok => simp
          | failed => simp
        | failed => simp
        | tooDeep => exact absurd hr hp

end Parser.Finishes

namespace Grammar

open LoxLang.Parser

variable {p : Parser α} {e u : Parser Expr} {st : Parser Stmt} {d : Advancing (Option Stmt)}
  {n : Nat}

/-! ## Expressions -/

lemma finishes_unlessNext (kind : Token.Kind) (h : p.Finishes n) :
    (unlessNext kind p).Finishes n := by
  refine .bind (fun _ _ _ => by simp) fun next => ?_
  split
  · exact .pure _
  · exact .bind h fun _ => .pure _

lemma finishes_listed (surplus : SyntaxFault.Cause) (h : p.Finishes n) :
    (listed p surplus).Finishes n := by
  cases n with
  | zero => exact .zero _
  | succ n =>
    refine .bind h fun _ => .bind (.folding (fun items _ => ?_) _) fun _ => .pure _
    have hp := h.mono (Nat.le_succ n)
    dsimp only
    split
    · exact .bind (fun _ _ _ => by simp) fun _ => .bind hp fun _ => .pure _
    · exact .bind hp fun _ => .pure _

lemma finishes_chain (level : Level) (hu : u.Finishes (n + 1)) :
    (chain level u).Finishes (n + 1) :=
  .bind hu fun _ => .folding (fun _ _ => .bind (hu.mono (Nat.le_succ n)) fun _ => .pure _) _

lemma finishes_operation (hu : u.Finishes (n + 1)) : (operation u).Finishes (n + 1) := by
  unfold operation
  induction Level.ordered with
  | nil => exact hu
  | cons level levels ih => exact finishes_chain level ih

/-- The value of an assignment comes after a token. -/
lemma finishes_assignment (hu : u.Finishes (n + 1)) (he : e.Finishes n) :
    (assignment u e).Finishes (n + 1) := by
  refine .bind hu fun left => .acceptIf_bind (fun equals => .bind he fun _ => ?_) (.pure _)
  split
  · exact .pure _
  · exact .bind (fun _ _ _ => by simp) fun _ => .pure _

/-- What stands in parentheses comes after a token. -/
lemma finishes_primary (he : e.Finishes n) : (primary e).Finishes (n + 1) := by
  refine .select (fun kind => ?_) (fun b ts _ => by simp [fail])
  cases kind
  case leftParen => exact fun _ => .bind he fun _ => .bind (.expect _ _) fun _ => .pure _
  all_goals first | trivial | exact fun _ => .pure _

lemma finishes_call (he : e.Finishes n) : (call e).Finishes (n + 1) := by
  refine .bind (finishes_primary he) fun callee => .folding (fun callee t => ?_) callee
  exact .bind (finishes_unlessNext _ (finishes_listed _ he)) fun _ =>
    .bind (.expect _ _) fun _ => .pure _

/-- The operand of a unary operator comes after a token. -/
lemma finishes_unary (hu : u.Finishes n) (he : e.Finishes n) : (unary u e).Finishes (n + 1) :=
  .acceptIf_bind (fun _ => .bind hu fun _ => .pure _) (finishes_call he)

/-- **A depth that is large enough for expressions**: two levels for each token, and one token more
than there are.

**Proof sketch.** Induction on the depth. An expression goes down to a unary one in front of the same
tokens; anything else that it goes down to comes after a token. -/
theorem finishes_expressionAt (depth : Nat) :
    (∀ n, 2 * n ≤ depth → (expressionAt depth).Finishes n) ∧
      ∀ n, 2 * n ≤ depth + 1 → (unaryAt depth).Finishes n := by
  induction depth with
  | zero =>
    constructor
    · intro n hn
      obtain rfl : n = 0 := by omega
      exact .zero _
    · intro n hn
      obtain rfl : n = 0 := by omega
      exact .zero _
  | succ depth ih =>
    obtain ⟨hexpression, hunary⟩ := ih
    constructor
    · intro n hn
      cases n with
      | zero => exact .zero _
      | succ n =>
        have hu := hunary (n + 1) hn
        have he := hexpression n (by omega)
        rw [expressionAt]
        exact finishes_assignment (finishes_operation hu) he
    · intro n hn
      cases n with
      | zero => exact .zero _
      | succ n =>
        have hu := hunary n (by omega)
        have he := hexpression n (by omega)
        rw [unaryAt]
        exact finishes_unary hu he

/-! ## Statements -/

lemma finishes_variableDeclaration (he : e.Finishes n) : (variableDeclaration e).Finishes n := by
  cases n with
  | zero => exact .zero _
  | succ n =>
    have hend (name : Token) (initial : Option Expr) : (do
        let _ ← Parser.expect .semicolon .semicolonAfterVariable
        return Stmt.var name initial : Parser Stmt).Finishes (n + 1) :=
      .bind (.expect _ _) fun _ => .pure _
    refine .bind (.expect _ _) fun name => .acceptIf_bind (fun _ => ?_) ?_
    · exact .mono (.bind he fun value => .bind (.pure (some value)) (hend name)) (Nat.le_succ n)
    · exact .bind (.pure none) (hend name)

lemma finishes_expressionStatement (he : e.Finishes n) :
    (expressionStatement e).toParser.Finishes n :=
  .bind he fun _ => .bind (.expect _ _) fun _ => .pure _

lemma finishes_forInitial (he : e.Finishes n) : (forInitial e).Finishes n := by
  cases n with
  | zero => exact .zero _
  | succ n =>
    refine .select (fun kind => ?_) (.bind (finishes_expressionStatement he) fun _ => .pure _)
    cases kind
    case varWord =>
      exact fun _ => .bind (finishes_variableDeclaration (he.mono (Nat.le_succ n))) fun _ => .pure _
    all_goals first | trivial | exact fun _ => .pure _

lemma finishes_forStatement (he : e.Finishes n) (hs : st.Finishes n) :
    (forStatement e st).Finishes n :=
  .bind (.expect _ _) fun _ => .bind (finishes_forInitial he) fun _ =>
    .bind (finishes_unlessNext _ he) fun _ => .bind (.expect _ _) fun _ =>
      .bind (finishes_unlessNext _ he) fun _ => .bind (.expect _ _) fun _ => .bind hs fun _ => .pure _

lemma finishes_ifStatement (he : e.Finishes n) (hs : st.Finishes n) :
    (ifStatement e st).Finishes n := by
  cases n with
  | zero => exact .zero _
  | succ n =>
    refine .bind (.expect _ _) fun _ => .bind he fun _ => .bind (.expect _ _) fun _ =>
      .bind hs fun _ => .acceptIf_bind (fun _ => ?_) (.pure _)
    exact .bind (hs.mono (Nat.le_succ n)) fun _ => .pure _

lemma finishes_whileStatement (he : e.Finishes n) (hs : st.Finishes n) :
    (whileStatement e st).Finishes n :=
  .bind (.expect _ _) fun _ => .bind he fun _ => .bind (.expect _ _) fun _ =>
    .bind hs fun _ => .pure _

lemma finishes_printStatement (he : e.Finishes n) : (printStatement e).Finishes n :=
  .bind he fun _ => .bind (.expect _ _) fun _ => .pure _

lemma finishes_returnStatement (he : e.Finishes n) (keyword : Token) :
    (returnStatement e keyword).Finishes n := by
  refine .bind (fun _ _ _ => by simp) fun inside => ?_
  have hend : (do
      let value ← unlessNext .semicolon e
      let _ ← Parser.expect .semicolon .semicolonAfterReturned
      return Stmt.return keyword value : Parser Stmt).Finishes n :=
    .bind (finishes_unlessNext _ he) fun _ => .bind (.expect _ _) fun _ => .pure _
  dsimp only
  split
  · exact .bind (fun _ _ _ => by simp) fun _ => hend
  · exact hend

lemma finishes_blockBody (hd : d.toParser.Finishes n) : (blockBody d).Finishes n :=
  .bind (.rows _ hd) fun _ => .bind (.expect _ _) fun _ => .pure _

lemma finishes_functionDeclaration (hd : d.toParser.Finishes n) :
    (functionDeclaration d).Finishes n :=
  .bind (.expect _ _) fun _ => .bind (.expect _ _) fun _ =>
    .bind (finishes_unlessNext _ (finishes_listed _ (.expect _ _))) fun _ =>
      .bind (.expect _ _) fun _ => .bind (.expect _ _) fun _ =>
        .bind (fun _ ts hts => finishes_blockBody hd true ts hts) fun _ => .pure _

/-- What stands in a statement comes after a token, but for the expression of an expression
statement. -/
lemma finishes_statementAt_succ {depth : Nat} (he : (expressionAt depth).Finishes (n + 1))
    (hs : (statementAt depth).toParser.Finishes n)
    (hd : (declarationAt depth).toParser.Finishes n) :
    (statementAt (depth + 1)).toParser.Finishes (n + 1) := by
  have he' := he.mono (Nat.le_succ n)
  rw [statementAt_succ]
  refine .select (fun kind => ?_) (finishes_expressionStatement he)
  cases kind
  case forWord => exact fun _ => finishes_forStatement he' hs
  case ifWord => exact fun _ => finishes_ifStatement he' hs
  case whileWord => exact fun _ => finishes_whileStatement he' hs
  case printWord => exact fun _ => finishes_printStatement he'
  case returnWord => exact fun keyword => finishes_returnStatement he' keyword
  case leftBrace => exact fun _ => .bind (finishes_blockBody hd) fun _ => .pure _
  all_goals trivial

/-- What stands in a declaration comes after a token, but for a statement. -/
lemma finishes_declarationAt_succ {depth : Nat} (he : (expressionAt depth).Finishes n)
    (hs : (statementAt depth).toParser.Finishes (n + 1))
    (hd : (declarationAt depth).toParser.Finishes n) :
    (declarationAt (depth + 1)).toParser.Finishes (n + 1) := by
  have htable : (select (declarationTable (expressionAt depth) (declarationAt depth))
      (statementAt depth).toParser).Finishes (n + 1) := by
    refine .select (fun kind => ?_) hs
    cases kind
    case funWord => exact fun _ => finishes_functionDeclaration hd
    case varWord => exact fun _ => finishes_variableDeclaration he
    all_goals trivial
  intro b ts hts
  have hreply := htable b ts hts
  rw [run_declarationAt_succ]
  generalize (select _ _).run b ts = reply at hreply ⊢
  cases reply with
  | ok => simp [recover]
  | failed => simp [recover]
  | tooDeep => exact absurd rfl hreply

/-- **A depth that is large enough for statements and declarations.**

**Proof sketch.** Induction on the depth. A declaration goes down to a statement in front of the same
tokens, and a statement to an expression; anything else that they go down to comes after a token. -/
theorem finishes_declarationAt (depth : Nat) :
    (∀ n, 2 * n + 1 ≤ depth → (statementAt depth).toParser.Finishes n) ∧
      ∀ n, 2 * n + 2 ≤ depth → (declarationAt depth).toParser.Finishes n := by
  induction depth with
  | zero => exact ⟨fun n hn => absurd hn (by omega), fun n hn => absurd hn (by omega)⟩
  | succ depth ih =>
    obtain ⟨hstatement, hdeclaration⟩ := ih
    obtain ⟨hexpression, -⟩ := finishes_expressionAt depth
    constructor
    · intro n hn
      cases n with
      | zero => exact .zero _
      | succ n =>
        exact finishes_statementAt_succ (hexpression (n + 1) (by omega))
          (hstatement n (by omega)) (hdeclaration n (by omega))
    · intro n hn
      cases n with
      | zero => exact .zero _
      | succ n =>
        exact finishes_declarationAt_succ (hexpression n (by omega))
          (hstatement (n + 1) (by omega)) (hdeclaration n (by omega))

end Grammar

end LoxLang
