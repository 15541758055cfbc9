import LoxLang.Proofs.Grammar.Follows

set_option autoImplicit false

/-!
# Expressions read by a cursor

A reader reads every form of expression as the grammar parses it, at each depth and wherever it
stands.

## Main results

* `Reader.follows_chain`, `Reader.follows_assignment`, `Reader.follows_primary` — single forms.
* `Reader.follows_expression` — expressions and unary expressions at each depth.
-/

namespace LoxLang.Reader

variable {c : Cursor} {e : Reading Expr} {p : Parser Expr}

/-! ## Operators -/

/-- The operators of a level are the tokens that belong to it. -/
lemma mem_operators (level : Level) (kind : Token.Kind) :
    level.holds kind = true ↔ kind ∈ operators level := by
  cases level <;> cases kind <;> decide

lemma mem_unary (kind : Token.Kind) : kind.isUnary = true ↔ kind ∈ [Token.Kind.bang, .minus] := by
  cases kind <;> decide

lemma mem_kind (kind k : Token.Kind) : (k == kind) = true ↔ k ∈ [kind] := by
  simp

/-- Operands are read alike, and so are the operators between them. -/
lemma follows_chain (level : Level) (he : ∀ c, Follows c e p) (c : Cursor) :
    Follows c (chain level e) (Grammar.chain level p) := by
  refine (he c).bind fun left c =>
    follows_folding (mem_operators level) (fun left t c ht => ?_) left c
  refine (goes_previous_of_head ht).look ?_
  exact (he c).bind fun right c => follows_pure _ c

lemma follows_operation (he : ∀ c, Follows c e p) (c : Cursor) :
    Follows c (operation e) (Grammar.operation p) := by
  have hlevels : ∀ levels : List Level, ∀ c,
      Follows c (levels.foldr chain e) (levels.foldr Grammar.chain p) := by
    intro levels
    induction levels with
    | nil => exact he
    | cons level levels ih => exact follows_chain level ih
  exact hlevels Level.ordered c

/-- What stands on the left is looked at after what stands on the right was read. -/
lemma follows_assignment {value : Reading Expr} {q : Parser Expr} (he : ∀ c, Follows c e p)
    (hvalue : ∀ c, Follows c value q) (c : Cursor) :
    Follows c (assignment e value) (Grammar.assignment p q) := by
  refine (he c).bind fun left c => follows_accept (mem_kind _) (fun equals c hkind _ => ?_)
    (follows_pure left c)
  have hnoted : equals.kind ≠ .endOfSource := by
    rw [List.mem_singleton.1 hkind]
    decide
  refine (hvalue c).bind fun right c => ?_
  cases left with
  | «variable» name => exact follows_pure _ c
  | literal | grouping | unary | binary | logical | assign | call =>
    exact (follows_noteAt hnoted _ c).bind fun _ c => follows_pure _ c

/-! ## Operands -/

lemma follows_grouping (he : ∀ c, Follows c e p) (c : Cursor) :
    Follows c (do
        let inner ← e
        let _ ← expect .rightParen .parenAfterGrouping
        return Expr.grouping inner)
      (do
        let inner ← p
        let _ ← Parser.expect .rightParen .parenAfterGrouping
        return .grouping inner) :=
  (he c).bind fun _ c => (follows_expect _ _ c).bind fun _ c => follows_pure _ c

/-- What a primary expression is read as after its first token. -/
def primaryTable (p : Parser Expr) : Token.Kind → Option (Token → Parser Expr)
  | .falseWord => some fun _ => return .literal (.bool false)
  | .trueWord => some fun _ => return .literal (.bool true)
  | .nilWord => some fun _ => return .literal .nil
  | .number => some fun token => return .literal (.number (Token.numberOf token.lexeme))
  | .string => some fun token => return .literal (.string (Token.textOf token.lexeme))
  | .identifier => some fun token => return .variable token
  | .leftParen => some fun _ => do
    let inner ← p
    let _ ← Parser.expect .rightParen .parenAfterGrouping
    return .grouping inner
  | _ => none

/-- A primary expression is selected by its first token. -/
lemma primary_eq (p : Parser Expr) :
    Grammar.primary p = Parser.select (primaryTable p) (Parser.fail .expression) := rfl

/-- Any other token begins no primary expression. -/
lemma primaryTable_eq_none {kind : Token.Kind} (h : kind ∉ [Token.Kind.falseWord, .trueWord,
    .nilWord, .number, .string, .identifier, .leftParen]) : primaryTable p kind = none := by
  cases kind <;> first | rfl | exact absurd (by decide) h

/-- The value of a number or a string token is the one that its text stands for. -/
lemma follows_literal {t : Token} (hk : t.kind ∈ [Token.Kind.number, .string])
    (ht : c.passed.head? = some t) :
    ∃ f, primaryTable p t.kind = some f ∧
      Follows c (do let token ← previous; return Expr.literal (token.literal?.getD .nil)) (f t) := by
  have hread : Follows c (do let token ← previous; return Expr.literal (token.literal?.getD .nil))
      (pure (.literal (t.literal?.getD .nil))) := (goes_previous_of_head ht).look (follows_pure _ c)
  obtain hk | hk : t.kind = .number ∨ t.kind = .string := by simpa using hk
  all_goals
    rw [Token.literal?, hk] at hread
    exact ⟨_, by rw [hk]; rfl, hread⟩

lemma follows_primary (he : ∀ c, Follows c e p) (c : Cursor) :
    Follows c (primary e) (Grammar.primary p) := by
  rw [primary_eq]
  refine follows_accept_entry rfl (fun _ c _ _ => follows_pure _ c) fun hfalse => ?_
  refine follows_accept_entry rfl (fun _ c _ _ => follows_pure _ c) fun htrue => ?_
  refine follows_accept_entry rfl (fun _ c _ _ => follows_pure _ c) fun hnil => ?_
  refine follows_accept_select (fun t c hk ht => follows_literal hk ht) fun hliteral => ?_
  refine follows_accept_entry rfl (fun t c _ ht => ?_) fun hname => ?_
  · exact (goes_previous_of_head ht).look (follows_pure _ c)
  refine follows_accept_entry rfl (fun _ c _ _ => follows_grouping he c) fun hparen => ?_
  refine follows_otherwise (fun t ht => ?_) (follows_fail _ c)
  have hliteral := hliteral t ht
  simp only [List.mem_cons, List.not_mem_nil, or_false, not_or] at hliteral
  apply primaryTable_eq_none
  simp [hfalse t ht, htrue t ht, hnil t ht, hliteral, hname t ht, hparen t ht]

lemma follows_finishCall (he : ∀ c, Follows c e p) (callee : Expr) (c : Cursor) :
    Follows c (finishCall e callee) (Grammar.finishCall p callee) := by
  refine (follows_unlessNext _ (follows_listed he _ c)).bind fun arguments c => ?_
  exact (follows_expect _ _ c).bind fun paren c => follows_pure _ c

lemma follows_call (he : ∀ c, Follows c e p) (c : Cursor) :
    Follows c (call e) (Grammar.call p) :=
  (follows_primary he c).bind fun callee c =>
    follows_folding (mem_kind _) (fun callee _ c _ => follows_finishCall he callee c) callee c

lemma follows_unary {operand : Reading Expr} {q : Parser Expr} (hoperand : ∀ c, Follows c operand q)
    (he : ∀ c, Follows c e p) (c : Cursor) :
    Follows c (unary operand e) (Grammar.unary q p) := by
  refine follows_accept mem_unary (fun operator c _ _ => ?_) (follows_call he c)
  exact (hoperand c).bind fun inner c => follows_pure _ c

/-! ## All depths -/

/-- **Expressions are read alike** at each depth.

**Proof sketch.** Induction on the depth, for expressions and for unary expressions at once. -/
theorem follows_expression (depth : Nat) :
    (∀ c, Follows c (expressionAt depth) (Grammar.expressionAt depth)) ∧
      ∀ c, Follows c (unaryAt depth) (Grammar.unaryAt depth) := by
  induction depth with
  | zero => exact ⟨follows_tooDeep, follows_tooDeep⟩
  | succ depth ih =>
    obtain ⟨hexpression, hunary⟩ := ih
    exact ⟨follows_assignment (follows_operation hunary) hexpression,
      follows_unary hunary hexpression⟩

end LoxLang.Reader
