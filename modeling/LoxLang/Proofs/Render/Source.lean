import LoxLang.Proofs.Grammar.Targeted
import LoxLang.Proofs.Scan.Written
import LoxLang.Render.Source

set_option autoImplicit false

/-!
# Expressions in source read back

An expression that was read is written back to a source that is read as the same expression, up to
the lines of its tokens. No parentheses are added: the tree comes from a phrase, and what is written
has the tokens of that phrase again, without the right sides of improper assignments.

## Main definitions

* `Expr.IsFinite` — no number in an expression is infinite.
* `ExprPhrase.Spelled` — every token of a phrase is written as tokens of its kind are.

## Main results

* `ExprPhrase.fresh_source` — what is written for a phrase does not go on with an operator.
* `ExprPhrase.readsAs_source` — what is written for a phrase is scanned to tokens like its own.
* `Expr.source_reads_back` — what is written for an expression that was read is read as it.
-/

namespace LoxLang

/-! ## Finite numbers -/

mutual

/-- No number in an expression is infinite. -/
def Expr.IsFinite : Expr → Prop
  | .literal value => value.IsFinite
  | .grouping inner => inner.IsFinite
  | .unary _ operand => operand.IsFinite
  | .binary left _ right => left.IsFinite ∧ right.IsFinite
  | .logical left _ right => left.IsFinite ∧ right.IsFinite
  | .variable _ => True
  | .assign _ value => value.IsFinite
  | .call callee _ arguments => callee.IsFinite ∧ Expr.AllFinite arguments

/-- No number in expressions is infinite. -/
def Expr.AllFinite : List Expr → Prop
  | [] => True
  | e :: rest => e.IsFinite ∧ Expr.AllFinite rest

end

/-- No number in what is read is infinite. -/
def ExprSymbol.IsFinite : (s : ExprSymbol) → s.Tree → Prop
  | .primary, e | .call, e | .unary, e | .operation _, e | .expression, e => e.IsFinite
  | .arguments, es => Expr.AllFinite es

/-- What is read as source text. -/
def ExprSymbol.source : (s : ExprSymbol) → s.Tree → List Char
  | .primary, e | .call, e | .unary, e | .operation _, e | .expression, e => e.source.toList
  | .arguments, es => (Expr.sources es).toList

/-- Expressions are finite one by one. -/
lemma Expr.allFinite_append (es es' : List Expr) :
    Expr.AllFinite (es ++ es') ↔ Expr.AllFinite es ∧ Expr.AllFinite es' := by
  induction es with
  | nil => simp [AllFinite]
  | cons e es ih => simp [AllFinite, ih, and_assoc]

/-- One more argument is written behind a comma. -/
lemma Expr.sources_append_singleton {es : List Expr} (h : es ≠ []) (e : Expr) :
    Expr.sources (es ++ [e]) = Expr.sources es ++ ", " ++ e.source := by
  induction es with
  | nil => contradiction
  | cons e' es ih =>
    cases es with
    | nil => rfl
    | cons e'' es =>
      have := ih (by simp)
      simp only [List.cons_append, sources] at this ⊢
      rw [this]
      simp [String.append_assoc]

/-! ## What is written for a phrase -/

section Pieces

variable {level : Level} {left right target value : Expr} {operator : Token}

/-- An operation is written with blanks about its operator. -/
lemma Level.source_node : (level.node left operator right).source =
    left.source ++ " " ++ operator.lexeme ++ " " ++ right.source := by
  cases level <;> rfl

/-- An operation is finite if both its sides are. -/
lemma Level.isFinite_node :
    (level.node left operator right).IsFinite ↔ left.IsFinite ∧ right.IsFinite := by
  cases level <;> rfl

end Pieces

namespace ExprPhrase

/-- Every token is written as tokens of its kind are. -/
def Spelled {s : ExprSymbol} (p : ExprPhrase s) : Prop :=
  ∀ t ∈ p.tokens, Token.Spells t.kind t.lexeme.toList

/-! ### How each kind of phrase is written -/

section Productions

open ExprSymbol (source)

lemma source_grouping (opening : Terminal .leftParen) (inner : ExprPhrase .expression)
    (closing : Terminal .rightParen) : source .primary (grouping opening inner closing).tree =
      ['('] ++ (source .expression inner.tree ++ [')']) := by
  simp [source, tree, Expr.source]

lemma source_callEmpty (callee : ExprPhrase .call) (opening : Terminal .leftParen)
    (closing : Terminal .rightParen) : source .call (callEmpty callee opening closing).tree =
      source .call callee.tree ++ (['('] ++ [')']) := by
  simp [source, tree, Expr.source, Expr.sources]

lemma source_call (callee : ExprPhrase .call) (opening : Terminal .leftParen)
    (arguments : ExprPhrase .arguments) (closing : Terminal .rightParen) :
    source .call (call callee opening arguments closing).tree =
      source .call callee.tree ++ (['('] ++ (source .arguments arguments.tree ++ [')'])) := by
  simp [source, tree, Expr.source]

lemma source_further (init : ExprPhrase .arguments) (comma : Terminal .comma)
    (next : ExprPhrase .expression) : source .arguments (further init comma next).tree =
      source .arguments init.tree ++ ([','] ++ ' ' :: source .expression next.tree) := by
  have hinit : init.tree ≠ [] := by cases init <;> simp [tree]
  simp [source, tree, Expr.sources_append_singleton hinit]

lemma source_unary (operator : Token) (h : operator.kind.isUnary) (operand : ExprPhrase .unary) :
    source .unary (unary operator h operand).tree =
      operator.lexeme.toList ++ source .unary operand.tree := by
  simp [source, tree, Expr.source]

lemma source_join (level : Level) (levels : List Level)
    (left : ExprPhrase (.operation (level :: levels))) (operator : Token)
    (h : level.holds operator.kind) (right : ExprPhrase (.operation levels)) :
    source (.operation (level :: levels)) (join level levels left operator h right).tree =
      source (.operation (level :: levels)) left.tree ++
        ' ' :: (operator.lexeme.toList ++ ' ' :: source (.operation levels) right.tree) := by
  simp [source, tree, Level.source_node]

lemma source_assign (target : ExprPhrase (.operation Level.ordered)) (equals : Terminal .equal)
    (value : ExprPhrase .expression) {name : Token} (h : target.tree.name? = some name) :
    source .expression (assign target equals value).tree =
      name.lexeme.toList ++ ' ' :: (['='] ++ ' ' :: source .expression value.tree) := by
  simp [source, tree, Expr.eq_variable_of_name? h, Expr.assigned, Expr.source]

/-- An assignment to a name is finite if its value is. -/
lemma isFinite_assigned {target value : Expr} {name : Token} (h : target.name? = some name) :
    (target.assigned value).IsFinite ↔ value.IsFinite := by
  rw [Expr.eq_variable_of_name? h]
  rfl

end Productions

/-- **What is written for a phrase does not go on with an operator** in front of it: it begins with
neither an equals sign nor a slash.

**Proof sketch.** Induction on the phrase, into the part that it begins with. -/
theorem fresh_source {s : ExprSymbol} (p : ExprPhrase s) (ht : p.Targeted)
    (hs : p.Spelled) (hf : s.IsFinite p.tree) : Scan.Fresh (s.source p.tree) := by
  induction p with
  | literal token value hc =>
    have hspells := (Token.spells_written (hs token (by simp [tokens])) hc hf).1
    refine hspells.fresh ⟨?_, ?_, ?_⟩
    all_goals
      intro hk
      rw [Token.constant?, hk] at hc
      simp [Token.literal?, hk] at hc
  | named name =>
    refine (hs name.1 (by simp [tokens])).fresh ?_
    rw [name.2]
    decide
  | grouping opening inner closing =>
    rw [source_grouping]
    exact ⟨'(', _, rfl, by decide, by decide⟩
  | single _ ih => exact ih ht hs hf.1
  | ofPrimary _ ih | ofCall _ ih | ofUnary _ ih | looser _ _ _ ih | plain _ ih => exact ih ht hs hf
  | callEmpty callee opening closing ih =>
    rw [source_callEmpty]
    exact (ih ht (fun t h => hs t (by simp [tokens, h])) hf.1).append _
  | call callee opening arguments closing ih =>
    rw [source_call]
    exact (ih ht.1 (fun t h => hs t (by simp [tokens, h])) hf.1).append _
  | further init comma next ih =>
    rw [source_further]
    have hinit := ((Expr.allFinite_append _ _).1 hf).1
    exact (ih ht.1 (fun t h => hs t (by simp [tokens, h])) hinit).append _
  | unary operator hop operand =>
    rw [source_unary]
    refine ((hs operator (by simp [tokens])).fresh ?_).append _
    rcases Token.Kind.eq_of_isUnary hop with hk | hk <;> simp [hk]
  | join level levels left operator hop right ih =>
    rw [source_join]
    have hleft := (Level.isFinite_node.1 hf).1
    exact (ih ht.1 (fun t h => hs t (by simp [tokens, h])) hleft).append _
  | assign target equals value =>
    obtain ⟨name, hname⟩ := ht.1
    obtain ⟨htarget, hkind⟩ := (target.name?_tree_eq_some_iff name).1 hname
    rw [source_assign target equals value hname]
    refine ((hs name (by simp [tokens, htarget])).fresh ?_).append _
    rw [hkind]
    decide

open Scan (Clear ReadsAs clear_blank clear_closing clear_comma clear_opening)

/-- A mark of a phrase is scanned from its spelling. -/
lemma readsAs_mark {s : ExprSymbol} {p : ExprPhrase s} (hs : p.Spelled) {kind : Token.Kind}
    (t : Terminal kind) (hmem : t.1 ∈ p.tokens) (hk : kind.spelling ≠ []) {rest : List Char}
    (hr : ∀ d ∈ rest.head?, d ≠ '=' ∧ d ≠ '/') : ReadsAs kind.spelling rest [t.1] := by
  obtain ⟨t, rfl⟩ := t
  exact .sign (hs t hmem) hk hr

/-- **What is written for a phrase is scanned to tokens like its own**, in front of anything that
ends a token.

**Proof sketch.** Induction on the phrase. Between two parts that are written next to each other
there is a blank, a parenthesis or a comma, except behind an operator in front of its operand; there
the operand begins with no sign that would go on with the operator. -/
theorem readsAs_source {s : ExprSymbol} (p : ExprPhrase s) (ht : p.Targeted) (hs : p.Spelled)
    (hf : s.IsFinite p.tree) {rest : List Char} (hr : Clear rest) :
    ReadsAs (s.source p.tree) rest p.tokens := by
  induction p generalizing rest with
  | literal token value hc => exact .literal (hs token (by simp [tokens])) hc hf hr
  | named name => exact .lexeme (hs name.1 (by simp [tokens])) hr
  | grouping opening inner closing ih =>
    rw [source_grouping]
    have hspelled : inner.Spelled := fun t h => hs t (by simp [tokens, h])
    have hinner := ih ht hspelled hf (clear_closing rest)
    have hfresh := (inner.fresh_source ht hspelled hf).append ([')'] ++ rest)
    have hclosing := readsAs_mark hs closing (by simp [tokens]) (by decide) hr.head_ne
    refine .cons ?_ (hinner.append hclosing)
    rw [List.append_assoc]
    exact readsAs_mark hs opening (by simp [tokens]) (by decide) hfresh.head_ne
  | single _ ih => exact ih ht hs hf.1 hr
  | ofPrimary _ ih | ofCall _ ih | ofUnary _ ih | looser _ _ _ ih | plain _ ih =>
    exact ih ht hs hf hr
  | callEmpty callee opening closing ih =>
    rw [source_callEmpty]
    have hcallee := fun more =>
      ih ht (fun t h => hs t (by simp [tokens, h])) hf.1 (clear_opening more)
    have hclosing := readsAs_mark hs closing (by simp [tokens]) (by decide) hr.head_ne
    refine (hcallee _).append (.cons ?_ hclosing)
    exact readsAs_mark hs opening (by simp [tokens]) (by decide) (clear_closing rest).head_ne
  | call callee opening arguments closing ihc iha =>
    rw [source_call]
    have hspelled : arguments.Spelled := fun t h => hs t (by simp [tokens, h])
    have hcallee := fun more =>
      ihc ht.1 (fun t h => hs t (by simp [tokens, h])) hf.1 (clear_opening more)
    have harguments := iha ht.2 hspelled hf.2 (clear_closing rest)
    have hfresh := (arguments.fresh_source ht.2 hspelled hf.2).append ([')'] ++ rest)
    have hclosing := readsAs_mark hs closing (by simp [tokens]) (by decide) hr.head_ne
    refine (hcallee _).append (.cons ?_ (harguments.append hclosing))
    rw [List.append_assoc]
    exact readsAs_mark hs opening (by simp [tokens]) (by decide) hfresh.head_ne
  | further init comma next ihi ihn =>
    rw [source_further]
    obtain ⟨hfi, hfn⟩ := (Expr.allFinite_append _ _).1 hf
    have hinit := fun more =>
      ihi ht.1 (fun t h => hs t (by simp [tokens, h])) hfi (clear_comma more)
    have hnext := ihn ht.2 (fun t h => hs t (by simp [tokens, h])) hfn.1 hr
    refine (hinit _).append (.cons ?_ hnext.blank_append)
    exact readsAs_mark hs comma (by simp [tokens]) (by decide) (clear_blank _).head_ne
  | unary operator hop operand ih =>
    rw [source_unary]
    have hspelled : operand.Spelled := fun t h => hs t (by simp [tokens, h])
    have hoperand := ih ht hspelled hf hr
    have hfresh := (operand.fresh_source ht hspelled hf).append rest
    have hspelling : operator.kind.spelling ≠ [] := by
      rcases Token.Kind.eq_of_isUnary hop with hk | hk <;> simp [hk, Token.Kind.spelling]
    have hoperator := hs operator (by simp [tokens])
    rw [hoperator.eq_spelling hspelling]
    exact (ReadsAs.sign hoperator hspelling hfresh.head_ne).cons hoperand
  | join level levels left operator hop right ihl ihr =>
    rw [source_join]
    obtain ⟨hfl, hfr⟩ := Level.isFinite_node.1 hf
    have hleft := fun more =>
      ihl ht.1 (fun t h => hs t (by simp [tokens, h])) hfl (clear_blank more)
    have hright := ihr ht.2 (fun t h => hs t (by simp [tokens, h])) hfr hr
    refine (hleft _).append (ReadsAs.cons ?_ hright.blank_append).blank_append
    exact .lexeme (hs operator (by simp [tokens])) (clear_blank _)
  | assign target equals value iht ihv =>
    obtain ⟨name, hname⟩ := ht.1
    obtain ⟨htarget, hkind⟩ := (target.name?_tree_eq_some_iff name).1 hname
    have hfinite := (isFinite_assigned hname).1 hf
    have hvalue := ihv ht.2 (fun t h => hs t (by simp [tokens, h])) hfinite hr
    have hequals := fun more => readsAs_mark hs equals (by simp [tokens]) (by decide)
      (clear_blank more).head_ne
    have hleft := fun more => ReadsAs.lexeme (hs name (by simp [tokens, htarget])) (clear_blank more)
    rw [source_assign target equals value hname, tokens, htarget]
    exact (hleft _).cons ((hequals _).cons hvalue.blank_append).blank_append

end ExprPhrase

open Grammar (parseExpression)

/-- **An expression that was read is written to a source that is read as the same expression**, but
for the lines of its tokens, if all its numbers are finite. This source is scanned without a fault,
and reading it takes no more depth; all that may be noted about it is too many arguments.

**Proof sketch.** The expression is the tree of a phrase, from which improper assignments can be
dropped. What is written for that phrase is scanned to tokens like its own, and these make up a
phrase of the same form. -/
theorem Expr.source_reads_back {depth : Nat} {source : String} {e : Expr}
    {faults : List SyntaxFault}
    (h : parseExpression depth (scan source).tokens = .done (some e) faults) (hf : e.IsFinite) :
    (scan e.source).faults = [] ∧ ∃ e' faults',
      parseExpression depth (scan e.source).tokens = .done (some e') faults' ∧
      e'.mapTokens Token.unplaced = e.mapTokens Token.unplaced ∧
      ∀ f ∈ faults', f.cause = .tooManyArguments := by
  obtain ⟨p, htokens, rfl, -, hheight⟩ := Grammar.exists_phrase_of_parseExpression h
  obtain ⟨q, hq, ht, hle, hsub⟩ := p.exists_targeted
  have hspelled : q.Spelled := by
    intro t hmem
    have hscanned : t ∈ Scan.tokensFrom 1 source.toList := by
      rw [← Scan.tokens_scan, ← htokens]
      exact hsub.subset hmem
    exact Scan.spells_of_mem_tokensFrom hscanned
  have hfinite : ExprSymbol.IsFinite .expression q.tree := hq ▸ hf
  obtain ⟨us, next, hreads, halike⟩ := q.readsAs_source ht hspelled hfinite Scan.clear_nil 1
  obtain ⟨r, rfl, hcopy⟩ := q.exists_of_forall₂ Token.carried_alike halike
  have htext : ExprSymbol.source .expression q.tree = (p.tree : Expr).source.toList := by
    rw [hq]
    rfl
  have htokens' : (scan (p.tree : Expr).source).tokens = r.tokens := by
    rw [Scan.tokens_scan, ← htext]
    simpa using hreads.tokens_eq
  refine ⟨?_, r.tree, r.faults, ?_, ?_, ?_⟩
  · rw [Scan.faults_scan, ← htext]
    simpa using hreads.faults_eq
  · rw [htokens']
    exact Grammar.parseExpression_eq_done r (hcopy.height_eq ▸ hle.trans hheight)
  · rw [← hq]
    exact hcopy.tree_eq
  · intro f hmem
    apply q.cause_of_targeted ht
    rw [← hcopy.causes_eq]
    exact List.mem_map_of_mem hmem

/-- The derivation of `-0.5 = nil`, which is read as its left side. -/
def negativeHalf : ExprPhrase .expression :=
  .assign (Grammar.operand (.unary ⟨.minus, "-", 1⟩ rfl
      (.ofCall (.ofPrimary (.literal ⟨.number, "0.5", 1⟩ _ rfl)))))
    ⟨⟨.equal, "=", 1⟩, rfl⟩ (Grammar.constant ⟨.nilWord, "nil", 1⟩ .nil rfl)

/-- From `-0.5 = nil` a negative number is read, in spite of a fault. It is written as `-0.5`, which
is read as the same expression. -/
theorem Expr.source_reads_back_negativeHalf :
    (scan (negativeHalf.tree : Expr).source).faults = [] ∧ ∃ e' faults',
      parseExpression 3 (scan (negativeHalf.tree : Expr).source).tokens = .done (some e') faults' ∧
      e'.mapTokens Token.unplaced = (negativeHalf.tree : Expr).mapTokens Token.unplaced ∧
      ∀ f ∈ faults', f.cause = .tooManyArguments := by
  have htokens : (scan "-0.5 = nil").tokens = negativeHalf.tokens := by decide +kernel
  have hread : parseExpression 3 (scan "-0.5 = nil").tokens =
      .done (some negativeHalf.tree) negativeHalf.faults := by
    rw [htokens]
    exact Grammar.parseExpression_eq_done negativeHalf (by decide)
  have hfinite : (Token.numberOf "0.5").isFinite = true := by decide +kernel
  exact source_reads_back hread hfinite

end LoxLang