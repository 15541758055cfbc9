import LoxLang.Proofs.Grammar.Sentence
import LoxLang.Proofs.Syntax.Whole

set_option autoImplicit false

/-!
# What is accepted is whole

The tree of an expression is whole over the tokens of its phrase, and so is the tree of a statement
if the phrase is proper. So whatever reading accepts has no empty slot, no operator but those of the
language, and no return outside function bodies.

## Main results

* `ExprPhrase.whole_tree`, `StmtPhrase.whole_tree` — the trees of phrases are whole.
* `Grammar.whole_of_parse`, `Grammar.whole_of_parseExpression` — so is what is read.
-/

namespace LoxLang

variable {tokens : List Token}

/-- A token with a kind is among those that have it. -/
lemma Terminal.among {kind : Token.Kind} (t : Terminal kind) (h : t.1 ∈ tokens) :
    t.1.Among tokens [kind] := ⟨h, by simp [t.2]⟩

/-- A level holds its operators only. -/
lemma Level.mem_operators_of_holds {level : Level} {kind : Token.Kind} (h : level.holds kind) :
    kind ∈ match level with
      | disjunction | conjunction => [Token.Kind.orWord, .andWord]
      | equality | comparison | sum | product => Token.Kind.binary := by
  cases level <;> cases kind <;> simp_all [holds, of?, Token.Kind.binary, Token.Kind.arithmetic]

/-- What an operator of a level makes of whole operands is whole. -/
lemma Level.whole_node {level : Level} {left right : Expr} {operator : Token}
    (hl : left.Whole tokens) (hmem : operator ∈ tokens) (h : level.holds operator.kind)
    (hr : right.Whole tokens) : (level.node left operator right).Whole tokens := by
  have hkind := Level.mem_operators_of_holds h
  cases level <;> exact ⟨hl, ⟨hmem, hkind⟩, hr⟩

/-- Expressions in a row are whole if all of them are. -/
lemma Expr.allWhole_append {es : List Expr} {e : Expr} (hes : Expr.AllWhole tokens es)
    (he : e.Whole tokens) : Expr.AllWhole tokens (es ++ [e]) := by
  induction es with
  | nil => exact ⟨he, trivial⟩
  | cons first rest ih => exact ⟨hes.1, ih hes.2⟩

/-- What an assignment is read as is whole: its left side is, if anything else than a name. -/
lemma Expr.whole_assigned {target value : Expr} (ht : target.Whole tokens)
    (hv : value.Whole tokens) : (target.assigned value).Whole tokens := by
  cases target with
  | «variable» name => exact ⟨ht, hv⟩
  | _ => exact ht

/-- What a phrase of a symbol is read as is whole. -/
def ExprSymbol.Whole (tokens : List Token) : (s : ExprSymbol) → s.Tree → Prop
  | primary, e | call, e | unary, e | operation _, e | expression, e => e.Whole tokens
  | arguments, es => Expr.AllWhole tokens es

/-- **The tree of an expression is whole over its tokens**, whether the expression is proper or
not. -/
theorem ExprPhrase.whole_tree {s : ExprSymbol} (p : ExprPhrase s) (hmem : p.tokens ⊆ tokens) :
    s.Whole tokens p.tree := by
  induction p with
  | literal => trivial
  | named name => exact Terminal.among name (hmem (by simp [ExprPhrase.tokens]))
  | grouping opening p closing ih =>
    exact ih fun t ht => hmem (by simp [ExprPhrase.tokens, ht])
  | ofPrimary p ih | ofCall p ih | ofUnary p ih | looser _ _ p ih | plain p ih => exact ih hmem
  | callEmpty callee opening closing ih =>
    simp only [ExprPhrase.tokens, List.append_subset, List.cons_subset] at hmem
    exact ⟨ih hmem.1, Terminal.among closing hmem.2.2.1, trivial⟩
  | call callee opening arguments closing ihc iha =>
    simp only [ExprPhrase.tokens, List.append_subset, List.cons_subset] at hmem
    exact ⟨ihc hmem.1, Terminal.among closing hmem.2.2.2.1, iha hmem.2.2.1⟩
  | single e ih => exact ⟨ih hmem, trivial⟩
  | further init comma next ihi ihn =>
    simp only [ExprPhrase.tokens, List.append_subset, List.cons_subset] at hmem
    exact Expr.allWhole_append (ihi hmem.1) (ihn hmem.2.2)
  | unary operator h operand ih =>
    simp only [ExprPhrase.tokens, List.cons_subset] at hmem
    have hkind : operator.kind ∈ [Token.Kind.bang, .minus] := by
      simpa using Token.Kind.eq_of_isUnary h
    exact ⟨⟨hmem.1, hkind⟩, ih hmem.2⟩
  | join level levels left operator h right ihl ihr =>
    simp only [ExprPhrase.tokens, List.append_subset, List.cons_subset] at hmem
    exact Level.whole_node (ihl hmem.1) hmem.2.1 h (ihr hmem.2.2)
  | assign target equals value iht ihv =>
    simp only [ExprPhrase.tokens, List.append_subset, List.cons_subset] at hmem
    exact Expr.whole_assigned (iht hmem.1) (ihv hmem.2.2)

/-- Names in a row are among the tokens of their phrase. -/
lemma NamesPhrase.among_tree (p : NamesPhrase) (hmem : p.tokens ⊆ tokens) :
    ∀ t ∈ p.tree, t.Among tokens [.identifier] := by
  induction p with
  | single name =>
    have hname : name.1 ∈ tokens := hmem (by simp [NamesPhrase.tokens])
    simpa [tree] using Terminal.among name hname
  | further init comma name ih =>
    simp only [NamesPhrase.tokens, List.append_subset, List.cons_subset] at hmem
    intro t ht
    rcases List.mem_append.1 ht with ht | ht
    · exact ih hmem.1 t ht
    · obtain rfl : t = name.1 := by simpa using ht
      exact Terminal.among name hmem.2.2.1

/-- The tree of a declaration of a variable is whole. -/
lemma VariablePhrase.whole_tree (v : VariablePhrase) (hmem : v.tokens ⊆ tokens) (b : Bool) :
    v.tree.Whole tokens b := by
  obtain ⟨keyword, name, initial, closing⟩ := v
  simp only [VariablePhrase.tokens, List.cons_subset, List.append_subset] at hmem
  refine ⟨Terminal.among name hmem.2.1, fun e he => ?_⟩
  cases initial with
  | none => simp at he
  | some initial =>
    obtain rfl : initial.2.tree = e := by simpa using he
    exact initial.2.whole_tree (List.cons_subset.1 hmem.2.2.1).2

/-- The tree of what a `for` begins with is whole. -/
lemma InitialPhrase.whole_tree (i : InitialPhrase) (hmem : i.tokens ⊆ tokens) (b : Bool) :
    ∀ st ∈ i.tree, st.Whole tokens b := by
  cases i with
  | absent => simp [tree]
  | declared v =>
    rintro st ⟨⟩
    exact v.whole_tree hmem b
  | evaluated s =>
    rintro st ⟨⟩
    exact s.value.whole_tree (List.append_subset.1 hmem).1

/-- The tree of an expression that may be left out is whole. -/
lemma ExprPhrase.whole_map_tree {p : Option (ExprPhrase .expression)}
    (hmem : p.elim [] ExprPhrase.tokens ⊆ tokens) :
    ∀ e ∈ p.map ExprPhrase.tree, Expr.Whole tokens e := by
  cases p with
  | none => simp
  | some p =>
    rintro e ⟨⟩
    exact p.whole_tree hmem

/-- The block and loop that a `for` stands for are whole if its parts are. -/
lemma Stmt.whole_forLoop {b : Bool} {initial : Option Stmt} {condition step : Option Expr}
    {body : Stmt} (hi : ∀ st ∈ initial, st.Whole tokens b) (hc : ∀ e ∈ condition, e.Whole tokens)
    (hs : ∀ e ∈ step, e.Whole tokens) (hbody : body.Whole tokens b) :
    (Stmt.forLoop initial condition step body).Whole tokens b := by
  have hcondition : (condition.getD (.literal (.bool true))).Whole tokens := by
    cases condition with
    | none => trivial
    | some e => exact hc e rfl
  cases initial with
  | none =>
    cases step with
    | none => exact ⟨hcondition, hbody⟩
    | some e => exact ⟨hcondition, hbody, hs e rfl, trivial⟩
  | some st =>
    cases step with
    | none => exact ⟨hi st rfl, ⟨hcondition, hbody⟩, trivial⟩
    | some e => exact ⟨hi st rfl, ⟨hcondition, hbody, hs e rfl, trivial⟩, trivial⟩

/-- What a phrase of a symbol is read as is whole. -/
def StmtSymbol.Whole (tokens : List Token) (b : Bool) : (s : StmtSymbol) → s.Tree → Prop
  | statement, st | declaration, st => st.Whole tokens b
  | declarations, slots => Stmt.AllWhole tokens b slots

/-- **The tree of a proper statement is whole over its tokens.** -/
theorem StmtPhrase.whole_tree {s : StmtSymbol} (p : StmtPhrase s) {b : Bool} (hp : p.Proper b)
    (hmem : p.tokens ⊆ tokens) : s.Whole tokens b p.tree := by
  induction p generalizing b with
  | evaluation s => exact s.value.whole_tree (List.append_subset.1 hmem).1
  | printing keyword value closing =>
    simp only [StmtPhrase.tokens, List.cons_subset, List.append_subset] at hmem
    exact value.whole_tree hmem.2.1
  | returning keyword value closing =>
    simp only [StmtPhrase.tokens, List.cons_subset, List.append_subset] at hmem
    exact ⟨hp.1, Terminal.among keyword hmem.1, ExprPhrase.whole_map_tree hmem.2.1⟩
  | block opening body closing ih =>
    simp only [StmtPhrase.tokens, List.cons_subset, List.append_subset] at hmem
    exact ih hp hmem.2.1
  | ifThen keyword opening condition closing whenTrue ih =>
    simp only [StmtPhrase.tokens, List.cons_subset, List.append_subset] at hmem
    exact ⟨condition.whole_tree hmem.2.2.1, ih hp.2 hmem.2.2.2.2⟩
  | ifElse keyword opening condition closing whenTrue otherwise whenFalse iht ihf =>
    simp only [StmtPhrase.tokens, List.cons_subset, List.append_subset] at hmem
    obtain ⟨-, -, hcondition, -, htrue, -, hfalse⟩ := hmem
    exact ⟨condition.whole_tree hcondition, iht hp.2.1 htrue, ihf hp.2.2 hfalse⟩
  | whileLoop keyword opening condition closing body ih =>
    simp only [StmtPhrase.tokens, List.cons_subset, List.append_subset] at hmem
    exact ⟨condition.whole_tree hmem.2.2.1, ih hp.2 hmem.2.2.2.2⟩
  | forLoop keyword opening initial condition middle step closing body ih =>
    simp only [StmtPhrase.tokens, List.cons_subset, List.append_subset] at hmem
    obtain ⟨-, -, hinitial, hcondition, -, hstep, -, hbody⟩ := hmem
    exact Stmt.whole_forLoop (initial.whole_tree hinitial b)
      (ExprPhrase.whole_map_tree hcondition) (ExprPhrase.whole_map_tree hstep)
      (ih hp.2.2.2 hbody)
  | function keyword name opening parameters closing bodyOpening body bodyClosing ih =>
    simp only [StmtPhrase.tokens, List.cons_subset, List.append_subset] at hmem
    obtain ⟨-, hname, -, hparameters, -, -, hbody, -⟩ := hmem
    refine ⟨Terminal.among name hname, ?_, ih hp.2 hbody⟩
    cases parameters with
    | none => simp
    | some parameters => exact parameters.among_tree hparameters
  | declared v => exact v.whole_tree hmem b
  | statement p ih => exact ih hp hmem
  | nil => trivial
  | cons d ds ihd ihds =>
    simp only [StmtPhrase.tokens, List.append_subset] at hmem
    exact ⟨ihd hp.1 hmem.1, ihds hp.2 hmem.2⟩

namespace Grammar

variable {depth : Nat}

/-- **A program that is read without faults is whole over its tokens**, outside function bodies. -/
theorem whole_of_parse {program : Slots} (h : parse depth tokens = .done program []) :
    Stmt.AllWhole tokens false program := by
  obtain ⟨p, rfl, rfl, hfaults, -⟩ := exists_phrase_of_parse h SyntaxFault.quiet_nil
  exact p.whole_tree ((p.faults_eq_nil_iff false).1 hfaults) (List.Subset.refl _)

/-- **An expression that is read by itself is whole over its tokens**, whatever its faults. -/
theorem whole_of_parseExpression {e : Expr} {faults : List SyntaxFault}
    (h : parseExpression depth tokens = .done (some e) faults) :
    e.Whole tokens := by
  obtain ⟨p, rfl, rfl, -⟩ := exists_phrase_of_parseExpression h
  exact p.whole_tree (List.Subset.refl _)

end Grammar

end LoxLang
