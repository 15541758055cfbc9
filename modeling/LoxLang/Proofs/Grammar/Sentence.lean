import LoxLang.Proofs.Grammar.Statement

set_option autoImplicit false

/-!
# Sentences of the language

Reading a program notes no fault exactly if its tokens are a sentence: declarations in a row that
the grammar derives, and that keep the rules which the grammar leaves out. The tree is then the tree
of the only derivation in which every alternative is nearest.

## Main definitions

* `Grammar.IsSentence` — some tokens are derived, and all rules are kept.
* `Token.Kind.isInner` — the kinds of tokens that stand within a statement.

## Main results

* `ExprPhrase.faults_eq_nil_iff`, `StmtPhrase.faults_eq_nil_iff` — nothing is noted about a phrase
  exactly if it is proper.
* `ExprPhrase.isInner`, `InitialPhrase.isInner` — no mark of a statement stands in these.
* `StmtPhrase.exists_nearestElse` — every phrase can be regrouped to have nearest alternatives.
* `Grammar.parse_eq_done` — what reading the tokens of a phrase gives.
* `Grammar.parse_accepts_sentences` — reading accepts exactly the sentences.
-/

namespace LoxLang

/-! ## Faults of improper expressions -/

/-- The name that an expression consists of. -/
def Expr.name? : Expr → Option Token
  | .variable name => some name
  | _ => none

/-- What consists of a name is that name. -/
lemma Expr.eq_variable_of_name? {e : Expr} {name : Token} (h : e.name? = some name) :
    e = .variable name := by
  cases e <;> simp_all [name?]

/-- The name that what is read consists of. -/
def ExprSymbol.name? : (s : ExprSymbol) → s.Tree → Option Token
  | primary, e | call, e | unary, e | operation _, e | expression, e => e.name?
  | arguments, [e] => e.name?
  | arguments, _ => none

/-- A target is at fault unless it is a name. -/
lemma targetFaults_eq_nil_iff (equals : Token) (e : Expr) :
    targetFaults equals e = [] ↔ ∃ name, e.name? = some name := by
  cases e <;> simp [targetFaults, Expr.name?]

/-- An item is at fault if there are too many before it. -/
lemma surplusFault_eq_nil_iff (surplus : SyntaxFault.Cause) (count : Nat) (next : Option Token) :
    surplusFault surplus count next = [] ↔ count < maxArity := by
  unfold surplusFault
  split <;> simp <;> omega

namespace ExprPhrase

variable {s : ExprSymbol}

/-- Every phrase has a token. -/
lemma tokens_ne_nil (p : ExprPhrase s) : p.tokens ≠ [] := by
  obtain ⟨t, ts, h, -⟩ := p.exists_tokens_eq_cons
  simp [h]

/-- There is at least one argument. -/
lemma tree_arguments_ne_nil (p : ExprPhrase .arguments) : p.tree ≠ [] := by
  cases p <;> simp [tree]

/-- An operator makes no name. -/
lemma name?_node (level : Level) (left : Expr) (operator : Token) (right : Expr) :
    (level.node left operator right).name? = none := by
  cases level <;> rfl

/-- An assignment is no name. -/
lemma name?_assigned (target value : Expr) : (target.assigned value).name? = none := by
  cases target <;> rfl

/-- A phrase is read as a name exactly if it is one. -/
lemma name?_tree_eq_some_iff (p : ExprPhrase s) (name : Token) :
    s.name? p.tree = some name ↔ p.tokens = [name] ∧ name.kind = .identifier := by
  induction p with
  | literal token value h =>
    have hk : token.kind ≠ .identifier := by
      intro hk
      simp [Token.constant?, Token.literal?, hk] at h
    simp only [tree, ExprSymbol.name?, Expr.name?, tokens, List.cons.injEq, and_true]
    constructor
    · intro hnone
      contradiction
    · rintro ⟨ht, hn⟩
      exact absurd (ht ▸ hn) hk
  | named name' =>
    simp only [tree, ExprSymbol.name?, Expr.name?, tokens, List.cons.injEq, and_true,
      Option.some.injEq]
    exact ⟨fun h => ⟨h, h ▸ name'.2⟩, And.left⟩
  | ofPrimary p ih | ofCall p ih | ofUnary p ih | looser _ _ p ih | plain p ih | single p ih => exact ih
  | grouping | callEmpty | call =>
    simp [tree, ExprSymbol.name?, Expr.name?, tokens, List.append_eq_singleton_iff]
  | unary operator h operand => simp [tree, ExprSymbol.name?, Expr.name?, tokens, tokens_ne_nil]
  | further init comma next =>
    have htree : ExprSymbol.name? .arguments (init.tree ++ [next.tree]) = none := by
      obtain ⟨e, es, h⟩ := List.exists_cons_of_ne_nil init.tree_arguments_ne_nil
      rw [h]
      cases es <;> rfl
    simp [tree, htree, tokens, List.append_eq_singleton_iff, tokens_ne_nil]
  | join level levels left operator h right =>
    simp [tree, ExprSymbol.name?, name?_node, tokens, List.append_eq_singleton_iff, tokens_ne_nil]
  | assign target equals value =>
    simp [tree, ExprSymbol.name?, name?_assigned, tokens, List.append_eq_singleton_iff,
      tokens_ne_nil]

/-- Nothing is noted about a phrase that is one token. -/
lemma faults_eq_nil_of_singleton (p : ExprPhrase s) {t : Token} (h : p.tokens = [t]) :
    p.faults = [] := by
  induction p with
  | literal | named => rfl
  | ofPrimary p ih | ofCall p ih | ofUnary p ih | looser _ _ p ih | plain p ih | single p ih =>
    exact ih h
  | grouping | callEmpty | call | unary | further | join | assign =>
    simp [tokens, List.append_eq_singleton_iff, tokens_ne_nil] at h

/-- A phrase has no more arguments than are allowed, if it is arguments by itself. -/
def Few : {s : ExprSymbol} → ExprPhrase s → Prop
  | .arguments, p => p.tree.length ≤ maxArity
  | _, _ => True

/-- Nothing is noted about a phrase exactly if it is proper, with no more arguments than are allowed
if it is arguments by itself. -/
lemma faults_eq_nil_iff_few (p : ExprPhrase s) : p.faults = [] ↔ p.Proper ∧ p.Few := by
  induction p with
  | literal | named => simp [faults, Proper, Few]
  | ofPrimary p ih | ofCall p ih | ofUnary p ih | looser _ _ p ih | plain p ih
  | grouping _ p _ ih | callEmpty p _ _ ih | unary _ _ p ih =>
    simpa [faults, Proper, Few] using ih
  | call callee opening arguments closing ihc iha =>
    simp only [faults, List.append_eq_nil_iff, ihc, iha]
    simp [Proper, Few]
  | single p ih =>
    simp only [faults, ih]
    simp [Proper, Few, tree, maxArity]
  | further init comma next ihi ihn =>
    simp only [faults, List.append_eq_nil_iff, ihi, ihn, surplusFault_eq_nil_iff]
    simp only [Proper, Few, tree, List.length_append, List.length_singleton]
    constructor
    · rintro ⟨⟨hi, -⟩, hl, hn, -⟩
      exact ⟨⟨hi, hn⟩, hl⟩
    · rintro ⟨⟨hi, hn⟩, hl⟩
      exact ⟨⟨hi, Nat.le_of_succ_le hl⟩, hl, hn, trivial⟩
  | join level levels left operator h right ihl ihr =>
    simp only [faults, List.append_eq_nil_iff, ihl, ihr]
    simp [Proper, Few]
  | assign target equals value iht ihv =>
    have hbare : (∃ name, target.tree.name? = some name) ↔ target.IsBare :=
      exists_congr fun name => target.name?_tree_eq_some_iff name
    simp only [faults, List.append_eq_nil_iff, ihv, targetFaults_eq_nil_iff, hbare]
    constructor
    · rintro ⟨-, ⟨hv, -⟩, hb⟩
      exact ⟨⟨hb, hv⟩, trivial⟩
    · rintro ⟨⟨hb, hv⟩, -⟩
      obtain ⟨name, hname, -⟩ := id hb
      exact ⟨target.faults_eq_nil_of_singleton hname, ⟨hv, trivial⟩, hb⟩

/-- **Nothing is noted about an expression exactly if it is proper.** -/
theorem faults_eq_nil_iff (p : ExprPhrase .expression) : p.faults = [] ↔ p.Proper := by
  rw [faults_eq_nil_iff_few]
  simp [Few]

/-- The same for an expression that may be left out. -/
lemma elim_faults_eq_nil_iff (p : Option (ExprPhrase .expression)) :
    p.elim [] faults = [] ↔ p.elim True Proper := by
  cases p with
  | none => simp
  | some p => exact p.faults_eq_nil_iff

end ExprPhrase

/-! ## Faults of improper statements -/

/-- There is at least one name, and nothing is noted about names that are not too many. -/
lemma NamesPhrase.faults_eq_nil_iff (p : NamesPhrase) :
    p.faults = [] ↔ p.tree.length ≤ maxArity := by
  induction p with
  | single name => simp [faults, tree, maxArity]
  | further init comma name ih =>
    simp only [faults, List.append_eq_nil_iff, ih, surplusFault_eq_nil_iff, tree,
      List.length_append, List.length_singleton]
    omega

/-- Nothing is noted about a declaration of a variable exactly if it is proper. -/
lemma VariablePhrase.faults_eq_nil_iff (v : VariablePhrase) : v.faults = [] ↔ v.Proper := by
  obtain ⟨keyword, name, initial, closing⟩ := v
  cases initial with
  | none => simp [faults, Proper]
  | some initial => exact initial.2.faults_eq_nil_iff

/-- Nothing is noted about what a `for` begins with exactly if it is proper. -/
lemma InitialPhrase.faults_eq_nil_iff (i : InitialPhrase) : i.faults = [] ↔ i.Proper := by
  cases i with
  | absent => simp [faults, Proper]
  | declared v => exact v.faults_eq_nil_iff
  | evaluated s => exact s.value.faults_eq_nil_iff

namespace StmtPhrase

/-- **Nothing is noted about a phrase exactly if it is proper.** -/
theorem faults_eq_nil_iff {s : StmtSymbol} (p : StmtPhrase s) (b : Bool) :
    p.faults b = [] ↔ p.Proper b := by
  induction p generalizing b with
  | evaluation s => exact s.value.faults_eq_nil_iff
  | printing _ value => exact value.faults_eq_nil_iff
  | returning keyword value closing =>
    simp only [faults, Proper, List.append_eq_nil_iff, ExprPhrase.elim_faults_eq_nil_iff]
    cases b <;> simp
  | block _ body _ ih => exact ih b
  | ifThen _ _ condition _ whenTrue ih =>
    simp only [faults, Proper, List.append_eq_nil_iff, condition.faults_eq_nil_iff, ih]
  | ifElse _ _ condition _ whenTrue _ whenFalse iht ihf =>
    simp only [faults, Proper, List.append_eq_nil_iff, condition.faults_eq_nil_iff, iht, ihf]
  | whileLoop _ _ condition _ body ih =>
    simp only [faults, Proper, List.append_eq_nil_iff, condition.faults_eq_nil_iff, ih]
  | forLoop _ _ initial condition _ step _ body ih =>
    simp only [faults, Proper, List.append_eq_nil_iff, initial.faults_eq_nil_iff,
      ExprPhrase.elim_faults_eq_nil_iff, ih]
  | function _ _ _ parameters _ _ body _ ih =>
    simp only [faults, Proper, List.append_eq_nil_iff, ih]
    cases parameters with
    | none => simp
    | some parameters => simp [parameters.faults_eq_nil_iff]
  | declared v => exact v.faults_eq_nil_iff
  | statement s ih => exact ih b
  | nil => simp [faults, Proper]
  | cons d ds ihd ihds => simp only [faults, Proper, List.append_eq_nil_iff, ihd, ihds]

/-! ## The nearest condition -/

/-- An alternative behind an open statement can be given to the nearest condition within it, which
changes nothing about the tokens and what is noted.

**Proof sketch.** Induction on the statement, into the part that it ends with. The innermost
condition that has no alternative takes it. -/
lemma exists_ifElse_of_isOpen {s : StmtSymbol} (p : StmtPhrase s) (hs : s = .statement)
    (hp : p.NearestElse) (ho : p.isOpen = true) (otherwise : Terminal .elseWord)
    (whenFalse : StmtPhrase .statement) (hf : whenFalse.NearestElse) :
    ∃ q : StmtPhrase s, q.tokens = p.tokens ++ otherwise.1 :: whenFalse.tokens ∧
      q.NearestElse ∧ ∀ b, q.faults b = p.faults b ++ whenFalse.faults b := by
  induction p with
  | ifThen keyword opening condition closing whenTrue ih =>
    cases hw : whenTrue.isOpen with
    | true =>
      obtain ⟨q, hq, hqe, hqf⟩ := ih rfl hp hw
      exact ⟨.ifThen keyword opening condition closing q, by simp [tokens, hq], hqe,
        by simp [faults, hqf]⟩
    | false =>
      exact ⟨.ifElse keyword opening condition closing whenTrue otherwise whenFalse,
        by simp [tokens], ⟨hw, hp, hf⟩, by simp [faults]⟩
  | ifElse keyword opening condition closing whenTrue otherwise' whenFalse' iht ihf =>
    obtain ⟨q, hq, hqe, hqf⟩ := ihf rfl hp.2.2 ho
    exact ⟨.ifElse keyword opening condition closing whenTrue otherwise' q, by simp [tokens, hq],
      ⟨hp.1, hp.2.1, hqe⟩, by simp [faults, hqf]⟩
  | whileLoop keyword opening condition closing body ih =>
    obtain ⟨q, hq, hqe, hqf⟩ := ih rfl hp ho
    exact ⟨.whileLoop keyword opening condition closing q, by simp [tokens, hq], hqe,
      by simp [faults, hqf]⟩
  | forLoop keyword opening initial condition middle step closing body ih =>
    obtain ⟨q, hq, hqe, hqf⟩ := ih rfl hp ho
    exact ⟨.forLoop keyword opening initial condition middle step closing q, by simp [tokens, hq],
      hqe, by simp [faults, hqf]⟩
  | evaluation | printing | returning | block | function | declared | nil | cons => contradiction
  | statement => contradiction

/-- **Every phrase can be regrouped to have nearest alternatives**, which changes nothing about its
tokens and what is noted.

**Proof sketch.** Induction on the phrase. Only an alternative behind an open branch has to move. -/
theorem exists_nearestElse {s : StmtSymbol} (p : StmtPhrase s) :
    ∃ q : StmtPhrase s, q.tokens = p.tokens ∧ q.NearestElse ∧ ∀ b, q.faults b = p.faults b := by
  induction p with
  | evaluation s => exact ⟨.evaluation s, rfl, trivial, fun _ => rfl⟩
  | printing keyword value closing => exact ⟨.printing keyword value closing, rfl, trivial, fun _ => rfl⟩
  | returning keyword value closing =>
    exact ⟨.returning keyword value closing, rfl, trivial, fun _ => rfl⟩
  | declared v => exact ⟨.declared v, rfl, trivial, fun _ => rfl⟩
  | nil => exact ⟨.nil, rfl, trivial, fun _ => rfl⟩
  | block opening body closing ih =>
    obtain ⟨q, hq, hqe, hqf⟩ := ih
    exact ⟨.block opening q closing, by simp [tokens, hq], hqe, hqf⟩
  | ifThen keyword opening condition closing whenTrue ih =>
    obtain ⟨q, hq, hqe, hqf⟩ := ih
    exact ⟨.ifThen keyword opening condition closing q, by simp [tokens, hq], hqe,
      by simp [faults, hqf]⟩
  | ifElse keyword opening condition closing whenTrue otherwise whenFalse iht ihf =>
    obtain ⟨p, hp, hpe, hpf⟩ := iht
    obtain ⟨q, hq, hqe, hqf⟩ := ihf
    cases ho : p.isOpen with
    | true =>
      obtain ⟨r, hr, hre, hrf⟩ := p.exists_ifElse_of_isOpen rfl hpe ho otherwise q hqe
      exact ⟨.ifThen keyword opening condition closing r, by simp [tokens, hr, hp, hq], hre,
        by simp [faults, hrf, hpf, hqf]⟩
    | false =>
      exact ⟨.ifElse keyword opening condition closing p otherwise q, by simp [tokens, hp, hq],
        ⟨ho, hpe, hqe⟩, by simp [faults, hpf, hqf]⟩
  | whileLoop keyword opening condition closing body ih =>
    obtain ⟨q, hq, hqe, hqf⟩ := ih
    exact ⟨.whileLoop keyword opening condition closing q, by simp [tokens, hq], hqe,
      by simp [faults, hqf]⟩
  | forLoop keyword opening initial condition middle step closing body ih =>
    obtain ⟨q, hq, hqe, hqf⟩ := ih
    exact ⟨.forLoop keyword opening initial condition middle step closing q, by simp [tokens, hq],
      hqe, by simp [faults, hqf]⟩
  | function keyword name opening parameters closing bodyOpening body bodyClosing ih =>
    obtain ⟨q, hq, hqe, hqf⟩ := ih
    exact ⟨.function keyword name opening parameters closing bodyOpening q bodyClosing,
      by simp [tokens, hq], hqe, by simp [faults, hqf]⟩
  | statement p ih =>
    obtain ⟨q, hq, hqe, hqf⟩ := ih
    exact ⟨.statement q, hq, hqe, hqf⟩
  | cons d ds ihd ihds =>
    obtain ⟨p, hp, hpe, hpf⟩ := ihd
    obtain ⟨q, hq, hqe, hqf⟩ := ihds
    exact ⟨.cons p q, by simp [tokens, hp, hq], ⟨hpe, hqe⟩, by simp [faults, hpf, hqf]⟩

end StmtPhrase

/-! ## Tokens within a statement -/

/-- Every kind of token but those that mark a statement, a block or the end. All tokens in an
expression, among names and in what a `for` begins with are of such kinds. -/
def Token.Kind.isInner : Token.Kind → Bool
  | .forWord | .ifWord | .elseWord | .whileWord | .printWord | .returnWord | .funWord | .leftBrace
  | .rightBrace | .endOfSource => false
  | _ => true

lemma Terminal.kind_eq {kind : Token.Kind} (t : Terminal kind) : t.1.kind = kind := t.2

/-- No mark of a statement stands in an expression. -/
lemma ExprPhrase.isInner {s : ExprSymbol} (p : ExprPhrase s) :
    ∀ t ∈ p.tokens, t.kind.isInner = true := by
  induction p with
  | literal token value h =>
    intro t ht
    obtain rfl : t = token := by simpa [tokens] using ht
    cases hk : t.kind <;> simp [Token.constant?, Token.literal?, hk] at h <;> rfl
  | unary operator h operand ih =>
    have hoperator : operator.kind.isInner = true := by
      cases hk : operator.kind <;> simp_all [Token.Kind.isUnary, Token.Kind.isInner]
    simpa [tokens, hoperator] using ih
  | join level levels left operator h right ihl ihr =>
    have hoperator : operator.kind.isInner = true := by
      cases hk : operator.kind <;> simp_all [Level.holds, Level.of?, Token.Kind.isInner]
    simp only [tokens, List.mem_append, List.mem_cons]
    rintro t (ht | rfl | ht)
    exacts [ihl t ht, hoperator, ihr t ht]
  | named | grouping | ofPrimary | callEmpty | call | single | further | ofCall | ofUnary | looser
  | plain | assign => simp_all [tokens, or_imp, Terminal.kind_eq, Token.Kind.isInner]

/-- No mark of a statement stands in an expression that may be left out. -/
lemma ExprPhrase.isInner_elim (p : Option (ExprPhrase .expression)) :
    ∀ t ∈ p.elim [] tokens, t.kind.isInner = true := by
  cases p with
  | none => simp
  | some p => exact p.isInner

lemma NamesPhrase.isInner (p : NamesPhrase) : ∀ t ∈ p.tokens, t.kind.isInner = true := by
  induction p with
  | single | further => simp_all [tokens, or_imp, Terminal.kind_eq, Token.Kind.isInner]

lemma VariablePhrase.isInner (v : VariablePhrase) : ∀ t ∈ v.tokens, t.kind.isInner = true := by
  obtain ⟨keyword, name, initial, closing⟩ := v
  cases initial with
  | none => simp [tokens, Terminal.kind_eq, Token.Kind.isInner]
  | some initial =>
    have := initial.2.isInner
    simp_all [tokens, or_imp, Terminal.kind_eq, Token.Kind.isInner]

lemma EvaluationPhrase.isInner (s : EvaluationPhrase) : ∀ t ∈ s.tokens, t.kind.isInner = true := by
  have := s.value.isInner
  simp_all [tokens, or_imp, Terminal.kind_eq, Token.Kind.isInner]

lemma InitialPhrase.isInner (i : InitialPhrase) : ∀ t ∈ i.tokens, t.kind.isInner = true := by
  cases i with
  | absent closing => simp [tokens, Terminal.kind_eq, Token.Kind.isInner]
  | declared v => exact v.isInner
  | evaluated s => exact s.isInner

/-! ## Whole programs -/

namespace Grammar

open LoxLang.Parser
open SyntaxFault (Quiet)

variable {depth : Nat} {tokens : List Token} {program : Slots} {faults : List SyntaxFault}

/-- More depth changes nothing about a program that can be read with less. -/
lemma parse_mono {more : Nat} (hd : depth ≤ more) (h : parse depth tokens = .done program faults) :
    parse more tokens = .done program faults := by
  unfold parse at h ⊢
  rcases Below.rows (fun _ => false) (below_declarationAt hd) false tokens with hr | hr
  · rw [hr] at h
    contradiction
  · rw [← hr]
    exact h

/-- **What reading the tokens of a phrase gives**: its tree and its faults. -/
theorem parse_eq_done (p : StmtPhrase .declarations) (hp : p.NearestElse) (hd : p.height ≤ depth) :
    parse depth p.tokens = .done p.tree (p.faults false) := by
  have hr := p.isRead hd hp false (fun _ => false) [] (by simp) (by simp)
  rw [List.append_nil, run_bind_of_ok (run_rows_nil _ _ _)] at hr
  rw [parse, hr]
  simp

/-- Whatever the limit on the depth is, the tokens of a phrase are read as its tree with its faults,
unless they nest deeper than the limit. -/
lemma eq_of_parse_tokens {p : StmtPhrase .declarations} (hp : p.NearestElse)
    (h : parse depth p.tokens = .done program faults) :
    p.tree = program ∧ p.faults false = faults := by
  have hmore := parse_mono (Nat.le_max_left depth p.height) h
  rw [parse_eq_done p hp (Nat.le_max_right depth p.height)] at hmore
  simpa using hmore

/-- Whatever is read without a failure is a phrase. -/
lemma exists_phrase_of_parse (h : parse depth tokens = .done program faults) (hq : Quiet faults) :
    ∃ p : StmtPhrase .declarations, p.tokens = tokens ∧ p.tree = program ∧
      p.faults false = faults ∧ p.height ≤ depth ∧ p.NearestElse := by
  unfold parse at h
  cases hr : (rows (fun _ => false) (declarationAt depth)).run false tokens with
  | tooDeep =>
    rw [hr] at h
    contradiction
  | failed rest noted =>
    rw [hr] at h
    obtain ⟨-, rfl⟩ : [] = program ∧ noted = faults := by simpa using h
    exact absurd hq (Raises.rows _ (raises_declarationAt depth) false tokens rest noted hr)
  | ok value rest noted =>
    rw [hr] at h
    obtain ⟨rfl, rfl⟩ : value = program ∧ noted = faults := by simpa using h
    obtain ⟨p, rfl, rfl, rfl, hn, he, hrest⟩ := yields_rows (yields_declarationAt depth).2 hr hq
    cases rest with
    | nil => exact ⟨p, by simp, rfl, rfl, hn, he⟩
    | cons t rest => exact absurd (hrest t (by simp)) (by simp)

/-- What reading the tokens of an expression by itself gives: its tree and its faults. -/
lemma parseExpression_eq_done (p : ExprPhrase .expression) (hd : p.height ≤ depth) :
    parseExpression depth p.tokens = .done (some p.tree) p.faults := by
  have hread : p.IsRead depth := p.isRead hd
  have hr := hread false [] (by simp [ExprSymbol.StopsAt])
  rw [List.append_nil] at hr
  rw [parseExpression, hr]

/-- What is read as an expression by itself is a phrase. -/
lemma exists_phrase_of_parseExpression {e : Expr}
    (h : parseExpression depth tokens = .done (some e) faults) :
    ∃ p : ExprPhrase .expression, p.tokens = tokens ∧ p.tree = e ∧ p.faults = faults ∧
      p.height ≤ depth := by
  unfold parseExpression at h
  cases hr : (expressionAt depth).run false tokens with
  | tooDeep | failed =>
    rw [hr] at h
    simp at h
  | ok value rest noted =>
    rw [hr] at h
    cases rest with
    | cons => simp at h
    | nil =>
      obtain ⟨rfl, rfl⟩ : value = e ∧ noted = faults := by simpa using h
      obtain ⟨p, rfl, htree, hfaults, hn⟩ := (yields_expressionAt depth).1 _ _ _ _ _ hr
      exact ⟨p, by simp, htree, hfaults, hn⟩

/-- Some tokens are a sentence: the grammar derives them, and the rules that it leaves out are
kept. -/
def IsSentence (tokens : List Token) : Prop :=
  ∃ p : StmtPhrase .declarations, p.tokens = tokens ∧ p.Proper false

/-- **Reading accepts exactly the sentences.** If reading some tokens does not give up, it notes no
fault exactly if they are a sentence. Every derivation of them with nearest alternatives has the
tree and the faults that reading gives, and a sentence has such a derivation, which keeps all rules.

**Proof sketch.** What is read without a fault is a phrase. Conversely a phrase, regrouped to have
nearest alternatives, is read as its tree with as much depth as it nests; with the depth at hand
reading did not give up, so it answers the same. -/
theorem parse_accepts_sentences (h : parse depth tokens = .done program faults) :
    (faults = [] ↔ IsSentence tokens) ∧
    (∀ p : StmtPhrase .declarations, p.tokens = tokens → p.NearestElse →
      p.tree = program ∧ p.faults false = faults) ∧
    (faults = [] → ∃ p : StmtPhrase .declarations,
      p.tokens = tokens ∧ p.Proper false ∧ p.NearestElse ∧ p.tree = program) := by
  have hunique : ∀ p : StmtPhrase .declarations, p.tokens = tokens → p.NearestElse →
      p.tree = program ∧ p.faults false = faults := by
    rintro p rfl hp
    have hmore := parse_mono (Nat.le_max_left depth p.height) h
    rw [parse_eq_done p hp (Nat.le_max_right depth p.height)] at hmore
    simpa using hmore
  have hphrase : faults = [] → ∃ p : StmtPhrase .declarations,
      p.tokens = tokens ∧ p.Proper false ∧ p.NearestElse ∧ p.tree = program := by
    rintro rfl
    obtain ⟨p, rfl, rfl, hf, -, hp⟩ := exists_phrase_of_parse h SyntaxFault.quiet_nil
    exact ⟨p, rfl, (p.faults_eq_nil_iff false).1 hf, hp, rfl⟩
  refine ⟨⟨fun hf => ?_, ?_⟩, hunique, hphrase⟩
  · obtain ⟨p, hp, hproper, -⟩ := hphrase hf
    exact ⟨p, hp, hproper⟩
  · rintro ⟨p, rfl, hproper⟩
    obtain ⟨q, hq, hqe, hqf⟩ := p.exists_nearestElse
    rw [← (hunique q hq hqe).2, hqf]
    exact (p.faults_eq_nil_iff false).2 hproper

/-- A token of a kind without a text. -/
def word (kind : Token.Kind) : Terminal kind := ⟨⟨kind, "", 1⟩, rfl⟩

/-- An operand as an operation of any level. -/
def operand (p : ExprPhrase .unary) : ExprPhrase (.operation Level.ordered) :=
  .looser _ _ (.looser _ _ (.looser _ _ (.looser _ _ (.looser _ _ (.looser _ _ (.ofUnary p))))))

/-- A literal as an expression. -/
def constant (token : Token) (value : Literal) (h : token.constant? = some value) :
    ExprPhrase .expression :=
  .plain (operand (.ofCall (.ofPrimary (.literal token value h))))

lemma constant?_nilWord : (word .nilWord).1.constant? = some .nil := rfl

lemma constant?_trueWord : (word .trueWord).1.constant? = some (.bool true) := rfl

/-- The derivation of `if (true) if (nil) print nil; else print true;` in which the alternative is
the inner one's. -/
def innerAlternative : StmtPhrase .declarations :=
  .cons (.statement (.ifThen (word .ifWord) (word .leftParen)
    (constant (word .trueWord).1 (.bool true) rfl) (word .rightParen)
    (.ifElse (word .ifWord) (word .leftParen)
      (constant (word .nilWord).1 .nil rfl) (word .rightParen)
      (.printing (word .printWord) (constant (word .nilWord).1 .nil rfl) (word .semicolon))
      (word .elseWord)
      (.printing (word .printWord) (constant (word .trueWord).1 (.bool true) rfl)
        (word .semicolon))))) .nil

/-- The alternative in `if (true) if (nil) print nil; else print true;` is the inner one's. -/
theorem parse_accepts_innerAlternative :
    parse 6 innerAlternative.tokens =
      .done [some (.branch (.literal (.bool true)) (.branch (.literal .nil)
        (.print (.literal .nil)) (some (.print (.literal (.bool true))))) none)] [] ∧
    IsSentence innerAlternative.tokens := by
  have h : parse 6 innerAlternative.tokens = .done innerAlternative.tree [] :=
    parse_eq_done innerAlternative ⟨⟨rfl, trivial, trivial⟩, trivial⟩ (by decide)
  exact ⟨h, (parse_accepts_sentences h).1.1 rfl⟩

end Grammar

end LoxLang
