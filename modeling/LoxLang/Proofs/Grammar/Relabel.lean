import Mathlib.Data.List.Forall2
import LoxLang.Proofs.Grammar.Sentence
import LoxLang.Proofs.Syntax.MapTokens

set_option autoImplicit false

/-!
# Phrases over other tokens

Reading looks at the kinds of tokens, and at the values of literals. So tokens that agree in these
with the tokens of a phrase make up a phrase of the same form, whose tree differs only in the tokens
that it keeps.

## Main definitions

* `Token.Carried` — a relation between tokens that reading does not tell apart.

## Main results

* `ExprPhrase.exists_of_forall₂`, `StmtPhrase.exists_of_forall₂` — the phrase over other tokens.
-/

namespace LoxLang

/-- Whether a token of a kind is a literal by itself. -/
def Token.Kind.isConstant : Token.Kind → Bool
  | .falseWord | .trueWord | .nilWord | .number | .string => true
  | _ => false

/-- Tokens of other kinds are no literals. -/
lemma Token.constant?_eq_none {t : Token} (h : t.kind.isConstant = false) : t.constant? = none := by
  unfold constant? literal?
  cases hk : t.kind <;> simp_all [Kind.isConstant]

/-- Tokens that are related have one kind and one value as literals, and look the same if they are
no literals. How they look is told by one function for each side. -/
structure Token.Carried (R : Token → Token → Prop) (g h : Token → Token) : Prop where
  kind_eq : ∀ {t u}, R t u → t.kind = u.kind
  constant_eq : ∀ {t u}, R t u → t.constant? = u.constant?
  same : ∀ {t u}, R t u → t.constant? = none → g t = h u

/-- What is related to a list of tokens in two parts is in two parts. -/
lemma exists_append_of_forall₂ {R : Token → Token → Prop} {ts ts' us : List Token}
    (h : List.Forall₂ R (ts ++ ts') us) :
    ∃ vs ws, us = vs ++ ws ∧ List.Forall₂ R ts vs ∧ List.Forall₂ R ts' ws := by
  induction ts generalizing us with
  | nil => exact ⟨[], us, rfl, .nil, h⟩
  | cons t ts ih =>
    obtain ⟨u, us, hu, hus, rfl⟩ := List.forall₂_cons_left_iff.1 h
    obtain ⟨vs, ws, rfl, hvs, hws⟩ := ih hus
    exact ⟨u :: vs, ws, rfl, .cons hu hvs, hws⟩

/-- What is related to one token in front of others is one token in front of others. -/
lemma exists_cons_of_forall₂ {R : Token → Token → Prop} {t : Token} {ts us : List Token}
    (h : List.Forall₂ R (t :: ts) us) : ∃ u vs, us = u :: vs ∧ R t u ∧ List.Forall₂ R ts vs := by
  obtain ⟨u, vs, hu, hvs, rfl⟩ := List.forall₂_cons_left_iff.1 h
  exact ⟨u, vs, rfl, hu, hvs⟩

/-- What is related to one token is one token. -/
lemma exists_of_forall₂_singleton {R : Token → Token → Prop} {t : Token} {us : List Token}
    (h : List.Forall₂ R [t] us) : ∃ u, us = [u] ∧ R t u := by
  obtain ⟨u, vs, rfl, hu, hvs⟩ := exists_cons_of_forall₂ h
  obtain rfl := List.forall₂_nil_left_iff.1 hvs
  exact ⟨u, rfl, hu⟩

/-- What is read, with all its tokens changed. -/
def ExprSymbol.mapTokens (f : Token → Token) : (s : ExprSymbol) → s.Tree → s.Tree
  | .primary, e | .call, e | .unary, e | .operation _, e | .expression, e => e.mapTokens f
  | .arguments, es => es.map (Expr.mapTokens f)

/-- The causes of faults, without their places. -/
def SyntaxFault.causes (faults : List SyntaxFault) : List SyntaxFault.Cause := faults.map cause

namespace SyntaxFault

@[simp] lemma causes_nil : causes [] = [] := rfl

@[simp] lemma causes_append (fs gs : List SyntaxFault) : causes (fs ++ gs) = causes fs ++ causes gs :=
  List.map_append

/-- There are no faults if there are no causes. -/
lemma eq_nil_of_causes {fs : List SyntaxFault} (h : causes fs = []) : fs = [] := by
  simpa [causes] using h

end SyntaxFault

open SyntaxFault (causes)

/-- Surplus items are counted; which ones they are makes no difference to the cause. -/
lemma causes_surplusFault (surplus : SyntaxFault.Cause) (count : Nat) (next next' : Option Token) :
    causes (surplusFault surplus count next) = causes (surplusFault surplus count next') := by
  unfold surplusFault
  split <;> rfl

section Trees

variable {g h : Token → Token} {e e' : Expr}

/-- Whether a target is at fault is seen from its shape. -/
lemma causes_targetFaults (heq : e'.mapTokens h = e.mapTokens g) (equals equals' : Token) :
    causes (targetFaults equals' e') = causes (targetFaults equals e) := by
  cases e <;> cases e' <;> simp_all [Expr.mapTokens, targetFaults, causes]

/-- What an assignment is read as is seen from the shape of its target. -/
lemma mapTokens_assigned {v v' : Expr} (heq : e'.mapTokens h = e.mapTokens g)
    (hv : v'.mapTokens h = v.mapTokens g) :
    (e'.assigned v').mapTokens h = (e.assigned v).mapTokens g := by
  cases e <;> cases e' <;> simp_all [Expr.mapTokens, Expr.assigned]

/-- An operator makes a tree of one shape. -/
lemma mapTokens_node (f : Token → Token) (level : Level) (left : Expr) (operator : Token)
    (right : Expr) : (level.node left operator right).mapTokens f =
      level.node (left.mapTokens f) (f operator) (right.mapTokens f) := by
  cases level <;> rfl

end Trees

/-! ## Expressions -/

namespace Token.Carried

variable {R : Token → Token → Prop} {g h : Token → Token}

/-- A token that is related to one of a kind is of that kind. -/
lemma terminal (hR : Carried R g h) {kind : Token.Kind} (t : Terminal kind) {u : Token}
    (hu : R t.1 u) : u.kind = kind := (hR.kind_eq hu).symm.trans t.2

/-- Tokens of a kind that is no literal look the same if they are related. -/
lemma same_of_kind (hR : Carried R g h) {t u : Token} (hu : R t u)
    (hk : t.kind.isConstant = false) : h u = g t := (hR.same hu (constant?_eq_none hk)).symm

end Token.Carried

/-- Operators are no literals. -/
lemma isConstant_of_holds {level : Level} {kind : Token.Kind} (h : level.holds kind = true) :
    kind.isConstant = false := by
  cases kind <;> simp_all [Level.holds, Level.of?, Token.Kind.isConstant]

/-- Operators in front of an operand are no literals. -/
lemma isConstant_of_isUnary {kind : Token.Kind} (h : kind.isUnary = true) :
    kind.isConstant = false := by
  cases kind <;> simp_all [Token.Kind.isUnary, Token.Kind.isConstant]

/-- A phrase has a copy over other tokens: it has these tokens, the same height, the same causes of
faults, and a tree that looks the same. -/
structure ExprPhrase.IsCopy (g h : Token → Token) {s : ExprSymbol} (p q : ExprPhrase s) : Prop where
  tree_eq : s.mapTokens h q.tree = s.mapTokens g p.tree
  causes_eq : causes q.faults = causes p.faults
  height_eq : q.height = p.height

/-- **The phrase over other tokens.** Related tokens make up a phrase of the same form.

**Proof sketch.** Induction on the phrase. Its tokens come apart as its parts do. -/
theorem ExprPhrase.exists_of_forall₂ {R : Token → Token → Prop} {g h : Token → Token}
    (hR : Token.Carried R g h) {s : ExprSymbol} (p : ExprPhrase s) {us : List Token}
    (hus : List.Forall₂ R p.tokens us) :
    ∃ q : ExprPhrase s, q.tokens = us ∧ p.IsCopy g h q := by
  induction p generalizing us with
  | literal token value hc =>
    obtain ⟨u, rfl, hu⟩ := exists_of_forall₂_singleton hus
    exact ⟨.literal u value ((hR.constant_eq hu).symm.trans hc), rfl, rfl, rfl, rfl⟩
  | named name =>
    obtain ⟨u, rfl, hu⟩ := exists_of_forall₂_singleton hus
    have hk := hR.terminal name hu
    have hsame : h u = g name.1 := hR.same_of_kind hu (by rw [name.2]; rfl)
    exact ⟨.named ⟨u, hk⟩, rfl, congrArg Expr.variable hsame, rfl, rfl⟩
  | grouping opening inner closing ih =>
    obtain ⟨o, vs, rfl, ho, hus⟩ := exists_cons_of_forall₂ hus
    obtain ⟨vs, ws, rfl, hvs, hws⟩ := exists_append_of_forall₂ hus
    obtain ⟨c, rfl, hc⟩ := exists_of_forall₂_singleton hws
    obtain ⟨q, rfl, hq⟩ := ih hvs
    exact ⟨.grouping ⟨o, hR.terminal opening ho⟩ q ⟨c, hR.terminal closing hc⟩, rfl,
      congrArg Expr.grouping hq.tree_eq, hq.causes_eq, hq.height_eq⟩
  | ofPrimary p ih =>
    obtain ⟨q, rfl, hq⟩ := ih hus
    exact ⟨.ofPrimary q, rfl, hq.tree_eq, hq.causes_eq, hq.height_eq⟩
  | callEmpty callee opening closing ih =>
    obtain ⟨vs, ws, rfl, hvs, hws⟩ := exists_append_of_forall₂ hus
    obtain ⟨o, xs, rfl, ho, hxs⟩ := exists_cons_of_forall₂ hws
    obtain ⟨c, rfl, hc⟩ := exists_of_forall₂_singleton hxs
    obtain ⟨q, rfl, hq⟩ := ih hvs
    have hsame : h c = g closing.1 := hR.same_of_kind hc (by rw [closing.2]; rfl)
    have htree : q.tree.mapTokens h = callee.tree.mapTokens g := hq.tree_eq
    refine ⟨.callEmpty q ⟨o, hR.terminal opening ho⟩ ⟨c, hR.terminal closing hc⟩, rfl, ?_,
      hq.causes_eq, hq.height_eq⟩
    simp [tree, ExprSymbol.mapTokens, Expr.mapTokens, Expr.mapTokensAll, htree, hsame]
  | call callee opening arguments closing ihc iha =>
    obtain ⟨vs, ws, rfl, hvs, hws⟩ := exists_append_of_forall₂ hus
    obtain ⟨o, xs, rfl, ho, hxs⟩ := exists_cons_of_forall₂ hws
    obtain ⟨ys, zs, rfl, hys, hzs⟩ := exists_append_of_forall₂ hxs
    obtain ⟨c, rfl, hc⟩ := exists_of_forall₂_singleton hzs
    obtain ⟨q, rfl, hq⟩ := ihc hvs
    obtain ⟨r, rfl, hr⟩ := iha hys
    have hsame : h c = g closing.1 := hR.same_of_kind hc (by rw [closing.2]; rfl)
    have htree : q.tree.mapTokens h = callee.tree.mapTokens g := hq.tree_eq
    have htrees : r.tree.map (Expr.mapTokens h) = arguments.tree.map (Expr.mapTokens g) := hr.tree_eq
    refine ⟨.call q ⟨o, hR.terminal opening ho⟩ r ⟨c, hR.terminal closing hc⟩, rfl, ?_, ?_, ?_⟩
    · simp [tree, ExprSymbol.mapTokens, Expr.mapTokens, Expr.mapTokensAll_eq_map, htree, htrees,
        hsame]
    · simp [faults, hq.causes_eq, hr.causes_eq]
    · simp [height, hq.height_eq, hr.height_eq]
  | single e ih =>
    obtain ⟨q, rfl, hq⟩ := ih hus
    exact ⟨.single q, rfl, congrArg (fun e => [e]) hq.tree_eq, hq.causes_eq, hq.height_eq⟩
  | further init comma next ihi ihn =>
    obtain ⟨vs, ws, rfl, hvs, hws⟩ := exists_append_of_forall₂ hus
    obtain ⟨c, xs, rfl, hc, hxs⟩ := exists_cons_of_forall₂ hws
    obtain ⟨q, rfl, hq⟩ := ihi hvs
    obtain ⟨r, rfl, hr⟩ := ihn hxs
    have htrees : q.tree.map (Expr.mapTokens h) = init.tree.map (Expr.mapTokens g) := hq.tree_eq
    have htree : r.tree.mapTokens h = next.tree.mapTokens g := hr.tree_eq
    have hlength : q.tree.length = init.tree.length := by
      simpa using congrArg List.length htrees
    refine ⟨.further q ⟨c, hR.terminal comma hc⟩ r, rfl, ?_, ?_, ?_⟩
    · simp [tree, ExprSymbol.mapTokens, htree, htrees]
    · simp only [faults, SyntaxFault.causes_append, hq.causes_eq, hr.causes_eq, hlength,
        causes_surplusFault _ _ r.tokens.head? next.tokens.head?]
    · simp [height, hq.height_eq, hr.height_eq]
  | unary operator hop operand ih =>
    obtain ⟨o, xs, rfl, ho, hxs⟩ := exists_cons_of_forall₂ hus
    obtain ⟨q, rfl, hq⟩ := ih hxs
    have hsame : h o = g operator := hR.same_of_kind ho (isConstant_of_isUnary hop)
    have htree : q.tree.mapTokens h = operand.tree.mapTokens g := hq.tree_eq
    have hop' : o.kind.isUnary = true := by rwa [← hR.kind_eq ho]
    refine ⟨.unary o hop' q, rfl, ?_, hq.causes_eq, congrArg (· + 1) hq.height_eq⟩
    simp [tree, ExprSymbol.mapTokens, Expr.mapTokens, htree, hsame]
  | ofCall c ih =>
    obtain ⟨q, rfl, hq⟩ := ih hus
    exact ⟨.ofCall q, rfl, hq.tree_eq, hq.causes_eq, congrArg (· + 1) hq.height_eq⟩
  | ofUnary u ih =>
    obtain ⟨q, rfl, hq⟩ := ih hus
    exact ⟨.ofUnary q, rfl, hq.tree_eq, hq.causes_eq, hq.height_eq⟩
  | looser level levels p ih =>
    obtain ⟨q, rfl, hq⟩ := ih hus
    exact ⟨.looser level levels q, rfl, hq.tree_eq, hq.causes_eq, hq.height_eq⟩
  | join level levels left operator hop right ihl ihr =>
    obtain ⟨vs, ws, rfl, hvs, hws⟩ := exists_append_of_forall₂ hus
    obtain ⟨o, xs, rfl, ho, hxs⟩ := exists_cons_of_forall₂ hws
    obtain ⟨q, rfl, hq⟩ := ihl hvs
    obtain ⟨r, rfl, hr⟩ := ihr hxs
    have hsame : h o = g operator := hR.same_of_kind ho (isConstant_of_holds hop)
    have hleft : q.tree.mapTokens h = left.tree.mapTokens g := hq.tree_eq
    have hright : r.tree.mapTokens h = right.tree.mapTokens g := hr.tree_eq
    refine ⟨.join level levels q o (by rwa [← hR.kind_eq ho]) r, rfl, ?_, ?_, ?_⟩
    · simp [tree, ExprSymbol.mapTokens, mapTokens_node, hleft, hright, hsame]
    · simp [faults, hq.causes_eq, hr.causes_eq]
    · simp [height, hq.height_eq, hr.height_eq]
  | plain p ih =>
    obtain ⟨q, rfl, hq⟩ := ih hus
    exact ⟨.plain q, rfl, hq.tree_eq, hq.causes_eq, congrArg (· + 1) hq.height_eq⟩
  | assign target equals value iht ihv =>
    obtain ⟨vs, ws, rfl, hvs, hws⟩ := exists_append_of_forall₂ hus
    obtain ⟨e, xs, rfl, he, hxs⟩ := exists_cons_of_forall₂ hws
    obtain ⟨q, rfl, hq⟩ := iht hvs
    obtain ⟨r, rfl, hr⟩ := ihv hxs
    have htarget : q.tree.mapTokens h = target.tree.mapTokens g := hq.tree_eq
    have hvalue : r.tree.mapTokens h = value.tree.mapTokens g := hr.tree_eq
    refine ⟨.assign q ⟨e, hR.terminal equals he⟩ r, rfl, mapTokens_assigned htarget hvalue, ?_, ?_⟩
    · simp only [faults, SyntaxFault.causes_append, hq.causes_eq, hr.causes_eq,
        causes_targetFaults htarget equals.1 e]
    · simp [height, hq.height_eq, hr.height_eq]

/-! ## Statements -/

/-- What is read, with all its tokens changed. -/
def StmtSymbol.mapTokens (f : Token → Token) : (s : StmtSymbol) → s.Tree → s.Tree
  | .statement, tree | .declaration, tree => tree.mapTokens f
  | .declarations, slots => Stmt.mapSlots f slots

/-- A loop has the shape of what it is written with. -/
lemma mapTokens_forLoop (f : Token → Token) (initial : Option Stmt) (condition step : Option Expr)
    (body : Stmt) : (Stmt.forLoop initial condition step body).mapTokens f =
      Stmt.forLoop (Stmt.mapSlot f initial) (condition.map (Expr.mapTokens f))
        (step.map (Expr.mapTokens f)) (body.mapTokens f) := by
  cases initial <;> cases condition <;> cases step <;> rfl

section Parts

variable {R : Token → Token → Prop} {g h : Token → Token} {us : List Token}

/-- An expression that may be missing, over other tokens. -/
lemma exists_elim_of_forall₂ (hR : Token.Carried R g h) (e : Option (ExprPhrase .expression))
    (hus : List.Forall₂ R (e.elim [] ExprPhrase.tokens) us) :
    ∃ e' : Option (ExprPhrase .expression), e'.elim [] ExprPhrase.tokens = us ∧
      (e'.map ExprPhrase.tree).map (Expr.mapTokens h) =
        (e.map ExprPhrase.tree).map (Expr.mapTokens g) ∧
      causes (e'.elim [] ExprPhrase.faults) = causes (e.elim [] ExprPhrase.faults) ∧
      e'.elim 0 ExprPhrase.height = e.elim 0 ExprPhrase.height := by
  cases e with
  | none =>
    obtain rfl := List.forall₂_nil_left_iff.1 hus
    exact ⟨none, rfl, rfl, rfl, rfl⟩
  | some e =>
    obtain ⟨q, rfl, hq⟩ := e.exists_of_forall₂ hR hus
    exact ⟨some q, rfl, congrArg some hq.tree_eq, hq.causes_eq, hq.height_eq⟩

/-- Names over other tokens. -/
lemma NamesPhrase.exists_of_forall₂ (hR : Token.Carried R g h) (p : NamesPhrase)
    (hus : List.Forall₂ R p.tokens us) :
    ∃ q : NamesPhrase, q.tokens = us ∧ q.tree.map h = p.tree.map g ∧
      causes q.faults = causes p.faults := by
  have hsame : ∀ (name : Terminal .identifier) {u : Token}, R name.1 u → h u = g name.1 :=
    fun name u hu => hR.same_of_kind hu (by rw [name.2]; rfl)
  induction p generalizing us with
  | single name =>
    obtain ⟨u, rfl, hu⟩ := exists_of_forall₂_singleton hus
    exact ⟨.single ⟨u, hR.terminal name hu⟩, rfl, congrArg (fun t => [t]) (hsame name hu), rfl⟩
  | further init comma name ih =>
    obtain ⟨vs, ws, rfl, hvs, hws⟩ := exists_append_of_forall₂ hus
    obtain ⟨c, xs, rfl, hc, hxs⟩ := exists_cons_of_forall₂ hws
    obtain ⟨u, rfl, hu⟩ := exists_of_forall₂_singleton hxs
    obtain ⟨q, rfl, htree, hcauses⟩ := ih hvs
    have hlength : q.tree.length = init.tree.length := by
      simpa using congrArg List.length htree
    refine ⟨.further q ⟨c, hR.terminal comma hc⟩ ⟨u, hR.terminal name hu⟩, rfl, ?_, ?_⟩
    · simp [tree, htree, hsame name hu]
    · simp only [faults, SyntaxFault.causes_append, hcauses, hlength,
        causes_surplusFault _ _ (some u) (some name.1)]

/-- Names that may be missing, over other tokens. -/
lemma exists_names_of_forall₂ (hR : Token.Carried R g h) (p : Option NamesPhrase)
    (hus : List.Forall₂ R (p.elim [] NamesPhrase.tokens) us) :
    ∃ q : Option NamesPhrase, q.elim [] NamesPhrase.tokens = us ∧
      (q.elim [] NamesPhrase.tree).map h = (p.elim [] NamesPhrase.tree).map g ∧
      causes (q.elim [] NamesPhrase.faults) = causes (p.elim [] NamesPhrase.faults) := by
  cases p with
  | none =>
    obtain rfl := List.forall₂_nil_left_iff.1 hus
    exact ⟨none, rfl, rfl, rfl⟩
  | some p =>
    obtain ⟨q, rfl, hq⟩ := p.exists_of_forall₂ hR hus
    exact ⟨some q, rfl, hq⟩

/-- A declaration of a variable over other tokens. -/
lemma VariablePhrase.exists_of_forall₂ (hR : Token.Carried R g h) (v : VariablePhrase)
    (hus : List.Forall₂ R v.tokens us) :
    ∃ w : VariablePhrase, w.tokens = us ∧ w.tree.mapTokens h = v.tree.mapTokens g ∧
      causes w.faults = causes v.faults ∧ w.height = v.height := by
  obtain ⟨keyword, name, initial, closing⟩ := v
  obtain ⟨k, vs, rfl, hk, hus⟩ := exists_cons_of_forall₂ hus
  obtain ⟨n, vs, rfl, hn, hus⟩ := exists_cons_of_forall₂ hus
  obtain ⟨vs, ws, rfl, hvs, hws⟩ := exists_append_of_forall₂ hus
  obtain ⟨c, rfl, hc⟩ := exists_of_forall₂_singleton hws
  have hname : h n = g name.1 := hR.same_of_kind hn (by rw [name.2]; rfl)
  cases initial with
  | none =>
    obtain rfl := List.forall₂_nil_left_iff.1 hvs
    refine ⟨⟨⟨k, hR.terminal keyword hk⟩, ⟨n, hR.terminal name hn⟩, none,
      ⟨c, hR.terminal closing hc⟩⟩, rfl, ?_, rfl, rfl⟩
    simp [tree, Stmt.mapTokens, hname]
  | some initial =>
    obtain ⟨equals, e⟩ := initial
    obtain ⟨eq, vs, rfl, heq, hvs⟩ := exists_cons_of_forall₂ hvs
    obtain ⟨q, rfl, hq⟩ := e.exists_of_forall₂ hR hvs
    have htree : q.tree.mapTokens h = e.tree.mapTokens g := hq.tree_eq
    refine ⟨⟨⟨k, hR.terminal keyword hk⟩, ⟨n, hR.terminal name hn⟩,
      some (⟨eq, hR.terminal equals heq⟩, q), ⟨c, hR.terminal closing hc⟩⟩, rfl, ?_,
      hq.causes_eq, hq.height_eq⟩
    simp [tree, Stmt.mapTokens, hname, htree]

/-- An expression and a semicolon over other tokens. -/
lemma EvaluationPhrase.exists_of_forall₂ (hR : Token.Carried R g h) (s : EvaluationPhrase)
    (hus : List.Forall₂ R s.tokens us) :
    ∃ t : EvaluationPhrase, t.tokens = us ∧ t.tree.mapTokens h = s.tree.mapTokens g ∧
      causes t.value.faults = causes s.value.faults ∧ t.value.height = s.value.height := by
  obtain ⟨value, closing⟩ := s
  obtain ⟨vs, ws, rfl, hvs, hws⟩ := exists_append_of_forall₂ hus
  obtain ⟨c, rfl, hc⟩ := exists_of_forall₂_singleton hws
  obtain ⟨q, rfl, hq⟩ := value.exists_of_forall₂ hR hvs
  exact ⟨⟨q, ⟨c, hR.terminal closing hc⟩⟩, rfl, congrArg Stmt.expression hq.tree_eq, hq.causes_eq,
    hq.height_eq⟩

/-- What a `for` begins with over other tokens. -/
lemma InitialPhrase.exists_of_forall₂ (hR : Token.Carried R g h) (i : InitialPhrase)
    (hus : List.Forall₂ R i.tokens us) :
    ∃ j : InitialPhrase, j.tokens = us ∧ Stmt.mapSlot h j.tree = Stmt.mapSlot g i.tree ∧
      causes j.faults = causes i.faults ∧ j.height = i.height := by
  cases i with
  | absent closing =>
    obtain ⟨c, rfl, hc⟩ := exists_of_forall₂_singleton hus
    exact ⟨.absent ⟨c, hR.terminal closing hc⟩, rfl, rfl, rfl, rfl⟩
  | declared v =>
    obtain ⟨w, rfl, htree, hrest⟩ := v.exists_of_forall₂ hR hus
    exact ⟨.declared w, rfl, congrArg some htree, hrest⟩
  | evaluated s =>
    obtain ⟨t, rfl, htree, hrest⟩ := s.exists_of_forall₂ hR hus
    exact ⟨.evaluated t, rfl, congrArg some htree, hrest⟩

end Parts

/-- A phrase has a copy over other tokens: it has these tokens, the same height, the same causes of
faults, and a tree that looks the same, and its alternatives belong to the same conditions. -/
structure StmtPhrase.IsCopy (g h : Token → Token) {s : StmtSymbol} (p q : StmtPhrase s) : Prop where
  tree_eq : s.mapTokens h q.tree = s.mapTokens g p.tree
  causes_eq : ∀ b, causes (q.faults b) = causes (p.faults b)
  height_eq : q.height = p.height
  isOpen_eq : q.isOpen = p.isOpen
  nearestElse : p.NearestElse → q.NearestElse

/-- **The phrase over other tokens.** Related tokens make up a phrase of the same form.

**Proof sketch.** Induction on the phrase. Its tokens come apart as its parts do. -/
theorem StmtPhrase.exists_of_forall₂ {R : Token → Token → Prop} {g h : Token → Token}
    (hR : Token.Carried R g h) {s : StmtSymbol} (p : StmtPhrase s) {us : List Token}
    (hus : List.Forall₂ R p.tokens us) :
    ∃ q : StmtPhrase s, q.tokens = us ∧ p.IsCopy g h q := by
  induction p generalizing us with
  | evaluation s =>
    obtain ⟨t, rfl, htree, hcauses, hheight⟩ := s.exists_of_forall₂ hR hus
    exact ⟨.evaluation t, rfl, htree, fun _ => hcauses, congrArg (· + 1) hheight, rfl, id⟩
  | printing keyword value closing =>
    obtain ⟨k, vs, rfl, hk, hus⟩ := exists_cons_of_forall₂ hus
    obtain ⟨vs, ws, rfl, hvs, hws⟩ := exists_append_of_forall₂ hus
    obtain ⟨c, rfl, hc⟩ := exists_of_forall₂_singleton hws
    obtain ⟨q, rfl, hq⟩ := value.exists_of_forall₂ hR hvs
    exact ⟨.printing ⟨k, hR.terminal keyword hk⟩ q ⟨c, hR.terminal closing hc⟩, rfl,
      congrArg Stmt.print hq.tree_eq, fun _ => hq.causes_eq, congrArg (· + 1) hq.height_eq, rfl, id⟩
  | returning keyword value closing =>
    obtain ⟨k, vs, rfl, hk, hus⟩ := exists_cons_of_forall₂ hus
    obtain ⟨vs, ws, rfl, hvs, hws⟩ := exists_append_of_forall₂ hus
    obtain ⟨c, rfl, hc⟩ := exists_of_forall₂_singleton hws
    obtain ⟨q, rfl, htree, hcauses, hheight⟩ := exists_elim_of_forall₂ hR value hvs
    have hsame : h k = g keyword.1 := hR.same_of_kind hk (by rw [keyword.2]; rfl)
    refine ⟨.returning ⟨k, hR.terminal keyword hk⟩ q ⟨c, hR.terminal closing hc⟩, rfl, ?_, ?_,
      congrArg (· + 1) hheight, rfl, id⟩
    · simp only [tree, StmtSymbol.mapTokens, Stmt.mapTokens, htree, hsame]
    · intro b
      simp only [faults, SyntaxFault.causes_append, hcauses]
      cases b <;> rfl
  | block opening body closing ih =>
    obtain ⟨o, vs, rfl, ho, hus⟩ := exists_cons_of_forall₂ hus
    obtain ⟨vs, ws, rfl, hvs, hws⟩ := exists_append_of_forall₂ hus
    obtain ⟨c, rfl, hc⟩ := exists_of_forall₂_singleton hws
    obtain ⟨q, rfl, hq⟩ := ih hvs
    exact ⟨.block ⟨o, hR.terminal opening ho⟩ q ⟨c, hR.terminal closing hc⟩, rfl,
      congrArg Stmt.block hq.tree_eq, hq.causes_eq, congrArg (· + 1) hq.height_eq, rfl,
      hq.nearestElse⟩
  | ifThen keyword opening condition closing whenTrue ih =>
    obtain ⟨k, vs, rfl, hk, hus⟩ := exists_cons_of_forall₂ hus
    obtain ⟨o, vs, rfl, ho, hus⟩ := exists_cons_of_forall₂ hus
    obtain ⟨vs, ws, rfl, hvs, hws⟩ := exists_append_of_forall₂ hus
    obtain ⟨c, ws, rfl, hc, hws⟩ := exists_cons_of_forall₂ hws
    obtain ⟨q, rfl, hq⟩ := condition.exists_of_forall₂ hR hvs
    obtain ⟨r, rfl, hr⟩ := ih hws
    have hcondition : q.tree.mapTokens h = condition.tree.mapTokens g := hq.tree_eq
    have hbranch : r.tree.mapTokens h = whenTrue.tree.mapTokens g := hr.tree_eq
    refine ⟨.ifThen ⟨k, hR.terminal keyword hk⟩ ⟨o, hR.terminal opening ho⟩ q
      ⟨c, hR.terminal closing hc⟩ r, rfl, ?_, ?_, ?_, rfl, hr.nearestElse⟩
    · simp [tree, StmtSymbol.mapTokens, Stmt.mapTokens, Stmt.mapSlot, hcondition, hbranch]
    · simp [faults, hq.causes_eq, hr.causes_eq]
    · simp [height, hq.height_eq, hr.height_eq]
  | ifElse keyword opening condition closing whenTrue otherwise whenFalse iht ihf =>
    obtain ⟨k, vs, rfl, hk, hus⟩ := exists_cons_of_forall₂ hus
    obtain ⟨o, vs, rfl, ho, hus⟩ := exists_cons_of_forall₂ hus
    obtain ⟨vs, ws, rfl, hvs, hws⟩ := exists_append_of_forall₂ hus
    obtain ⟨c, ws, rfl, hc, hws⟩ := exists_cons_of_forall₂ hws
    obtain ⟨ts, xs, rfl, hts, hxs⟩ := exists_append_of_forall₂ hws
    obtain ⟨e, xs, rfl, he, hxs⟩ := exists_cons_of_forall₂ hxs
    obtain ⟨q, rfl, hq⟩ := condition.exists_of_forall₂ hR hvs
    obtain ⟨r, rfl, hr⟩ := iht hts
    obtain ⟨r', rfl, hr'⟩ := ihf hxs
    have hcondition : q.tree.mapTokens h = condition.tree.mapTokens g := hq.tree_eq
    have hbranch : r.tree.mapTokens h = whenTrue.tree.mapTokens g := hr.tree_eq
    have hother : r'.tree.mapTokens h = whenFalse.tree.mapTokens g := hr'.tree_eq
    refine ⟨.ifElse ⟨k, hR.terminal keyword hk⟩ ⟨o, hR.terminal opening ho⟩ q
      ⟨c, hR.terminal closing hc⟩ r ⟨e, hR.terminal otherwise he⟩ r', rfl, ?_, ?_, ?_,
      hr'.isOpen_eq, ?_⟩
    · simp [tree, StmtSymbol.mapTokens, Stmt.mapTokens, Stmt.mapSlot, hcondition, hbranch, hother]
    · simp [faults, hq.causes_eq, hr.causes_eq, hr'.causes_eq]
    · simp [height, hq.height_eq, hr.height_eq, hr'.height_eq]
    · rintro ⟨hopen, htrue, hfalse⟩
      exact ⟨hr.isOpen_eq.trans hopen, hr.nearestElse htrue, hr'.nearestElse hfalse⟩
  | whileLoop keyword opening condition closing body ih =>
    obtain ⟨k, vs, rfl, hk, hus⟩ := exists_cons_of_forall₂ hus
    obtain ⟨o, vs, rfl, ho, hus⟩ := exists_cons_of_forall₂ hus
    obtain ⟨vs, ws, rfl, hvs, hws⟩ := exists_append_of_forall₂ hus
    obtain ⟨c, ws, rfl, hc, hws⟩ := exists_cons_of_forall₂ hws
    obtain ⟨q, rfl, hq⟩ := condition.exists_of_forall₂ hR hvs
    obtain ⟨r, rfl, hr⟩ := ih hws
    have hcondition : q.tree.mapTokens h = condition.tree.mapTokens g := hq.tree_eq
    have hbody : r.tree.mapTokens h = body.tree.mapTokens g := hr.tree_eq
    refine ⟨.whileLoop ⟨k, hR.terminal keyword hk⟩ ⟨o, hR.terminal opening ho⟩ q
      ⟨c, hR.terminal closing hc⟩ r, rfl, ?_, ?_, ?_, hr.isOpen_eq, hr.nearestElse⟩
    · simp [tree, StmtSymbol.mapTokens, Stmt.mapTokens, hcondition, hbody]
    · simp [faults, hq.causes_eq, hr.causes_eq]
    · simp [height, hq.height_eq, hr.height_eq]
  | forLoop keyword opening initial condition middle step closing body ih =>
    obtain ⟨k, vs, rfl, hk, hus⟩ := exists_cons_of_forall₂ hus
    obtain ⟨o, vs, rfl, ho, hus⟩ := exists_cons_of_forall₂ hus
    obtain ⟨vs, ws, rfl, hvs, hws⟩ := exists_append_of_forall₂ hus
    obtain ⟨es, xs, rfl, hes, hxs⟩ := exists_append_of_forall₂ hws
    obtain ⟨m, xs, rfl, hm, hxs⟩ := exists_cons_of_forall₂ hxs
    obtain ⟨ss, ys, rfl, hss, hys⟩ := exists_append_of_forall₂ hxs
    obtain ⟨c, ys, rfl, hc, hys⟩ := exists_cons_of_forall₂ hys
    obtain ⟨i, rfl, hitree, hicauses, hiheight⟩ := initial.exists_of_forall₂ hR hvs
    obtain ⟨e, rfl, hetree, hecauses, heheight⟩ := exists_elim_of_forall₂ hR condition hes
    obtain ⟨s, rfl, hstree, hscauses, hsheight⟩ := exists_elim_of_forall₂ hR step hss
    obtain ⟨r, rfl, hr⟩ := ih hys
    have hbody : r.tree.mapTokens h = body.tree.mapTokens g := hr.tree_eq
    refine ⟨.forLoop ⟨k, hR.terminal keyword hk⟩ ⟨o, hR.terminal opening ho⟩ i e
      ⟨m, hR.terminal middle hm⟩ s ⟨c, hR.terminal closing hc⟩ r, rfl, ?_, ?_, ?_, hr.isOpen_eq,
      hr.nearestElse⟩
    · simp only [tree, StmtSymbol.mapTokens, mapTokens_forLoop, hitree, hetree, hstree, hbody]
    · simp [faults, hicauses, hecauses, hscauses, hr.causes_eq]
    · simp [height, hiheight, heheight, hsheight, hr.height_eq]
  | function keyword name opening parameters closing bodyOpening body bodyClosing ih =>
    obtain ⟨k, vs, rfl, hk, hus⟩ := exists_cons_of_forall₂ hus
    obtain ⟨n, vs, rfl, hn, hus⟩ := exists_cons_of_forall₂ hus
    obtain ⟨o, vs, rfl, ho, hus⟩ := exists_cons_of_forall₂ hus
    obtain ⟨vs, ws, rfl, hvs, hws⟩ := exists_append_of_forall₂ hus
    obtain ⟨c, ws, rfl, hc, hws⟩ := exists_cons_of_forall₂ hws
    obtain ⟨b, ws, rfl, hb, hws⟩ := exists_cons_of_forall₂ hws
    obtain ⟨bs, xs, rfl, hbs, hxs⟩ := exists_append_of_forall₂ hws
    obtain ⟨d, rfl, hd⟩ := exists_of_forall₂_singleton hxs
    obtain ⟨q, rfl, hqtree, hqcauses⟩ := exists_names_of_forall₂ hR parameters hvs
    obtain ⟨r, rfl, hr⟩ := ih hbs
    have hname : h n = g name.1 := hR.same_of_kind hn (by rw [name.2]; rfl)
    have hbody : Stmt.mapSlots h r.tree = Stmt.mapSlots g body.tree := hr.tree_eq
    refine ⟨.function ⟨k, hR.terminal keyword hk⟩ ⟨n, hR.terminal name hn⟩
      ⟨o, hR.terminal opening ho⟩ q ⟨c, hR.terminal closing hc⟩ ⟨b, hR.terminal bodyOpening hb⟩ r
      ⟨d, hR.terminal bodyClosing hd⟩, rfl, ?_, ?_, congrArg (· + 1) hr.height_eq, rfl,
      hr.nearestElse⟩
    · simp only [tree, StmtSymbol.mapTokens, Stmt.mapTokens, hqtree, hname, hbody]
    · simp [faults, hqcauses, hr.causes_eq]
  | declared v =>
    obtain ⟨w, rfl, htree, hcauses, hheight⟩ := v.exists_of_forall₂ hR hus
    exact ⟨.declared w, rfl, htree, fun _ => hcauses, congrArg (· + 1) hheight, rfl, id⟩
  | statement s ih =>
    obtain ⟨q, rfl, hq⟩ := ih hus
    exact ⟨.statement q, rfl, hq.tree_eq, hq.causes_eq, congrArg (· + 1) hq.height_eq,
      hq.isOpen_eq, hq.nearestElse⟩
  | nil =>
    obtain rfl := List.forall₂_nil_left_iff.1 hus
    exact ⟨.nil, rfl, rfl, fun _ => rfl, rfl, rfl, id⟩
  | cons d ds ihd ihds =>
    obtain ⟨vs, ws, rfl, hvs, hws⟩ := exists_append_of_forall₂ hus
    obtain ⟨q, rfl, hq⟩ := ihd hvs
    obtain ⟨r, rfl, hr⟩ := ihds hws
    have hfirst : q.tree.mapTokens h = d.tree.mapTokens g := hq.tree_eq
    have hrest : Stmt.mapSlots h r.tree = Stmt.mapSlots g ds.tree := hr.tree_eq
    refine ⟨.cons q r, rfl, ?_, ?_, ?_, rfl, fun hn => ⟨hq.nearestElse hn.1, hr.nearestElse hn.2⟩⟩
    · simp [tree, StmtSymbol.mapTokens, Stmt.mapSlots, Stmt.mapSlot, hfirst, hrest]
    · simp [faults, hq.causes_eq, hr.causes_eq]
    · simp [height, hq.height_eq, hr.height_eq]

end LoxLang
