import LoxLang.Proofs.Grammar.Progress
import LoxLang.Proofs.Grammar.Sentence

set_option autoImplicit false

/-!
# What is noted without giving up

Three rules are not part of the grammar: an assignment is to a name, arguments and parameters are
not too many, and a return stands in a function body. Tokens that the grammar derives are read to
their end whatever they do to these rules: no declaration is left out, and each slip is noted once,
where it stands, even in a right side that the tree does not keep.

## Main definitions

* `Site`, `Site.faults` — what the rules are about, and what is at fault about it.
* `ExprPhrase.sites`, `StmtPhrase.sites` — all sites of a phrase.
* `Stmt.Filled`, `Stmt.AllFilled` — no slot is empty, at any depth.

## Main results

* `ExprPhrase.faults_perm`, `StmtPhrase.faults_perm` — what is noted about a phrase is what is at
  fault about its sites.
* `Grammar.parse_notes_slips` — reading what the grammar derives.
-/

namespace LoxLang

/-! ## Sites -/

/-- Whether a phrase is a name by itself can be told from its tokens. -/
instance {s : ExprSymbol} (p : ExprPhrase s) : Decidable p.IsBare :=
  decidable_of_iff (p.tokens.length = 1 ∧ ∀ t ∈ p.tokens, t.kind = .identifier) <| by
    simp only [ExprPhrase.IsBare, List.length_eq_one_iff]
    constructor
    · rintro ⟨⟨name, hname⟩, hkind⟩
      exact ⟨name, hname, hkind name (by simp [hname])⟩
    · rintro ⟨name, hname, hkind⟩
      exact ⟨⟨name, hname⟩, by simpa [hname]⟩

/-- A part of a program that a rule is about which the grammar leaves out. -/
inductive Site
  /-- An assignment to what stands on its left. -/
  | assignment (target : ExprPhrase (.operation Level.ordered)) (equals : Token)
  /-- The arguments of a call. -/
  | arguments (items : List (ExprPhrase .expression))
  /-- The parameters of a function. -/
  | parameters (names : List Token)
  /-- A return, inside or outside a function body. -/
  | returned (keyword : Token) (inFunction : Bool)

/-- What is at fault about a site. Nothing may be assigned to but a name, nothing may follow the
last allowed argument or parameter, and a return stands in a function body. -/
def Site.faults : Site → List SyntaxFault
  | assignment target equals => if target.IsBare then [] else [⟨.invalidTarget, some equals⟩]
  | arguments items => (items.drop maxArity).map fun e => ⟨.tooManyArguments, e.tokens.head?⟩
  | parameters names => (names.drop maxArity).map fun name => ⟨.tooManyParameters, some name⟩
  | returned keyword inFunction =>
    if inFunction then [] else [⟨.returnOutsideFunction, some keyword⟩]

/-- What is at fault about some sites. -/
def Site.allFaults (sites : List Site) : List SyntaxFault := sites.flatMap Site.faults

@[simp] lemma Site.allFaults_nil : allFaults [] = [] := rfl

@[simp] lemma Site.allFaults_cons (site : Site) (sites : List Site) :
    allFaults (site :: sites) = site.faults ++ allFaults sites := rfl

@[simp] lemma Site.allFaults_append (sites sites' : List Site) :
    allFaults (sites ++ sites') = allFaults sites ++ allFaults sites' :=
  List.flatMap_append

namespace ExprPhrase

/-- The arguments of a call one by one. -/
def items : {s : ExprSymbol} → ExprPhrase s → List (ExprPhrase .expression)
  | _, .single e => [e]
  | _, .further init _ next => init.items ++ [next]
  | _, _ => []

/-- The assignments and calls of an expression, those inside the right sides of improper assignments
included. -/
def sites : {s : ExprSymbol} → ExprPhrase s → List Site
  | _, .literal _ _ _ => []
  | _, .named _ => []
  | _, .grouping _ inner _ => inner.sites
  | _, .ofPrimary p => p.sites
  | _, .callEmpty callee _ _ => callee.sites
  | _, .call callee _ arguments _ => callee.sites ++ .arguments arguments.items :: arguments.sites
  | _, .single e => e.sites
  | _, .further init _ next => init.sites ++ next.sites
  | _, .unary _ _ operand => operand.sites
  | _, .ofCall c => c.sites
  | _, .ofUnary u => u.sites
  | _, .looser _ _ p => p.sites
  | _, .join _ _ left _ _ right => left.sites ++ right.sites
  | _, .plain p => p.sites
  | _, .assign target equals value => target.sites ++ (value.sites ++ [.assignment target equals.1])

end ExprPhrase

/-- The sites of a declaration of a variable. -/
def VariablePhrase.sites (v : VariablePhrase) : List Site := v.initial.elim [] fun (_, e) => e.sites

/-- The sites of what a `for` begins with. -/
def InitialPhrase.sites : InitialPhrase → List Site
  | absent _ => []
  | declared v => v.sites
  | evaluated s => s.value.sites

/-- The sites of a phrase inside or outside a function body. -/
def StmtPhrase.sites : (inFunction : Bool) → {s : StmtSymbol} → StmtPhrase s → List Site
  | _, _, .evaluation s => s.value.sites
  | _, _, .printing _ value _ => value.sites
  | inFunction, _, .returning keyword value _ =>
    .returned keyword.1 inFunction :: value.elim [] ExprPhrase.sites
  | inFunction, _, .block _ body _ => body.sites inFunction
  | inFunction, _, .ifThen _ _ condition _ whenTrue => condition.sites ++ whenTrue.sites inFunction
  | inFunction, _, .ifElse _ _ condition _ whenTrue _ whenFalse =>
    condition.sites ++ (whenTrue.sites inFunction ++ whenFalse.sites inFunction)
  | inFunction, _, .whileLoop _ _ condition _ body => condition.sites ++ body.sites inFunction
  | inFunction, _, .forLoop _ _ initial condition _ step _ body =>
    initial.sites ++ (condition.elim [] ExprPhrase.sites ++ (step.elim [] ExprPhrase.sites ++
      body.sites inFunction))
  | _, _, .function _ _ _ parameters _ _ body _ =>
    .parameters (parameters.elim [] NamesPhrase.tree) :: body.sites true
  | _, _, .declared v => v.sites
  | inFunction, _, .statement s => s.sites inFunction
  | _, _, .nil => []
  | inFunction, _, .cons d ds => d.sites inFunction ++ ds.sites inFunction

/-! ## Each slip is noted once -/

/-- One more item than some is at fault by itself if these are as many as allowed. -/
lemma map_drop_maxArity_append {α : Type} (items : List α) (item : α)
    (surplus : SyntaxFault.Cause) (place : α → Option Token) :
    ((items ++ [item]).drop maxArity).map (fun e => (⟨surplus, place e⟩ : SyntaxFault)) =
      (items.drop maxArity).map (fun e => ⟨surplus, place e⟩) ++
        surplusFault surplus items.length (place item) := by
  rw [List.drop_append, List.map_append, surplusFault]
  split
  · rw [Nat.sub_eq_zero_of_le ‹_›]
    rfl
  · have hnone : List.drop (maxArity - items.length) [item] = [] :=
      List.drop_eq_nil_of_le (by simp only [List.length_singleton]; omega)
    rw [hnone, List.map_nil]

/-- What is noted about names is noted about each one after the last allowed one. -/
lemma NamesPhrase.faults_eq (p : NamesPhrase) : p.faults = (Site.parameters p.tree).faults := by
  induction p with
  | single name => rfl
  | further init comma name ih =>
    rw [faults, ih, tree, Site.faults, Site.faults,
      map_drop_maxArity_append init.tree name.1 .tooManyParameters some]

namespace ExprPhrase

variable {s : ExprSymbol}

/-- Arguments are read one by one. -/
lemma length_items : ∀ p : ExprPhrase .arguments, p.items.length = p.tree.length
  | .single _ => rfl
  | .further init _ _ => by simp [items, tree, init.length_items]

/-- An assignment is at fault unless it is to a bare name. -/
lemma targetFaults_tree (target : ExprPhrase (.operation Level.ordered)) (equals : Token) :
    targetFaults equals target.tree = (Site.assignment target equals).faults := by
  have hbare : target.IsBare ↔ ∃ name, target.tree.name? = some name :=
    exists_congr fun name => (target.name?_tree_eq_some_iff name).symm
  rw [Site.faults]
  split
  · exact (targetFaults_eq_nil_iff equals _).2 (hbare.1 ‹_›)
  · rename_i hnot
    rw [hbare] at hnot
    cases htree : target.tree with
    | «variable» name => exact absurd ⟨name, by rw [htree]; rfl⟩ hnot
    | _ => rfl

/-- What is noted about arguments that are too many, if a phrase is arguments by itself. -/
def surplus : {s : ExprSymbol} → ExprPhrase s → List SyntaxFault
  | .arguments, p => (Site.arguments p.items).faults
  | _, _ => []

/-- **What is noted about an expression is what is at fault about its sites**, and about its items
if it is arguments by itself.

**Proof sketch.** Induction on the phrase. Surplus arguments are noted one by one, each in front of
what is noted about the argument, so that the order is not that of the sites. -/
theorem faults_perm_append_surplus (p : ExprPhrase s) :
    p.faults.Perm (Site.allFaults p.sites ++ p.surplus) := by
  induction p with
  | literal | named => exact .refl _
  | ofPrimary p ih | ofCall p ih | ofUnary p ih | looser _ _ p ih | plain p ih
  | grouping _ p _ ih | callEmpty p _ _ ih | unary _ _ p ih => exact ih
  | single e ih =>
    have hnone : (single e).surplus = [] := by simp [surplus, items, Site.faults, maxArity]
    rw [hnone]
    exact ih
  | call callee opening arguments closing ihc iha =>
    have hcallee : callee.faults.Perm (Site.allFaults callee.sites) := by simpa [surplus] using ihc
    simp only [faults, sites, Site.allFaults_append, Site.allFaults_cons, surplus, List.append_nil]
    exact hcallee.append (iha.trans List.perm_append_comm)
  | further init comma next ihi ihn =>
    have hnext : next.faults.Perm (Site.allFaults next.sites) := by simpa [surplus] using ihn
    have hsurplus : (further init comma next).surplus = init.surplus ++
        surplusFault .tooManyArguments init.tree.length next.tokens.head? := by
      simp only [surplus, Site.faults, items, map_drop_maxArity_append, length_items]
    have hregroup := (@List.perm_append_comm _ (init.surplus ++
      surplusFault .tooManyArguments init.tree.length next.tokens.head?)
        (Site.allFaults next.sites)).append_left (Site.allFaults init.sites)
    rw [hsurplus, faults, sites, Site.allFaults_append]
    refine (ihi.append (hnext.append_left _)).trans ?_
    simpa only [List.append_assoc] using hregroup
  | join level levels left operator h right ihl ihr =>
    simp only [surplus, List.append_nil] at ihl ihr ⊢
    simpa only [faults, sites, Site.allFaults_append] using ihl.append ihr
  | assign target equals value iht ihv =>
    simp only [surplus, List.append_nil] at iht ihv ⊢
    simp only [faults, sites, Site.allFaults_append, Site.allFaults_cons, Site.allFaults_nil,
      List.append_nil, targetFaults_tree]
    exact iht.append (ihv.append_right _)

/-- **What is noted about an expression is what is at fault about its sites.** -/
theorem faults_perm (p : ExprPhrase .expression) : p.faults.Perm (Site.allFaults p.sites) := by
  simpa [surplus] using p.faults_perm_append_surplus

/-- The same for an expression that may be left out. -/
lemma elim_faults_perm (p : Option (ExprPhrase .expression)) :
    (p.elim [] faults).Perm (Site.allFaults (p.elim [] sites)) := by
  cases p with
  | none => exact .refl _
  | some p => exact p.faults_perm

end ExprPhrase

/-- What is noted about a declaration of a variable is what is at fault about its sites. -/
lemma VariablePhrase.faults_perm (v : VariablePhrase) :
    v.faults.Perm (Site.allFaults v.sites) := by
  obtain ⟨keyword, name, initial, closing⟩ := v
  cases initial with
  | none => exact .refl _
  | some initial => exact initial.2.faults_perm

/-- What is noted about what a `for` begins with is what is at fault about its sites. -/
lemma InitialPhrase.faults_perm (i : InitialPhrase) : i.faults.Perm (Site.allFaults i.sites) := by
  cases i with
  | absent => exact .refl _
  | declared v => exact v.faults_perm
  | evaluated s => exact s.value.faults_perm

namespace StmtPhrase

/-- **What is noted about a phrase is what is at fault about its sites.** -/
theorem faults_perm {s : StmtSymbol} (p : StmtPhrase s) (b : Bool) :
    (p.faults b).Perm (Site.allFaults (p.sites b)) := by
  induction p generalizing b with
  | evaluation s => exact s.value.faults_perm
  | printing _ value => exact value.faults_perm
  | returning keyword value => exact (ExprPhrase.elim_faults_perm value).append_left _
  | block _ _ _ ih | statement _ ih => exact ih b
  | ifThen _ _ condition _ _ ih | whileLoop _ _ condition _ _ ih =>
    simpa only [faults, sites, Site.allFaults_append] using condition.faults_perm.append (ih b)
  | ifElse _ _ condition _ _ _ _ iht ihf =>
    simpa only [faults, sites, Site.allFaults_append] using
      condition.faults_perm.append ((iht b).append (ihf b))
  | forLoop _ _ initial condition _ step _ _ ih =>
    simpa only [faults, sites, Site.allFaults_append] using
      initial.faults_perm.append ((ExprPhrase.elim_faults_perm condition).append
        ((ExprPhrase.elim_faults_perm step).append (ih b)))
  | function _ _ _ parameters _ _ _ _ ih =>
    have hparameters : parameters.elim [] NamesPhrase.faults =
        (Site.parameters (parameters.elim [] NamesPhrase.tree)).faults := by
      cases parameters with
      | none => rfl
      | some parameters => exact parameters.faults_eq
    simpa only [faults, sites, Site.allFaults_cons, hparameters] using (ih true).append_left _
  | declared v => exact v.faults_perm
  | nil => exact .refl _
  | cons _ _ ihd ihds =>
    simpa only [faults, sites, Site.allFaults_append] using (ihd b).append (ihds b)

end StmtPhrase

/-! ## No slot is left empty -/

mutual

/-- No slot of a statement is empty, at any depth. -/
def Stmt.Filled : Stmt → Prop
  | .block body => Stmt.AllFilled body
  | .branch _ whenTrue none => whenTrue.Filled
  | .branch _ whenTrue (some whenFalse) => whenTrue.Filled ∧ whenFalse.Filled
  | .loop _ body => body.Filled
  | .function _ _ body => Stmt.AllFilled body
  | .expression _ | .print _ | .var _ _ | .return _ _ => True

/-- No slot of some is empty, at any depth. -/
def Stmt.AllFilled : List (Option Stmt) → Prop
  | [] => True
  | none :: _ => False
  | some statement :: rest => statement.Filled ∧ Stmt.AllFilled rest

end

/-- The block and loop that a `for` stands for have no empty slot if its parts have none. -/
lemma Stmt.filled_forLoop {initial : Option Stmt} {condition step : Option Expr} {body : Stmt}
    (hi : ∀ st ∈ initial, st.Filled) (hbody : body.Filled) :
    (Stmt.forLoop initial condition step body).Filled := by
  cases initial with
  | none =>
    cases step with
    | none => exact hbody
    | some e => exact ⟨hbody, trivial, trivial⟩
  | some st =>
    cases step with
    | none => exact ⟨hi st rfl, hbody, trivial⟩
    | some e => exact ⟨hi st rfl, ⟨hbody, trivial, trivial⟩, trivial⟩

/-- What a phrase of a symbol is read as has no empty slot. -/
def StmtSymbol.Filled : (s : StmtSymbol) → s.Tree → Prop
  | statement, st | declaration, st => st.Filled
  | declarations, slots => Stmt.AllFilled slots

/-- **The tree of a phrase has no empty slot**, whatever the phrase does to the rules. -/
theorem StmtPhrase.filled_tree {s : StmtSymbol} (p : StmtPhrase s) : s.Filled p.tree := by
  induction p with
  | evaluation | printing | returning | declared | nil => trivial
  | block _ _ _ ih | ifThen _ _ _ _ _ ih | whileLoop _ _ _ _ _ ih
  | function _ _ _ _ _ _ _ _ ih | statement _ ih => exact ih
  | ifElse _ _ _ _ _ _ _ iht ihf => exact ⟨iht, ihf⟩
  | forLoop _ _ initial condition _ step _ body ih =>
    refine Stmt.filled_forLoop (fun st hst => ?_) ih
    cases initial with
    | absent => contradiction
    | declared v => obtain rfl := Option.some.inj hst; trivial
    | evaluated s => obtain rfl := Option.some.inj hst; trivial
  | cons _ _ ihd ihds => exact ⟨ihd, ihds⟩

/-! ## Whole programs -/

namespace Grammar

/-- **What the grammar derives is read to its end, and each slip is noted once.** The three rules
that the grammar leaves out never make reading give up: no slot is left empty, the tree is that of
the derivation with nearest alternatives (in which an improper assignment is its left side), and
whatever derivation is looked at, the faults are those of its sites.

**Proof sketch.** A derivation, regrouped to have nearest alternatives, is read as its tree with as
much depth as it nests; with the depth at hand reading did not give up, so it answers the same. -/
theorem parse_notes_slips (depth : Nat) (p : StmtPhrase .declarations) :
    (2 * p.tokens.length + 4 ≤ depth → parse depth p.tokens ≠ .tooDeep) ∧
    ∀ program faults, parse depth p.tokens = .done program faults →
      Stmt.AllFilled program ∧
      (∃ q : StmtPhrase .declarations,
        q.tokens = p.tokens ∧ q.NearestElse ∧ program = q.tree ∧ faults = q.faults false) ∧
      (p.NearestElse → program = p.tree) ∧
      faults.Perm (Site.allFaults (p.sites false)) := by
  refine ⟨parse_ne_tooDeep, fun program faults h => ?_⟩
  obtain ⟨q, hq, hqe, hqf⟩ := p.exists_nearestElse
  obtain ⟨rfl, rfl⟩ := eq_of_parse_tokens hqe (hq ▸ h)
  refine ⟨q.filled_tree, ⟨q, hq, hqe, rfl, rfl⟩, fun hp => (eq_of_parse_tokens hp h).1.symm, ?_⟩
  rw [hqf]
  exact p.faults_perm false

/-- The derivation of `return nil = (nil = true);`, in which no assignment is to a name. The second
mark for an assignment stands on a line of its own. -/
def lostAssignment : StmtPhrase .declarations :=
  let target := operand (.ofCall (.ofPrimary (.literal (word .nilWord).1 .nil constant?_nilWord)))
  let inner := .assign target ⟨⟨.equal, "=", 2⟩, rfl⟩
    (constant (word .trueWord).1 (.bool true) constant?_trueWord)
  let value := .plain (operand (.ofCall (.ofPrimary
    (.grouping (word .leftParen) inner (word .rightParen)))))
  .cons (.statement (.returning (word .returnWord)
    (some (.assign target (word .equal) value)) (word .semicolon))) .nil

/-- In `return nil = (nil = true);` three slips are noted, one of them inside the right side that is
lost. -/
theorem parse_notes_slips_lostAssignment : ∃ faults,
    parse 22 lostAssignment.tokens =
      .done [some (.return ⟨.returnWord, "", 1⟩ (some (.literal .nil)))] faults ∧
    faults.Perm [⟨.returnOutsideFunction, some ⟨.returnWord, "", 1⟩⟩,
      ⟨.invalidTarget, some ⟨.equal, "=", 2⟩⟩, ⟨.invalidTarget, some ⟨.equal, "", 1⟩⟩] := by
  obtain ⟨hdeep, hdone⟩ := parse_notes_slips 22 lostAssignment
  cases h : parse 22 lostAssignment.tokens with
  | tooDeep => exact absurd h (hdeep (by decide))
  | done program faults =>
    obtain ⟨-, -, htree, hfaults⟩ := hdone program faults h
    obtain rfl := htree ⟨trivial, trivial⟩
    exact ⟨faults, rfl, hfaults⟩

end Grammar

end LoxLang
