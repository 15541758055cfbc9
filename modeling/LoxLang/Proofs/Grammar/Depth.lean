import LoxLang.Proofs.Grammar.Running

set_option autoImplicit false

/-!
# Depth and failure

Two properties that all parsers of the grammar have, shown for each way to make a parser from
others. A parser with more depth gives the same answer as one with less that did not give up; and a
parser that fails has noted a fault that says what it asked for.

## Main definitions

* `Reply.Below`, `Parser.Below` — the same answer, unless the first one gave up.
* `SyntaxFault.Quiet` — no fault among some is one at which a parser fails.
* `Parser.Raises` — a parser that fails notes such a fault.

## Main results

* `Grammar.below_declarationAt` — more depth changes no answer.
* `Grammar.raises_expressionAt`, `Grammar.raises_statementAt` — no failure is silent.
-/

namespace LoxLang

variable {α β : Type}

/-! ## Depth -/

namespace Reply

/-- A reply is another one unless it gave up. -/
def Below (r s : Reply α) : Prop := r = .tooDeep ∨ r = s

namespace Below

variable {r s : Reply α}

@[refl] lemma refl (r : Reply α) : r.Below r := .inr rfl

lemma trans {t : Reply α} (h : r.Below s) (h' : s.Below t) : r.Below t := by
  rcases h with h | rfl
  · exact .inl h
  · exact h'

lemma after (h : r.Below s) (noted : List SyntaxFault) : (r.after noted).Below (s.after noted) := by
  rcases h with rfl | rfl
  · exact .inl rfl
  · exact refl _

end Below

end Reply

namespace Parser

/-- A parser answers as another one does, unless it gives up. -/
def Below (p q : Parser α) : Prop := ∀ b ts, (p.run b ts).Below (q.run b ts)

namespace Below

variable {p q : Parser α}

lemma refl (p : Parser α) : p.Below p := fun _ _ => .refl _

lemma trans {r : Parser α} (h : p.Below q) (h' : q.Below r) : p.Below r :=
  fun b ts => (h b ts).trans (h' b ts)

lemma bind {f g : α → Parser β} (h : p.Below q) (hf : ∀ v, (f v).Below (g v)) :
    (p >>= f).Below (q >>= g) := by
  intro b ts
  rw [run_bind, run_bind]
  rcases h b ts with h | h
  · rw [h]
    exact .inl rfl
  · rw [h]
    cases q.run b ts with
    | ok v rest faults => exact (hf v b rest).after faults
    | failed => exact .refl _
    | tooDeep => exact .refl _

lemma select {table table' : Token.Kind → Option (Token → Parser α)}
    (ht : ∀ kind, Option.Rel (fun f g => ∀ t, (f t).Below (g t)) (table kind) (table' kind))
    (h : p.Below q) : (select table p).Below (select table' q) := by
  intro b ts
  cases ts with
  | nil => exact h b []
  | cons t rest =>
    simp only [Parser.select]
    generalize table t.kind = entry, table' t.kind = entry', ht t.kind = hr
    cases hr with
    | some hf => exact hf t b rest
    | none => exact h b _

/-- **Loops with more depth in each round**: they go the same way, unless the first gives up.

**Proof sketch.** Induction on the number of tokens. A round takes a token, so what it leaves is
shorter than what it got. -/
lemma folding {enter : Token.Kind → Bool} {step step' : α → Token → Parser α}
    (h : ∀ v t, (step v t).Below (step' v t)) (v : α) :
    (folding enter step v).Below (folding enter step' v) := by
  intro b ts
  induction hn : ts.length using Nat.strongRecOn generalizing v ts with
  | ind n ih =>
    cases ts with
    | nil => exact .inr (by simp)
    | cons t rest =>
      rw [run_folding_cons, run_folding_cons]
      by_cases he : enter t.kind = true
      · rw [if_pos he, if_pos he, run_bind, run_bind]
        rcases h v t b rest with h' | h'
        · rw [h']
          exact .inl rfl
        · have hw := (step' v t).within b rest
          rw [h']
          cases hr : (step' v t).run b rest with
          | ok w left faults =>
            rw [hr] at hw
            have := List.IsSuffix.length_le hw
            exact (ih left.length (by simp at hn; omega) w left rfl).after faults
          | failed => exact .refl _
          | tooDeep => exact .refl _
      · rw [if_neg he, if_neg he]

/-- **Rows with more depth in each**: they are read the same way, unless the first gives up.

**Proof sketch.** Induction on the number of tokens, of which each row takes at least one. -/
lemma rows {p q : Advancing α} (stop : Token.Kind → Bool) (h : p.toParser.Below q.toParser) :
    (rows stop p).Below (rows stop q) := by
  intro b ts
  induction hn : ts.length using Nat.strongRecOn generalizing ts with
  | ind n ih =>
    cases ts with
    | nil => exact .inr (by simp)
    | cons t rest =>
      rw [run_rows_cons, run_rows_cons]
      by_cases hs : stop t.kind = true
      · rw [if_pos hs, if_pos hs]
      · rw [if_neg hs, if_neg hs, run_bind, run_bind]
        rcases h b (t :: rest) with h' | h'
        · rw [h']
          exact .inl rfl
        · have ha := q.advances b t rest
          rw [h']
          cases hr : q.run b (t :: rest) with
          | ok v left faults =>
            rw [hr] at ha
            simp only [Reply.Shorter] at ha
            refine Reply.Below.after ?_ faults
            rw [run_bind, run_bind]
            rcases ih left.length (by omega) left rfl with h'' | h''
            · rw [h'']
              exact .inl rfl
            · rw [h'']
          | failed => exact .refl _
          | tooDeep => exact .refl _

end Below

end Parser

namespace Grammar

open LoxLang.Parser

section Below

variable {p q : Parser α} {e e' u u' : Parser Expr} {st st' : Parser Stmt}
  {d d' : Advancing (Option Stmt)}

lemma below_unlessNext (kind : Token.Kind) (h : p.Below q) :
    (unlessNext kind p).Below (unlessNext kind q) := by
  unfold unlessNext
  refine .bind (.refl _) fun next => ?_
  split
  · exact .refl _
  · exact .bind h fun v => .refl _

lemma below_listed (surplus : SyntaxFault.Cause) (h : p.Below q) :
    (listed p surplus).Below (listed q surplus) := by
  refine .bind h fun v => .bind (.folding (fun items _ => ?_) _) fun _ => .refl _
  dsimp only
  split
  · exact .bind (.refl _) fun _ => .bind h fun _ => .refl _
  · exact .bind h fun _ => .refl _

lemma below_chain (level : Level) (hu : u.Below u') : (chain level u).Below (chain level u') :=
  .bind hu fun _ => .folding (fun _ _ => .bind hu fun _ => .refl _) _

lemma below_operation (h : u.Below u') : (operation u).Below (operation u') := by
  unfold operation
  induction Level.ordered with
  | nil => exact h
  | cons level levels ih => exact below_chain level ih

lemma below_assignment (hu : u.Below u') (he : e.Below e') :
    (assignment u e).Below (assignment u' e') := by
  refine .bind hu fun left => .bind (.refl _) fun equals => ?_
  cases equals with
  | none => exact .refl _
  | some t => exact .bind he fun _ => .refl _

lemma below_primary (he : e.Below e') : (primary e).Below (primary e') := by
  refine .select (fun kind => ?_) (.refl _)
  cases kind
  case leftParen => exact .some fun _ => .bind he fun _ => .refl _
  all_goals first | exact .none | exact .some fun _ => .refl _

lemma below_call (he : e.Below e') : (call e).Below (call e') := by
  refine .bind (below_primary he) fun callee => .folding (fun callee t => ?_) callee
  exact .bind (below_unlessNext _ (below_listed _ he)) fun _ => .refl _

lemma below_unary (hu : u.Below u') (he : e.Below e') : (unary u e).Below (unary u' e') := by
  refine .bind (.refl _) fun operator => ?_
  cases operator with
  | none => exact below_call he
  | some t => exact .bind hu fun _ => .refl _

lemma below_variableDeclaration (he : e.Below e') :
    (variableDeclaration e).Below (variableDeclaration e') := by
  refine .bind (.refl _) fun name => .bind (.refl _) fun equals => ?_
  cases equals with
  | none => exact .refl _
  | some t => exact .bind he fun _ => .refl _

lemma below_expressionStatement (he : e.Below e') :
    (expressionStatement e).toParser.Below (expressionStatement e').toParser :=
  .bind he fun _ => .refl _

lemma below_forInitial (he : e.Below e') : (forInitial e).Below (forInitial e') := by
  refine .select (fun kind => ?_) (.bind (below_expressionStatement he) fun _ => .refl _)
  cases kind
  case varWord => exact .some fun _ => .bind (below_variableDeclaration he) fun _ => .refl _
  all_goals first | exact .none | exact .some fun _ => .refl _

lemma below_forStatement (he : e.Below e') (hs : st.Below st') :
    (forStatement e st).Below (forStatement e' st') :=
  .bind (.refl _) fun _ => .bind (below_forInitial he) fun _ =>
    .bind (below_unlessNext _ he) fun _ => .bind (.refl _) fun _ =>
      .bind (below_unlessNext _ he) fun _ => .bind (.refl _) fun _ => .bind hs fun _ => .refl _

lemma below_ifStatement (he : e.Below e') (hs : st.Below st') :
    (ifStatement e st).Below (ifStatement e' st') := by
  refine .bind (.refl _) fun _ => .bind he fun _ => .bind (.refl _) fun _ => .bind hs fun _ =>
    .bind (.refl _) fun otherwise => ?_
  cases otherwise with
  | none => exact .refl _
  | some t => exact .bind hs fun _ => .refl _

lemma below_whileStatement (he : e.Below e') (hs : st.Below st') :
    (whileStatement e st).Below (whileStatement e' st') :=
  .bind (.refl _) fun _ => .bind he fun _ => .bind (.refl _) fun _ => .bind hs fun _ => .refl _

lemma below_printStatement (he : e.Below e') : (printStatement e).Below (printStatement e') :=
  .bind he fun _ => .refl _

lemma below_returnStatement (he : e.Below e') (keyword : Token) :
    (returnStatement e keyword).Below (returnStatement e' keyword) := by
  refine .bind (.refl _) fun inside => ?_
  dsimp only
  split
  · exact .bind (.refl _) fun _ => .bind (below_unlessNext _ he) fun _ => .refl _
  · exact .bind (below_unlessNext _ he) fun _ => .refl _

lemma below_blockBody (hd : d.toParser.Below d'.toParser) :
    (blockBody d).Below (blockBody d') :=
  .bind (.rows _ hd) fun _ => .refl _

lemma below_functionDeclaration (hd : d.toParser.Below d'.toParser) :
    (functionDeclaration d).Below (functionDeclaration d') :=
  .bind (.refl _) fun _ => .bind (.refl _) fun _ => .bind (.refl _) fun _ =>
    .bind (.refl _) fun _ => .bind (.refl _) fun _ =>
      .bind (fun _ ts => below_blockBody hd true ts) fun _ => .refl _

lemma below_statementTable (he : e.Below e') (hs : st.Below st')
    (hd : d.toParser.Below d'.toParser) :
    (select (statementTable e st d) (expressionStatement e).toParser).Below
      (select (statementTable e' st' d') (expressionStatement e').toParser) := by
  refine .select (fun kind => ?_) (below_expressionStatement he)
  cases kind
  case forWord => exact .some fun _ => below_forStatement he hs
  case ifWord => exact .some fun _ => below_ifStatement he hs
  case whileWord => exact .some fun _ => below_whileStatement he hs
  case printWord => exact .some fun _ => below_printStatement he
  case returnWord => exact .some fun keyword => below_returnStatement he keyword
  case leftBrace => exact .some fun _ => .bind (below_blockBody hd) fun _ => .refl _
  all_goals exact .none

lemma below_declarationTable (he : e.Below e') (hs : st.Below st')
    (hd : d.toParser.Below d'.toParser) :
    (select (declarationTable e d) st).Below (select (declarationTable e' d') st') := by
  refine .select (fun kind => ?_) hs
  cases kind
  case funWord => exact .some fun _ => below_functionDeclaration hd
  case varWord => exact .some fun _ => below_variableDeclaration he
  all_goals exact .none

lemma below_recover {r s : Reply Stmt} (h : r.Below s) : (recover r).Below (recover s) := by
  rcases h with rfl | rfl
  · exact .inl rfl
  · exact .refl _

end Below

/-- One more level of depth changes no answer of the grammar of expressions. -/
lemma below_expressionAt_succ (n : Nat) :
    (expressionAt n).Below (expressionAt (n + 1)) ∧ (unaryAt n).Below (unaryAt (n + 1)) := by
  induction n with
  | zero => exact ⟨fun _ _ => .inl (by simp [expressionAt, tooDeep]),
      fun _ _ => .inl (by simp [unaryAt, tooDeep])⟩
  | succ n ih =>
    obtain ⟨he, hu⟩ := ih
    rw [expressionAt, expressionAt, unaryAt, unaryAt]
    exact ⟨below_assignment (below_operation hu) he, below_unary hu he⟩

/-- One more level of depth changes no answer of the grammar of statements. -/
lemma below_declarationAt_succ (n : Nat) :
    (statementAt n).toParser.Below (statementAt (n + 1)).toParser ∧
      (declarationAt n).toParser.Below (declarationAt (n + 1)).toParser := by
  induction n with
  | zero => exact ⟨fun _ _ => .inl (by simp [statementAt, Advancing.tooDeep, tooDeep]),
      fun _ _ => .inl (by simp [declarationAt, Advancing.tooDeep, tooDeep])⟩
  | succ n ih =>
    obtain ⟨hs, hd⟩ := ih
    have he := (below_expressionAt_succ n).1
    constructor
    · rw [statementAt_succ, statementAt_succ]
      exact below_statementTable he hs hd
    · intro b ts
      rw [run_declarationAt_succ, run_declarationAt_succ]
      exact below_recover (below_declarationTable he hs hd b ts)

/-- More depth changes no answer of the grammar of statements. -/
lemma below_declarationAt {m n : Nat} (h : m ≤ n) :
    (declarationAt m).toParser.Below (declarationAt n).toParser := by
  induction h with
  | refl => exact .refl _
  | step _ ih => exact ih.trans (below_declarationAt_succ _).2

end Grammar

/-! ## Failure -/

/-- No fault among some is one at which a parser fails. -/
def SyntaxFault.Quiet (faults : List SyntaxFault) : Prop :=
  ∀ f ∈ faults, ∀ what, f.cause ≠ .expected what

namespace SyntaxFault

@[simp] lemma quiet_nil : Quiet [] := by simp [Quiet]

@[simp] lemma quiet_append {fs gs : List SyntaxFault} : Quiet (fs ++ gs) ↔ Quiet fs ∧ Quiet gs := by
  simp only [Quiet, List.mem_append]
  grind

@[simp] lemma not_quiet_expected (what : Expected) (t : Option Token) (fs : List SyntaxFault) :
    ¬ Quiet (⟨.expected what, t⟩ :: fs) := by
  simp [Quiet]

end SyntaxFault

open SyntaxFault (Quiet)

namespace Parser

/-- A parser that fails notes a fault at which it does. -/
def Raises (p : Parser α) : Prop :=
  ∀ b ts rest faults, p.run b ts = .failed rest faults → ¬ Quiet faults

namespace Raises

variable {p : Parser α}

lemma pure (v : α) : (pure v : Parser α).Raises := by
  intro b ts rest faults h
  simp at h

lemma bind {f : α → Parser β} (h : p.Raises) (hf : ∀ v, (f v).Raises) : (p >>= f).Raises := by
  intro b ts rest faults hr
  rcases run_bind_eq_failed.1 hr with hr | ⟨v, mid, noted, more, -, hv, rfl⟩
  · exact h b ts rest faults hr
  · rw [SyntaxFault.quiet_append]
    exact fun hq => hf v b mid rest more hv hq.2

lemma expect (kind : Token.Kind) (what : Expected) : (expect kind what).Raises := by
  intro b ts rest faults h
  cases ts with
  | nil =>
    obtain ⟨rfl, rfl⟩ : [] = rest ∧ _ = faults := by simpa [Parser.expect] using h
    simp
  | cons t ts =>
    by_cases hk : t.kind = kind
    · simp [Parser.expect, hk] at h
    · obtain ⟨rfl, rfl⟩ : t :: ts = rest ∧ _ = faults := by simpa [Parser.expect, hk] using h
      simp

lemma acceptIf (belongs : Token.Kind → Bool) : (acceptIf belongs).Raises := by
  intro b ts rest faults h
  cases ts with
  | nil => simp [Parser.acceptIf] at h
  | cons t ts =>
    rw [run_acceptIf_cons] at h
    split at h <;> simp at h

lemma select {table : Token.Kind → Option (Token → Parser α)}
    (ht : ∀ kind, (table kind).elim True fun f => ∀ t, (f t).Raises) (h : p.Raises) :
    (select table p).Raises := by
  intro b ts rest faults hr
  cases ts with
  | nil => exact h b [] rest faults hr
  | cons t ts =>
    simp only [Parser.select] at hr
    split at hr
    · rename_i f hf
      have := ht t.kind
      rw [hf] at this
      exact this t b ts rest faults hr
    · exact h b _ rest faults hr

/-- A loop raises a fault if its rounds do.

**Proof sketch.** Induction on the number of tokens, of which each round takes at least one. -/
lemma folding {enter : Token.Kind → Bool} {step : α → Token → Parser α}
    (h : ∀ v t, (step v t).Raises) (v : α) : (folding enter step v).Raises := by
  intro b ts rest faults hr
  induction hn : ts.length using Nat.strongRecOn generalizing v ts faults with
  | ind n ih =>
    cases ts with
    | nil => simp at hr
    | cons t ts =>
      rw [run_folding_cons] at hr
      split at hr
      · rcases run_bind_eq_failed.1 hr with hr | ⟨w, mid, noted, more, hw, hrest, rfl⟩
        · exact h v t b ts rest faults hr
        · have hs := (step v t).within b ts
          rw [hw] at hs
          have := List.IsSuffix.length_le hs
          have := ih mid.length (by simp at hn; omega) w mid more hrest rfl
          simp [this]
      · simp at hr

/-- Rows raise a fault if each of them does.

**Proof sketch.** Induction on the number of tokens, of which each row takes at least one. -/
lemma rows {p : Advancing α} (stop : Token.Kind → Bool) (h : p.toParser.Raises) :
    (rows stop p).Raises := by
  intro b ts rest faults hr
  induction hn : ts.length using Nat.strongRecOn generalizing ts faults with
  | ind n ih =>
    cases ts with
    | nil => simp at hr
    | cons t ts =>
      rw [run_rows_cons] at hr
      split at hr
      · simp at hr
      · rcases run_bind_eq_failed.1 hr with hr | ⟨v, mid, noted, more, hv, hrest, rfl⟩
        · exact h b (t :: ts) rest faults hr
        · have ha := p.advances b t ts
          rw [hv] at ha
          simp only [Reply.Shorter] at ha
          rcases run_bind_eq_failed.1 hrest with hrest | ⟨vs, left, noted', more', -, hpure, -⟩
          · have := ih mid.length (by omega) mid more hrest rfl
            simp [this]
          · simp at hpure

end Raises

end Parser

namespace Grammar

open LoxLang.Parser

section Raises

variable {p : Parser α} {e u : Parser Expr} {st : Parser Stmt} {d : Advancing (Option Stmt)}

lemma raises_unlessNext (kind : Token.Kind) (h : p.Raises) : (unlessNext kind p).Raises := by
  refine .bind (fun _ _ _ _ hr => by simp at hr) fun next => ?_
  split
  · exact .pure _
  · exact .bind h fun _ => .pure _

lemma raises_listed (surplus : SyntaxFault.Cause) (h : p.Raises) : (listed p surplus).Raises := by
  refine .bind h fun v => .bind (.folding (fun items _ => ?_) _) fun _ => .pure _
  dsimp only
  split
  · exact .bind (fun _ _ _ _ hr => by simp at hr) fun _ => .bind h fun _ => .pure _
  · exact .bind h fun _ => .pure _

lemma raises_operation (h : u.Raises) : (operation u).Raises := by
  unfold operation
  induction Level.ordered with
  | nil => exact h
  | cons level levels ih =>
    exact .bind ih fun _ => .folding (fun _ _ => .bind ih fun _ => .pure _) _

lemma raises_assignment (hu : u.Raises) (he : e.Raises) : (assignment u e).Raises := by
  refine .bind hu fun left => .bind (.acceptIf _) fun equals => ?_
  cases equals with
  | none => exact .pure _
  | some t =>
    refine .bind he fun _ => ?_
    split
    · exact .pure _
    · exact .bind (fun _ _ _ _ hr => by simp at hr) fun _ => .pure _

lemma raises_primary (he : e.Raises) : (primary e).Raises := by
  refine .select (fun kind => ?_) (fun b ts rest faults hr => ?_)
  · cases kind
    case leftParen => exact fun _ => .bind he fun _ => .bind (.expect _ _) fun _ => .pure _
    all_goals first | trivial | exact fun _ => .pure _
  · obtain ⟨rfl, rfl⟩ : ts = rest ∧ _ = faults := by simpa [fail] using hr
    simp

lemma raises_call (he : e.Raises) : (call e).Raises := by
  refine .bind (raises_primary he) fun callee => .folding (fun callee t => ?_) callee
  exact .bind (raises_unlessNext _ (raises_listed _ he)) fun _ => .bind (.expect _ _) fun _ => .pure _

lemma raises_unary (hu : u.Raises) (he : e.Raises) : (unary u e).Raises := by
  refine .bind (.acceptIf _) fun operator => ?_
  cases operator with
  | none => exact raises_call he
  | some t => exact .bind hu fun _ => .pure _

/-- An expression that cannot be read raises a fault. -/
lemma raises_expressionAt (n : Nat) : (expressionAt n).Raises ∧ (unaryAt n).Raises := by
  induction n with
  | zero => exact ⟨fun _ _ _ _ hr => by simp [expressionAt, tooDeep] at hr,
      fun _ _ _ _ hr => by simp [unaryAt, tooDeep] at hr⟩
  | succ n ih =>
    obtain ⟨he, hu⟩ := ih
    rw [expressionAt, unaryAt]
    exact ⟨raises_assignment (raises_operation hu) he, raises_unary hu he⟩

lemma raises_variableDeclaration (he : e.Raises) : (variableDeclaration e).Raises := by
  refine .bind (.expect _ _) fun name => .bind (.acceptIf _) fun equals => ?_
  cases equals with
  | none => exact .bind (.pure _) fun _ => .bind (.expect _ _) fun _ => .pure _
  | some t =>
    exact .bind he fun _ => .bind (.pure _) fun _ => .bind (.expect _ _) fun _ => .pure _

lemma raises_expressionStatement (he : e.Raises) : (expressionStatement e).toParser.Raises :=
  .bind he fun _ => .bind (.expect _ _) fun _ => .pure _

lemma raises_forInitial (he : e.Raises) : (forInitial e).Raises := by
  refine .select (fun kind => ?_) (.bind (raises_expressionStatement he) fun _ => .pure _)
  cases kind
  case varWord => exact fun _ => .bind (raises_variableDeclaration he) fun _ => .pure _
  all_goals first | trivial | exact fun _ => .pure _

lemma raises_forStatement (he : e.Raises) (hs : st.Raises) : (forStatement e st).Raises :=
  .bind (.expect _ _) fun _ => .bind (raises_forInitial he) fun _ =>
    .bind (raises_unlessNext _ he) fun _ => .bind (.expect _ _) fun _ =>
      .bind (raises_unlessNext _ he) fun _ => .bind (.expect _ _) fun _ => .bind hs fun _ => .pure _

lemma raises_ifStatement (he : e.Raises) (hs : st.Raises) : (ifStatement e st).Raises := by
  refine .bind (.expect _ _) fun _ => .bind he fun _ => .bind (.expect _ _) fun _ =>
    .bind hs fun _ => .bind (.acceptIf _) fun otherwise => ?_
  cases otherwise with
  | none => exact .pure _
  | some t => exact .bind hs fun _ => .pure _

lemma raises_whileStatement (he : e.Raises) (hs : st.Raises) : (whileStatement e st).Raises :=
  .bind (.expect _ _) fun _ => .bind he fun _ => .bind (.expect _ _) fun _ =>
    .bind hs fun _ => .pure _

lemma raises_printStatement (he : e.Raises) : (printStatement e).Raises :=
  .bind he fun _ => .bind (.expect _ _) fun _ => .pure _

lemma raises_returnStatement (he : e.Raises) (keyword : Token) :
    (returnStatement e keyword).Raises := by
  refine .bind (fun _ _ _ _ hr => by simp at hr) fun inside => ?_
  have hrest : (do
      let value ← unlessNext .semicolon e
      let _ ← Parser.expect .semicolon .semicolonAfterReturned
      return Stmt.return keyword value : Parser Stmt).Raises :=
    .bind (raises_unlessNext _ he) fun _ => .bind (.expect _ _) fun _ => .pure _
  dsimp only
  split
  · exact .bind (fun _ _ _ _ hr => by simp at hr) fun _ => hrest
  · exact hrest

lemma raises_blockBody (hd : d.toParser.Raises) : (blockBody d).Raises :=
  .bind (.rows _ hd) fun _ => .bind (.expect _ _) fun _ => .pure _

lemma raises_functionDeclaration (hd : d.toParser.Raises) : (functionDeclaration d).Raises :=
  .bind (.expect _ _) fun _ => .bind (.expect _ _) fun _ =>
    .bind (raises_unlessNext _ (raises_listed _ (.expect _ _))) fun _ => .bind (.expect _ _) fun _ =>
      .bind (.expect _ _) fun _ =>
        .bind (fun _ ts rest faults hr => raises_blockBody hd true ts rest faults hr)
          fun _ => .pure _

/-- A declaration never fails: it leaves an empty slot. -/
lemma run_declarationAt_ne_failed (n : Nat) (b : Bool) (ts rest : List Token)
    (faults : List SyntaxFault) : (declarationAt n).run b ts ≠ .failed rest faults := by
  cases n with
  | zero => simp [declarationAt, Advancing.tooDeep, tooDeep]
  | succ n =>
    rw [run_declarationAt_succ]
    unfold recover
    split <;> simp

lemma raises_declarationAt (n : Nat) : (declarationAt n).toParser.Raises :=
  fun b ts rest faults hr => absurd hr (run_declarationAt_ne_failed n b ts rest faults)

/-- A statement that cannot be read raises a fault. -/
lemma raises_statementAt (n : Nat) : (statementAt n).toParser.Raises := by
  induction n with
  | zero => exact fun _ _ _ _ hr => by simp [statementAt, Advancing.tooDeep, tooDeep] at hr
  | succ n ih =>
    have he := (raises_expressionAt n).1
    rw [statementAt_succ]
    refine .select (fun kind => ?_) (raises_expressionStatement he)
    cases kind
    case forWord => exact fun _ => raises_forStatement he ih
    case ifWord => exact fun _ => raises_ifStatement he ih
    case whileWord => exact fun _ => raises_whileStatement he ih
    case printWord => exact fun _ => raises_printStatement he
    case returnWord => exact fun keyword => raises_returnStatement he keyword
    case leftBrace =>
      exact fun _ => .bind (raises_blockBody (raises_declarationAt n)) fun _ => .pure _
    all_goals trivial

/-- A declaration that cannot be read raises a fault before its slot is left empty. -/
lemma raises_declarationTable (n : Nat) :
    (select (declarationTable (expressionAt n) (declarationAt n))
      (statementAt n).toParser).Raises := by
  refine .select (fun kind => ?_) (raises_statementAt n)
  cases kind
  case funWord => exact fun _ => raises_functionDeclaration (raises_declarationAt n)
  case varWord => exact fun _ => raises_variableDeclaration (raises_expressionAt n).1
  all_goals trivial

end Raises

end Grammar

end LoxLang
