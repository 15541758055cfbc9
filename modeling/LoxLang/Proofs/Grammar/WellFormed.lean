import LoxLang.Proofs.Grammar.Precedence
import LoxLang.Proofs.Grammar.Running
import LoxLang.Proofs.Grammar.Slips

set_option autoImplicit false

/-!
# What is read is well formed

Whatever its faults, a text is read as a well-formed tree. What could not be read leaves an empty
slot behind and nothing else: the statements around it, the other slots, and the expressions that
were read before are well formed over the tokens of the text. Without faults no slot is empty.

## Main definitions

* `Parser.Makes` — all that a parser reads out of some tokens has a property.

## Main results

* `Grammar.makes_statementAt` — what is read as a statement is formed, and no declaration.
* `Grammar.allFormed_of_parse`, `Grammar.allRegular_of_parse` — what is read as a program.
* `Grammar.parse_wellFormed` — what is read from a source, with or without faults.
-/

namespace LoxLang

variable {α β : Type} {tokens : List Token}

namespace Parser

/-- Out of some tokens, all that a parser reads has a property. -/
def Makes (tokens : List Token) (P : α → Prop) (p : Parser α) : Prop :=
  ∀ b ts v rest faults, ts ⊆ tokens → p.run b ts = .ok v rest faults → P v

/-- What is left of some tokens is among them. -/
lemma rest_subset {p : Parser α} {b : Bool} {ts rest : List Token} {v : α}
    {faults : List SyntaxFault} (h : p.run b ts = .ok v rest faults) : rest ⊆ ts := by
  have hw := p.within b ts
  rw [h] at hw
  exact List.IsSuffix.subset hw

namespace Makes

variable {P : α → Prop} {Q : β → Prop} {p : Parser α}

lemma mono {P' : α → Prop} (h : Makes tokens P p) (hP : ∀ v, P v → P' v) : Makes tokens P' p :=
  fun b ts v rest faults hts hr => hP v (h b ts v rest faults hts hr)

lemma pure {v : α} (h : P v) : Makes tokens P (pure v) := by
  intro b ts w rest faults _ hr
  obtain ⟨rfl, -, -⟩ : v = w ∧ ts = rest ∧ [] = faults := by simpa using hr
  exact h

lemma bind {f : α → Parser β} (h : Makes tokens P p) (hf : ∀ v, P v → Makes tokens Q (f v)) :
    Makes tokens Q (p >>= f) := by
  intro b ts w rest faults hts hr
  obtain ⟨v, mid, noted, more, hv, hw, -⟩ := run_bind_eq_ok.1 hr
  have hmid : mid ⊆ tokens := List.Subset.trans (rest_subset hv) hts
  exact hf v (h b ts v mid noted hts hv) b mid w rest more hmid hw

/-- What comes first may read anything. -/
lemma after {f : α → Parser β} (hf : ∀ v, Makes tokens Q (f v)) : Makes tokens Q (p >>= f) :=
  bind (P := fun _ => True) (fun _ _ _ _ _ _ _ => trivial) fun v _ => hf v

lemma expect (kind : Token.Kind) (what : Expected) :
    Makes tokens (Token.Among · tokens [kind]) (expect kind what) := by
  intro b ts t rest faults hts hr
  obtain ⟨rfl, hk, -⟩ := run_expect_eq_ok.1 hr
  exact ⟨hts (by simp), by simp [hk]⟩

/-- A token that is taken selects what is read after it. -/
lemma select {table : Token.Kind → Option (Token → Parser α)}
    (ht : ∀ t ∈ tokens, (table t.kind).elim True fun f => Makes tokens P (f t))
    (h : Makes tokens P p) : Makes tokens P (select table p) := by
  intro b ts v rest faults hts hr
  rcases eq_or_eq_of_run_select hr with ⟨t, us, f, rfl, hf, hr⟩ | hr
  · obtain ⟨hmem, hus⟩ := List.cons_subset.1 hts
    have hentry := ht t hmem
    rw [hf] at hentry
    exact hentry b us v rest faults hus hr
  · exact h b ts v rest faults hts hr

/-- What may be left out has the property if it is read. -/
lemma unlessNext {kind : Token.Kind} (h : Makes tokens P p) :
    Makes tokens (fun v => ∀ w ∈ v, P w) (Grammar.unlessNext kind p) := by
  intro b ts v rest faults hts hr w hw
  rcases Grammar.run_unlessNext_eq_ok hr with ⟨rfl, -, -⟩ | ⟨w', rfl, hread⟩
  · simp at hw
  · obtain rfl : w' = w := by simpa using hw
    exact h b ts w' rest faults hts hread

/-- Rows have a property of the rows read one by one.

**Proof sketch.** Induction on the number of tokens, of which each row takes at least one. -/
lemma rows {item : Advancing α} {Q : List α → Prop} (stop : Token.Kind → Bool)
    (h : Makes tokens P item.toParser) (hnil : Q []) (hcons : ∀ v vs, P v → Q vs → Q (v :: vs)) :
    Makes tokens Q (rows stop item) := by
  intro b ts vs rest faults hts hr
  induction hn : ts.length using Nat.strongRecOn generalizing ts vs rest faults with
  | ind n ih =>
    cases ts with
    | nil =>
      obtain ⟨rfl, -, -⟩ : [] = vs ∧ [] = rest ∧ [] = faults := by simpa using hr
      exact hnil
    | cons t ts =>
      rw [run_rows_cons] at hr
      split at hr
      · obtain ⟨rfl, -, -⟩ : [] = vs ∧ t :: ts = rest ∧ [] = faults := by simpa using hr
        exact hnil
      · obtain ⟨v, mid, noted, more, hv, hr, -⟩ := run_bind_eq_ok.1 hr
        obtain ⟨ws, left, noted', more', hws, hpure, -⟩ := run_bind_eq_ok.1 hr
        obtain ⟨rfl, -, -⟩ : v :: ws = vs ∧ left = rest ∧ [] = more' := by simpa using hpure
        have hshorter := item.advances b t ts
        rw [hv] at hshorter
        simp only [Reply.Shorter] at hshorter
        have hmid : mid ⊆ tokens := List.Subset.trans (rest_subset hv) hts
        exact hcons v ws (h b _ v mid noted hts hv)
          (ih mid.length (by omega) mid ws left noted' hmid hws rfl)

end Makes

end Parser

namespace Grammar

open LoxLang.Parser

/-! ## Statements by their parts -/

section Makes

variable {P : Expr → Prop} {e : Parser Expr} {st : Parser Stmt} {d : Advancing (Option Stmt)}

lemma makes_variableDeclaration (he : Makes tokens P e) :
    Makes tokens (Stmt.Formed tokens P) (variableDeclaration e) := by
  refine .bind (.expect _ _) fun name hname => .after fun equals => ?_
  have hrest : ∀ initial : Option Expr, (∀ v ∈ initial, P v) →
      Makes tokens (Stmt.Formed tokens P) (do
        let _ ← Parser.expect .semicolon .semicolonAfterVariable
        return Stmt.var name initial) :=
    fun initial hinitial => .after fun _ => .pure ⟨hname, hinitial⟩
  cases equals with
  | none => exact .bind (.pure (by simp)) hrest
  | some t => exact .bind he fun value hvalue => .bind (.pure (by simpa using hvalue)) hrest

lemma makes_expressionStatement (he : Makes tokens P e) :
    Makes tokens (Stmt.FormedBranch tokens P) (expressionStatement e).toParser :=
  .bind he fun _ hvalue => .after fun _ => .pure ⟨rfl, hvalue⟩

lemma makes_forInitial (he : Makes tokens P e) :
    Makes tokens (fun initial => ∀ s ∈ initial, s.Formed tokens P) (forInitial e) := by
  refine .select (fun t _ => ?_) ?_
  · cases t.kind
    case varWord =>
      exact .bind (makes_variableDeclaration he) fun s hs => .pure (by simpa using hs)
    case semicolon => exact .pure (by simp)
    all_goals trivial
  · exact .bind (makes_expressionStatement he) fun s hs => .pure (by simpa using hs.formed)

lemma makes_forStatement (he : Makes tokens P e) (htrue : P (.literal (.bool true)))
    (hs : Makes tokens (Stmt.FormedBranch tokens P) st) :
    Makes tokens (Stmt.FormedBranch tokens P) (forStatement e st) := by
  refine .after fun _ => .bind (makes_forInitial he) fun initial hi => ?_
  refine .bind he.unlessNext fun condition hc => .after fun _ => ?_
  refine .bind he.unlessNext fun step hstep => .after fun _ => ?_
  exact .bind hs fun body hbody => .pure (Stmt.formed_forLoop htrue hi hc hstep hbody)

lemma makes_ifStatement (he : Makes tokens P e)
    (hs : Makes tokens (Stmt.FormedBranch tokens P) st) :
    Makes tokens (Stmt.FormedBranch tokens P) (ifStatement e st) := by
  refine .after fun _ => .bind he fun condition hc => .after fun _ => ?_
  refine .bind hs fun whenTrue ht => .after fun otherwise => ?_
  cases otherwise with
  | none => exact .pure ⟨rfl, hc, ht.noDeclaration, ht.formed⟩
  | some t =>
    refine .bind hs fun whenFalse hf => .pure ⟨rfl, hc, ?_, hf.noDeclaration, hf.formed⟩
    exact ⟨ht.noDeclaration, ht.formed⟩

lemma makes_whileStatement (he : Makes tokens P e)
    (hs : Makes tokens (Stmt.FormedBranch tokens P) st) :
    Makes tokens (Stmt.FormedBranch tokens P) (whileStatement e st) := by
  refine .after fun _ => .bind he fun condition hc => .after fun _ => ?_
  exact .bind hs fun body hbody => .pure ⟨rfl, hc, hbody.noDeclaration, hbody.formed⟩

lemma makes_returnStatement (he : Makes tokens P e) {keyword : Token}
    (hk : keyword.Among tokens [.returnWord]) :
    Makes tokens (Stmt.FormedBranch tokens P) (returnStatement e keyword) := by
  have hrest : Makes tokens (Stmt.FormedBranch tokens P) (do
      let value ← unlessNext .semicolon e
      let _ ← Parser.expect .semicolon .semicolonAfterReturned
      return Stmt.return keyword value) :=
    .bind he.unlessNext fun value hvalue => .after fun _ => .pure ⟨rfl, hk, hvalue⟩
  refine .after fun inside => ?_
  dsimp only
  split
  · exact .after fun _ => hrest
  · exact hrest

/-- Slots that are read one by one are formed. -/
lemma makes_slots (stop : Token.Kind → Bool)
    (hd : Makes tokens (fun slot => ∀ s ∈ slot, Stmt.Formed tokens P s) d.toParser) :
    Makes tokens (Stmt.AllFormed tokens P) (rows stop d) := by
  refine .rows stop hd trivial fun slot slots hslot hslots => ?_
  cases slot with
  | none => exact hslots
  | some s => exact ⟨hslot s rfl, hslots⟩

lemma makes_blockBody
    (hd : Makes tokens (fun slot => ∀ s ∈ slot, Stmt.Formed tokens P s) d.toParser) :
    Makes tokens (Stmt.AllFormed tokens P) (blockBody d) :=
  .bind (makes_slots _ hd) fun _ hbody => .after fun _ => .pure hbody

/-- Parameters are names among the tokens. -/
lemma makes_parameters : Makes tokens (fun names => ∀ p ∈ names.getD [], p.Among tokens [.identifier])
    (unlessNext .rightParen
      (listed (Parser.expect .identifier .parameterName) .tooManyParameters)) := by
  intro b ts names rest faults hts hr
  obtain ⟨q, rfl, hq, -⟩ := yields_parameters hr
  rw [← hq]
  cases q with
  | none => simp
  | some q => exact q.among_tree (List.append_subset.1 hts).1

lemma makes_functionDeclaration
    (hd : Makes tokens (fun slot => ∀ s ∈ slot, Stmt.Formed tokens P s) d.toParser) :
    Makes tokens (Stmt.Formed tokens P) (functionDeclaration d) := by
  refine .bind (.expect _ _) fun name hname => .after fun _ => ?_
  refine .bind makes_parameters fun parameters hparameters => .after fun _ => .after fun _ => ?_
  have hbody : Makes tokens (Stmt.AllFormed tokens P) (asFunctionBody (blockBody d)) :=
    fun _ ts => makes_blockBody hd true ts
  exact .bind hbody fun _ h => .pure ⟨hname, hparameters, h⟩

/-- A declaration that is recovered from leaves a slot with what was read, or an empty one. -/
lemma makes_recover {Q : Stmt → Prop} {p : Parser Stmt} {b : Bool} {ts rest : List Token}
    {slot : Option Stmt} {faults : List SyntaxFault} (h : Makes tokens Q p) (hts : ts ⊆ tokens)
    (hr : recover (p.run b ts) = .ok slot rest faults) : ∀ s ∈ slot, Q s := by
  intro s hs
  cases hp : p.run b ts with
  | ok read left noted =>
    rw [hp] at hr
    obtain ⟨rfl, -, -⟩ := Reply.ok.inj hr
    obtain rfl := Option.some.inj hs
    exact h b ts read left noted hts hp
  | failed left noted =>
    rw [hp] at hr
    obtain ⟨rfl, -, -⟩ := Reply.ok.inj hr
    simp at hs
  | tooDeep => simp [hp, recover] at hr

end Makes

/-! ## Statements at all depths -/

variable {P : Expr → Prop}

/-- **What is read as a statement is formed and no declaration**, and what is read as a declaration
is formed, if all expressions that are read have the property asked for.

**Proof sketch.** Induction on the depth, by the token that comes first. -/
theorem makes_statementAt (he : ∀ n, Makes tokens P (expressionAt n))
    (htrue : P (.literal (.bool true))) (n : Nat) :
    Makes tokens (Stmt.FormedBranch tokens P) (statementAt n).toParser ∧
      Makes tokens (fun slot => ∀ s ∈ slot, Stmt.Formed tokens P s) (declarationAt n).toParser := by
  induction n with
  | zero =>
    refine ⟨fun _ _ _ _ _ _ hr => ?_, fun _ _ _ _ _ _ hr => ?_⟩
    · simp [statementAt, Advancing.tooDeep, tooDeep] at hr
    · simp [declarationAt, Advancing.tooDeep, tooDeep] at hr
  | succ n ih =>
    obtain ⟨hs, hd⟩ := ih
    constructor
    · rw [statementAt_succ]
      refine .select (fun t ht => ?_) (makes_expressionStatement (he n))
      cases hk : t.kind
      case forWord => exact makes_forStatement (he n) htrue hs
      case ifWord => exact makes_ifStatement (he n) hs
      case whileWord => exact makes_whileStatement (he n) hs
      case printWord => exact .bind (he n) fun _ hvalue => .after fun _ => .pure ⟨rfl, hvalue⟩
      case returnWord => exact makes_returnStatement (he n) ⟨ht, by simp [hk]⟩
      case leftBrace => exact .bind (makes_blockBody hd) fun _ hbody => .pure ⟨rfl, hbody⟩
      all_goals trivial
    · have hselected : Makes tokens (Stmt.Formed tokens P)
          (select (declarationTable (expressionAt n) (declarationAt n)) (statementAt n).toParser) := by
        refine .select (fun t _ => ?_) (hs.mono fun _ h => h.formed)
        cases t.kind
        case funWord => exact makes_functionDeclaration hd
        case varWord => exact makes_variableDeclaration (he n)
        all_goals trivial
      intro b ts slot rest faults hts hr
      rw [run_declarationAt_succ] at hr
      exact makes_recover hselected hts hr

/-! ## Whole programs -/

variable {depth : Nat} {program : Slots} {faults : List SyntaxFault}

/-- **What is read as a program is formed**, whatever its faults, if all expressions that are read
have the property asked for. -/
theorem allFormed_of_parse (he : ∀ n, Makes tokens P (expressionAt n))
    (htrue : P (.literal (.bool true))) (h : parse depth tokens = .done program faults) :
    Stmt.AllFormed tokens P program := by
  unfold parse at h
  split at h
  · rename_i read rest noted hread
    obtain ⟨rfl, -⟩ := Parsed.done.inj h
    have hd := (makes_statementAt he htrue depth).2
    exact makes_slots _ hd _ _ _ _ _ (List.Subset.refl tokens) hread
  · obtain ⟨rfl, -⟩ := Parsed.done.inj h
    trivial
  · contradiction

/-- **What is read as a program is regular**, whatever its faults. -/
theorem allRegular_of_parse (h : parse depth tokens = .done program faults) :
    Stmt.AllRegular program :=
  (allFormed_of_parse (P := fun _ => True) (fun _ _ _ _ _ _ _ _ => trivial) trivial h).regular

/-- What is read as an expression is well formed if the tokens are written as their kinds ask for. -/
lemma makes_expressionAt (hs : ∀ t ∈ tokens, Token.Spells t.kind t.lexeme.toList) (n : Nat) :
    Makes tokens (Expr.WellFormed tokens) (expressionAt n) := by
  intro b ts e rest faults hts hr
  obtain ⟨q, rfl, rfl, -, -⟩ := (yields_expressionAt n).1 b ts e rest faults hr
  exact q.wellFormed_tree (List.append_subset.1 hts).1 hs

/-- **What is read from a source is well formed**, with or without faults and at every depth that is
allowed. A program has empty slots only where faults were noted, and with enough depth it is read. An
expression by itself is well formed whenever it is kept.

**Proof sketch.** Scanned tokens are written as their kinds ask for, so every expression that is read
is well formed, wherever it stands. What is read without faults is the tree of a phrase, which has no
empty slot. -/
theorem parse_wellFormed (depth : Nat) (source : String) :
    (2 * (scan source).tokens.length + 4 ≤ depth → parse depth (scan source).tokens ≠ .tooDeep) ∧
    (∀ program faults, parse depth (scan source).tokens = .done program faults →
      Stmt.AllWellFormed (scan source).tokens program ∧
        (faults = [] → Stmt.AllFilled program)) ∧
    ∀ e faults, parseExpression depth (scan source).tokens = .done (some e) faults →
      e.WellFormed (scan source).tokens := by
  have hspells : ∀ t ∈ (scan source).tokens, Token.Spells t.kind t.lexeme.toList :=
    fun t ht => Scan.spells_of_mem_tokensFrom ht
  refine ⟨parse_ne_tooDeep, fun program faults h => ⟨?_, ?_⟩, fun e faults h => ?_⟩
  · exact allFormed_of_parse (makes_expressionAt hspells) ⟨trivial, trivial⟩ h
  · rintro rfl
    obtain ⟨p, -, rfl, -⟩ := exists_phrase_of_parse h SyntaxFault.quiet_nil
    exact p.filled_tree
  · obtain ⟨p, htokens, rfl, -⟩ := exists_phrase_of_parseExpression h
    exact p.wellFormed_tree (htokens ▸ List.Subset.refl _) hspells

/-- In `if (-a * b or c = nil) { print; }` nothing can be assigned to the condition, and a printed value
is missing. Both faults are noted, the statement that could not be read leaves an empty slot, and all
that was read is well formed. -/
theorem parse_wellFormed_missingParts :
    let source := "if (-a * b or c = nil) \x7b print; \x7d"
    let named (name : String) : Expr := .variable ⟨.identifier, name, 1⟩
    let product : Expr := .binary (.unary ⟨.minus, "-", 1⟩ (named "a")) ⟨.star, "*", 1⟩ (named "b")
    let condition : Expr := .logical product ⟨.orWord, "or", 1⟩ (named "c")
    let program : Slots := [some (.branch condition (.block [none]) none)]
    2 * (scan source).tokens.length + 4 ≤ 40 ∧
      parse 40 (scan source).tokens = .done program
        [⟨.invalidTarget, some ⟨.equal, "=", 1⟩⟩,
          ⟨.expected .expression, some ⟨.semicolon, ";", 1⟩⟩] ∧
      parse 40 (scan source).tokens ≠ .tooDeep ∧
      Stmt.AllWellFormed (scan source).tokens program := by
  intro source named product condition program
  obtain ⟨hdeep, hdone, -⟩ := parse_wellFormed 40 source
  have hlength : 2 * (scan source).tokens.length + 4 ≤ 40 := by decide +kernel
  have htokens : (scan source).tokens =
      [⟨.ifWord, "if", 1⟩, ⟨.leftParen, "(", 1⟩, ⟨.minus, "-", 1⟩, ⟨.identifier, "a", 1⟩,
        ⟨.star, "*", 1⟩, ⟨.identifier, "b", 1⟩, ⟨.orWord, "or", 1⟩, ⟨.identifier, "c", 1⟩,
        ⟨.equal, "=", 1⟩, ⟨.nilWord, "nil", 1⟩, ⟨.rightParen, ")", 1⟩, ⟨.leftBrace, "\x7b", 1⟩,
        ⟨.printWord, "print", 1⟩, ⟨.semicolon, ";", 1⟩, ⟨.rightBrace, "\x7d", 1⟩] := by
    decide +kernel
  have hread : parse 40 (scan source).tokens = .done program
      [⟨.invalidTarget, some ⟨.equal, "=", 1⟩⟩,
        ⟨.expected .expression, some ⟨.semicolon, ";", 1⟩⟩] := by
    rw [htokens]
    with_unfolding_all rfl
  exact ⟨hlength, hread, hdeep hlength, (hdone program _ hread).1⟩

end Grammar

end LoxLang
