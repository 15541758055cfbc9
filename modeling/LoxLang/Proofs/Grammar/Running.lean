import Mathlib.Tactic.Common
import LoxLang.Proofs.Grammar.Phrase

set_option autoImplicit false

/-!
# What parsers answer

How the answer of a parser made from others comes about from theirs: forwards, to run a parser on a
known text, and backwards, to take a known answer apart.

## Main definitions

* `Grammar.statementTable`, `Grammar.declarationTable`, `Grammar.initialTable` — what the first token
  selects.

## Main results

* `Parser.run_bind_of_ok`, `Parser.run_bind_eq_ok` — one parser after another, both ways.
* `Grammar.statementAt_succ`, `Grammar.run_declarationAt_succ` — statements by their first token.
-/

namespace LoxLang

variable {α β : Type}

/-! ## Running one parser after another -/

namespace Reply

/-- A success after some faults is a success that notes them first. -/
lemma after_eq_ok {r : Reply α} {noted faults : List SyntaxFault} {v : α} {rest : List Token} :
    r.after noted = .ok v rest faults ↔ ∃ more, r = .ok v rest more ∧ faults = noted ++ more := by
  cases r <;> simp [after]
  grind

/-- A failure after some faults is a failure that notes them first. -/
lemma after_eq_failed {r : Reply α} {noted faults : List SyntaxFault} {rest : List Token} :
    r.after noted = .failed rest faults ↔
      ∃ more, r = .failed rest more ∧ faults = noted ++ more := by
  cases r <;> simp [after]
  grind

@[simp] lemma after_ok (noted faults : List SyntaxFault) (v : α) (rest : List Token) :
    (Reply.ok v rest faults).after noted = .ok v rest (noted ++ faults) := rfl

end Reply

namespace Parser

variable {p : Parser α} {f : α → Parser β} {b : Bool} {ts rest : List Token}

/-- After a success the parser that its value selects goes on. -/
lemma run_bind_of_ok {v : α} {mid : List Token} {faults : List SyntaxFault}
    (h : p.run b ts = .ok v mid faults) :
    (p >>= f).run b ts = ((f v).run b mid).after faults := by
  rw [run_bind, h]

/-- What one parser answers later than another does, it answers later in front of a third. -/
lemma run_bind_of_after {q : Parser α} {us : List Token} {faults : List SyntaxFault}
    (h : p.run b ts = (q.run b us).after faults) :
    (p >>= f).run b ts = ((q >>= f).run b us).after faults := by
  rw [run_bind, run_bind, h]
  cases q.run b us with
  | ok v mid more => exact (Reply.after_after _ _ _).symm
  | failed => rfl
  | tooDeep => rfl

/-- A value makes no difference to what comes after it. -/
@[simp] lemma run_pure_bind (v : α) : (pure v >>= f).run b ts = (f v).run b ts := by
  rw [run_bind_of_ok (run_pure _ _ _), Reply.after_nil]

/-- A success of two parsers in a row is a success of both. -/
lemma run_bind_eq_ok {w : β} {faults : List SyntaxFault} :
    (p >>= f).run b ts = .ok w rest faults ↔
      ∃ v mid noted more, p.run b ts = .ok v mid noted ∧
        (f v).run b mid = .ok w rest more ∧ faults = noted ++ more := by
  rw [run_bind]
  cases p.run b ts with
  | ok v mid noted => simp [Reply.after_eq_ok]
  | failed => simp
  | tooDeep => simp

/-- A failure of two parsers in a row is one of the first, or one of the second after a success. -/
lemma run_bind_eq_failed {faults : List SyntaxFault} :
    (p >>= f).run b ts = .failed rest faults ↔
      p.run b ts = .failed rest faults ∨
      ∃ v mid noted more, p.run b ts = .ok v mid noted ∧
        (f v).run b mid = .failed rest more ∧ faults = noted ++ more := by
  rw [run_bind]
  cases p.run b ts with
  | ok v mid noted => simp [Reply.after_eq_failed]
  | failed => simp
  | tooDeep => simp

/-! ## One token -/

@[simp] lemma run_peek (b : Bool) (ts : List Token) :
    peek.run b ts = .ok (ts.head?.map Token.kind) ts [] := rfl

@[simp] lemma run_note (cause : SyntaxFault.Cause) (b : Bool) (ts : List Token) :
    (note cause).run b ts = .ok () ts [⟨cause, ts.head?⟩] := rfl

@[simp] lemma run_noteAt (t : Token) (cause : SyntaxFault.Cause) (b : Bool) (ts : List Token) :
    (noteAt t cause).run b ts = .ok () ts [⟨cause, some t⟩] := rfl

@[simp] lemma run_inFunction (b : Bool) (ts : List Token) :
    Parser.inFunction.run b ts = .ok b ts [] := rfl

/-- The token that is asked for is taken. -/
@[simp] lemma run_expect_cons {kind : Token.Kind} (t : Terminal kind) (what : Expected)
    (b : Bool) (rest : List Token) :
    (expect kind what).run b (t.1 :: rest) = .ok t.1 rest [] := by
  simp [expect, t.2]

/-- A token that is taken was asked for. -/
lemma run_expect_eq_ok {kind : Token.Kind} {what : Expected} {t : Token}
    {faults : List SyntaxFault} :
    (expect kind what).run b ts = .ok t rest faults ↔
      ts = t :: rest ∧ t.kind = kind ∧ faults = [] := by
  cases ts with
  | nil => simp [expect]
  | cons u us =>
    by_cases h : u.kind = kind
    · simp [expect, h]
      grind
    · simp [expect, h]
      grind

/-- After a token that is asked for, the parser that it selects goes on. -/
lemma run_expect_bind_eq_ok {kind : Token.Kind} {what : Expected} {f : Token → Parser β} {v : β}
    {faults : List SyntaxFault} :
    (expect kind what >>= f).run b ts = .ok v rest faults ↔
      ∃ (t : Terminal kind) (us : List Token), ts = t.1 :: us ∧
        (f t.1).run b us = .ok v rest faults := by
  rw [run_bind_eq_ok]
  constructor
  · rintro ⟨t, us, noted, more, ht, hf, rfl⟩
    obtain ⟨rfl, hk, rfl⟩ := run_expect_eq_ok.1 ht
    exact ⟨⟨t, hk⟩, us, rfl, hf⟩
  · rintro ⟨t, us, rfl, hf⟩
    exact ⟨t.1, us, [], faults, run_expect_cons _ _ _ _, hf, rfl⟩

/-- A value is answered in front of the token that closes it, and that token is taken. -/
lemma run_closing_eq_ok {kind : Token.Kind} {what : Expected} {w v : α}
    {faults : List SyntaxFault} :
    (expect kind what >>= fun _ => pure w).run b ts = .ok v rest faults ↔
      ∃ closing : Terminal kind, ts = closing.1 :: rest ∧ w = v ∧ faults = [] := by
  rw [run_expect_bind_eq_ok]
  constructor
  · rintro ⟨t, us, rfl, hpure⟩
    obtain ⟨rfl, rfl, rfl⟩ : w = v ∧ us = rest ∧ [] = faults := by simpa using hpure
    exact ⟨t, rfl, rfl, rfl⟩
  · rintro ⟨closing, rfl, rfl, rfl⟩
    exact ⟨closing, rest, rfl, rfl⟩

/-- Whether the next token is taken depends on its kind. -/
lemma run_acceptIf_cons (belongs : Token.Kind → Bool) (b : Bool) (t : Token) (rest : List Token) :
    (acceptIf belongs).run b (t :: rest) =
      if belongs t.kind then .ok (some t) rest [] else .ok none (t :: rest) [] := rfl

/-- A token that may be taken is taken, or it is not of the class. -/
lemma run_acceptIf_eq_ok {belongs : Token.Kind → Bool} {v : Option Token}
    {faults : List SyntaxFault} (h : (acceptIf belongs).run b ts = .ok v rest faults) :
    faults = [] ∧ ((v = none ∧ ts = rest ∧ ∀ t ∈ ts.head?, belongs t.kind = false) ∨
      ∃ t, v = some t ∧ ts = t :: rest ∧ belongs t.kind = true) := by
  cases ts with
  | nil =>
    obtain ⟨rfl, rfl, rfl⟩ : none = v ∧ [] = rest ∧ [] = faults := by simpa [acceptIf] using h
    exact ⟨rfl, .inl ⟨rfl, rfl, by simp⟩⟩
  | cons t us =>
    rw [run_acceptIf_cons] at h
    split at h
    · obtain ⟨rfl, rfl, rfl⟩ : some t = v ∧ us = rest ∧ [] = faults := by simpa using h
      exact ⟨rfl, .inr ⟨t, rfl, rfl, ‹_›⟩⟩
    · obtain ⟨rfl, rfl, rfl⟩ : none = v ∧ t :: us = rest ∧ [] = faults := by simpa using h
      exact ⟨rfl, .inl ⟨rfl, rfl, by simpa using ‹¬ belongs t.kind = true›⟩⟩

/-- The first token selects a parser for the others. -/
lemma run_select_of_some {table : Token.Kind → Option (Token → Parser α)} {t : Token}
    {f : Token → Parser α} (h : table t.kind = some f) (b : Bool) (rest : List Token) :
    (select table p).run b (t :: rest) = (f t).run b rest := by
  simp only [select, h]

/-- A first token that selects nothing is left to the other parser. -/
lemma run_select_of_none {table : Token.Kind → Option (Token → Parser α)}
    (h : ∀ t ∈ ts.head?, table t.kind = none) (b : Bool) :
    (select table p).run b ts = p.run b ts := by
  cases ts with
  | nil => rfl
  | cons t ts => simp only [select, h t (by simp)]

/-- What is answered is answered by the parser that the first token selects, or by the other one. -/
lemma eq_or_eq_of_run_select {table : Token.Kind → Option (Token → Parser α)} {r : Reply α}
    (h : (select table p).run b ts = r) :
    (∃ t us f, ts = t :: us ∧ table t.kind = some f ∧ (f t).run b us = r) ∨ p.run b ts = r := by
  cases ts with
  | nil => exact .inr h
  | cons t us =>
    cases hf : table t.kind with
    | some f => exact .inl ⟨t, us, f, rfl, hf, by rwa [run_select_of_some hf] at h⟩
    | none => exact .inr (by rwa [run_select_of_none (by simpa using hf)] at h)

/-! ## Loops -/

/-- **Taking a loop apart.** What holds of a value, the tokens taken for it and the faults noted on
the way, and is kept by every round, holds at the end of the loop.

**Proof sketch.** Induction on the number of tokens, of which each round takes at least one. -/
lemma invariant_of_run_folding {enter : Token.Kind → Bool} {step : α → Token → Parser α}
    (I : α → List Token → List SyntaxFault → Prop)
    (hstep : ∀ v taken noted t us w left more, I v taken noted → enter t.kind = true →
      (step v t).run b us = .ok w left more →
        ∃ new, us = new ++ left ∧ I w (taken ++ t :: new) (noted ++ more)) :
    ∀ {v taken noted ts w rest faults}, I v taken noted →
      (folding enter step v).run b ts = .ok w rest faults →
        ∃ new, ts = new ++ rest ∧ I w (taken ++ new) (noted ++ faults) := by
  intro v taken noted ts
  induction hn : ts.length using Nat.strongRecOn generalizing v taken noted ts with
  | ind n ih =>
    intro w rest faults hI hr
    cases ts with
    | nil =>
      obtain ⟨rfl, rfl, rfl⟩ : v = w ∧ [] = rest ∧ [] = faults := by simpa using hr
      exact ⟨[], rfl, by simpa using hI⟩
    | cons t us =>
      rw [run_folding_cons] at hr
      split at hr
      · obtain ⟨u, mid, fs, gs, hu, hloop, rfl⟩ := run_bind_eq_ok.1 hr
        obtain ⟨new, rfl, hI'⟩ := hstep v taken noted t us u mid fs hI ‹_› hu
        obtain ⟨new', rfl, hI''⟩ := ih mid.length (by simp at hn; omega) rfl hI' hloop
        exact ⟨t :: (new ++ new'), by simp, by simpa using hI''⟩
      · obtain ⟨rfl, rfl, rfl⟩ : v = w ∧ t :: us = rest ∧ [] = faults := by simpa using hr
        exact ⟨[], rfl, by simpa using hI⟩

/-- A loop ends in front of a token that does not enter it. -/
lemma run_folding_of_stop {enter : Token.Kind → Bool} {step : α → Token → Parser α} (v : α)
    {rest : List Token} (h : ∀ t ∈ rest.head?, enter t.kind = false) :
    (folding enter step v).run b rest = .ok v rest [] := by
  cases rest with
  | nil => simp
  | cons t ts => simp [run_folding_cons, h t (by simp)]

end Parser

namespace Grammar

open LoxLang.Parser

/-! ## What may be left out -/

/-- Nothing is read in front of the token that takes its place. -/
lemma run_unlessNext_stop {kind : Token.Kind} (p : Parser α) (t : Terminal kind) (b : Bool)
    (rest : List Token) :
    (unlessNext kind p).run b (t.1 :: rest) = .ok none (t.1 :: rest) [] := by
  rw [unlessNext, run_bind_of_ok (run_peek _ _)]
  simp [t.2]

/-- In front of any other token something is read. -/
lemma run_unlessNext_of_ok {kind : Token.Kind} {p : Parser α} {b : Bool} {ts rest : List Token}
    {v : α} {faults : List SyntaxFault} (hne : ∀ t ∈ ts.head?, t.kind ≠ kind)
    (h : p.run b ts = .ok v rest faults) :
    (unlessNext kind p).run b ts = .ok (some v) rest faults := by
  rw [unlessNext, run_bind_of_ok (run_peek _ _)]
  have hpeek : ((ts.head?.map Token.kind) == some kind) = false := by
    cases ts with
    | nil => rfl
    | cons t ts => simpa using hne t (by simp)
  simp [hpeek, run_bind_of_ok h]

/-- What may be left out is left out, or it is read. -/
lemma run_unlessNext_eq_ok {kind : Token.Kind} {p : Parser α} {b : Bool} {ts rest : List Token}
    {v : Option α} {faults : List SyntaxFault}
    (h : (unlessNext kind p).run b ts = .ok v rest faults) :
    (v = none ∧ ts = rest ∧ faults = []) ∨ ∃ w, v = some w ∧ p.run b ts = .ok w rest faults := by
  rw [unlessNext, run_bind_of_ok (run_peek _ _), Reply.after_nil] at h
  split at h
  · left
    simpa [eq_comm] using h
  · right
    obtain ⟨w, mid, fs, gs, hw, hpure, rfl⟩ := run_bind_eq_ok.1 h
    obtain ⟨rfl, rfl, rfl⟩ : some w = v ∧ mid = rest ∧ [] = gs := by simpa using hpure
    exact ⟨w, rfl, by simpa using hw⟩

/-! ## Items between commas -/

/-- One more item after a comma, with a fault noted in front of it if it is too many. -/
def listedStep (item : Parser α) (surplus : SyntaxFault.Cause) (items : Array α) (_ : Token) :
    Parser (Array α) := do
  if maxArity ≤ items.size then note surplus
  let next ← item
  return items.push next

/-- Items are read one by one after the first. -/
lemma listed_eq (item : Parser α) (surplus : SyntaxFault.Cause) :
    listed item surplus = (do
      let head ← item
      let items ← folding (· == .comma) (listedStep item surplus) #[head]
      return items.toList) := rfl

/-- One more item is read if the item is. -/
lemma run_listedStep (item : Parser α) (surplus : SyntaxFault.Cause) (items : Array α) (t : Token)
    (b : Bool) (ts : List Token) :
    (listedStep item surplus items t).run b ts =
      ((item >>= fun next => pure (items.push next)).run b ts).after
        (surplusFault surplus items.size ts.head?) := by
  unfold listedStep surplusFault
  split
  · rw [run_bind_of_ok (run_note _ _ _)]
  · rw [Reply.after_nil]

/-! ## The first token of a statement -/

/-- What a statement is read as after its first token, if that is a keyword or a brace. -/
def statementTable (e : Parser Expr) (st : Parser Stmt) (d : Advancing (Option Stmt)) :
    Token.Kind → Option (Token → Parser Stmt)
  | .forWord => some fun _ => forStatement e st
  | .ifWord => some fun _ => ifStatement e st
  | .whileWord => some fun _ => whileStatement e st
  | .printWord => some fun _ => printStatement e
  | .returnWord => some fun keyword => returnStatement e keyword
  | .leftBrace => some fun _ => do
    let body ← blockBody d
    return .block body
  | _ => none

/-- What a declaration is read as after its first token, if that is its keyword. -/
def declarationTable (e : Parser Expr) (d : Advancing (Option Stmt)) :
    Token.Kind → Option (Token → Parser Stmt)
  | .funWord => some fun _ => functionDeclaration d
  | .varWord => some fun _ => variableDeclaration e
  | _ => none

/-- What a `for` begins with after its first token, if that is a semicolon or the keyword of a
declaration. -/
def initialTable (e : Parser Expr) : Token.Kind → Option (Token → Parser (Option Stmt))
  | .semicolon => some fun _ => return none
  | .varWord => some fun _ => do
    let declared ← variableDeclaration e
    return some declared
  | _ => none

/-- What a `for` begins with is selected by its first token. -/
lemma forInitial_eq (e : Parser Expr) :
    forInitial e = select (initialTable e) (do
      let evaluated ← (expressionStatement e).toParser
      return some evaluated) := rfl

/-- A statement is selected by its first token. -/
lemma statementAt_succ (n : Nat) :
    (statementAt (n + 1)).toParser =
      select (statementTable (expressionAt n) (statementAt n).toParser (declarationAt n))
        (expressionStatement (expressionAt n)).toParser := by
  rw [statementAt]
  rfl

/-- A declaration is selected by its first token. -/
lemma run_declarationAt_succ (n : Nat) (b : Bool) (ts : List Token) :
    (declarationAt (n + 1)).run b ts =
      recover ((select (declarationTable (expressionAt n) (declarationAt n))
        (statementAt n).toParser).run b ts) := by
  rw [declarationAt]
  rfl

end Grammar

end LoxLang
