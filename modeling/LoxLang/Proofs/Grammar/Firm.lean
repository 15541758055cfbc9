import LoxLang.Proofs.Grammar.Prefix
import LoxLang.Proofs.Grammar.Progress

set_option autoImplicit false

/-!
# Reading that ends with the first failure

The grammar of statements once more, as parsers and as readers that never go on after a failure.
Such a parser keeps to the texts of the grammar: up to where it fails it took the beginning of one.
A firm reader follows a firm parser, as a reader follows the parser that goes on.

## Main definitions

* `Grammar.firmDeclarationAt`, `Grammar.firmProgram` — parsers that fail for good.
* `Reader.firmDeclarationAt`, `Reader.firmProgram` — readers that fail for good.

## Main results

* `Grammar.keeps_firmDeclarationAt` — what is read is a text, and what is taken begins one.
* `Grammar.below_firmProgram` — more depth changes no answer.
* `Reader.follows_firmStatement` — the readers follow the parsers.
-/

namespace LoxLang

namespace Grammar

open LoxLang.Parser

/-- Reads a declaration, and fails if it cannot be read. -/
def keeping (p : Advancing Stmt) : Advancing (Option Stmt) where
  toParser := do
    let statement ← p.toParser
    return some statement
  advances inFunction t rest := by
    have h := p.advances inFunction t rest
    rw [run_bind]
    cases hr : p.run inFunction (t :: rest) with
    | ok =>
      rw [hr] at h
      exact h
    | failed => trivial
    | tooDeep => trivial

mutual

/-- Reads a statement within which at most so many others stand in each other, and fails for
good. -/
def firmStatementAt : Nat → Advancing Stmt
  | 0 => .tooDeep
  | depth + 1 => .select
    (statementTable (expressionAt depth) (firmStatementAt depth).toParser (firmDeclarationAt depth))
    (expressionStatement (expressionAt depth))

/-- Reads a declaration within which at most so many others stand in each other, and fails for
good. -/
def firmDeclarationAt : Nat → Advancing (Option Stmt)
  | 0 => .tooDeep
  | depth + 1 => keeping (.select
    (declarationTable (expressionAt depth) (firmDeclarationAt depth)) (firmStatementAt depth))

end

/-- **What is read is a text, and what is taken begins one.**

**Proof sketch.** Induction on the depth, for statements and declarations at once. -/
theorem keeps_firmDeclarationAt (depth : Nat) :
    ((firmStatementAt depth).toParser.Keeps fun _ => StmtSymbol.Derives .statement) ∧
      (firmDeclarationAt depth).toParser.Keeps fun _ => StmtSymbol.Derives .declaration := by
  induction depth with
  | zero =>
    let nothing : StmtPhrase .statement := .returning (word .returnWord) none (word .semicolon)
    exact ⟨.tooDeep ⟨default, _, nothing, rfl⟩, .tooDeep ⟨none, _, .statement nothing, rfl⟩⟩
  | succ depth ih =>
    obtain ⟨hs, hd⟩ := ih
    have he := (keeps_expressionAt depth).1
    rw [firmStatementAt, firmDeclarationAt]
    exact ⟨keeps_statementTable he hs hd, (keeps_declarationTable he hs hd).bind
      fun _ us h => Keeps.pure (by simpa using h)⟩

/-- Reads declarations up to the end, and fails for good. -/
def firmProgram (depth : Nat) : Parser Slots := rows (fun _ => false) (firmDeclarationAt depth)

/-- A program that is read is a text, and what is taken of one begins one. -/
lemma keeps_firmProgram (depth : Nat) :
    (firmProgram depth).Keeps fun _ => StmtSymbol.Derives .declarations :=
  keeps_rows (keeps_firmDeclarationAt depth).2 _

/-- One more level of depth changes no answer. -/
lemma below_firmDeclarationAt_succ (depth : Nat) :
    (firmStatementAt depth).toParser.Below (firmStatementAt (depth + 1)).toParser ∧
      (firmDeclarationAt depth).toParser.Below (firmDeclarationAt (depth + 1)).toParser := by
  induction depth with
  | zero => exact ⟨fun _ _ => .inl rfl, fun _ _ => .inl rfl⟩
  | succ depth ih =>
    obtain ⟨hs, hd⟩ := ih
    have he := (below_expressionAt_succ depth).1
    rw [firmStatementAt, firmStatementAt, firmDeclarationAt, firmDeclarationAt]
    exact ⟨below_statementTable he hs hd, .bind (below_declarationTable he hs hd) fun _ => .refl _⟩

/-- More depth changes no answer to a program. -/
lemma below_firmProgram {m n : Nat} (h : m ≤ n) : (firmProgram m).Below (firmProgram n) := by
  induction h with
  | refl => exact .refl _
  | step _ ih => exact ih.trans (.rows _ (below_firmDeclarationAt_succ _).2)

end Grammar

namespace Reader

variable {c : Cursor}

/-- Reads a declaration, and fails if it cannot be read. -/
def keeping (read : Reading Stmt) : Reading (Option Stmt) := do
  let earlier ← get
  let statement ← read
  visited earlier none
  return some statement

mutual

/-- A statement within which at most so many others stand in each other, which fails for good. -/
def firmStatementAt : Nat → Reading Stmt
  | 0 => throw .tooDeep
  | depth + 1 =>
    statementOf (expressionAt depth) (firmStatementAt depth) (firmDeclarationAt depth)

/-- A declaration within which at most so many others stand in each other, which fails for good. -/
def firmDeclarationAt : Nat → Reading (Option Stmt)
  | 0 => throw .tooDeep
  | depth + 1 => keeping
    (declarationOf (expressionAt depth) (firmStatementAt depth) (firmDeclarationAt depth))

end

/-- A call that reads a declaration and succeeds is noted. -/
lemma keeping_apply (x : Reading Stmt) (r : Reader) : keeping x r =
    match x r with
    | .ok s r' => .ok (some s) (r'.visiting ⟨r.place, none, r'.place, r.functions, r'.functions⟩)
    | .error stop r' => .error stop r' := by
  show (x >>= _) r = _
  rw [bind_apply]
  cases x r <;> rfl

lemma follows_keeping {x : Reading Stmt} {p : Advancing Stmt} (hc : c.ahead ≠ [])
    (hx : Follows c x p.toParser) : Follows c (keeping x) (Grammar.keeping p).toParser := by
  intro r hr
  have hanswers := hx r hr
  obtain ⟨t, rest, hcons⟩ := List.exists_cons_of_ne_nil hc
  have hshorter := p.advances (decide (0 < r.functions)) t rest
  rw [← hcons] at hshorter
  rw [keeping_apply, Grammar.keeping, Parser.run_bind]
  generalize x r = result at hanswers ⊢
  generalize p.run (decide (0 < r.functions)) c.ahead = reply at hanswers hshorter ⊢
  cases hanswers with
  | ok h => exact .ok (by simpa using h.visiting (hr.good_of_ok h hshorter))
  | failed h => exact .failed h
  | tooDeep hsane htokens hfunctions => exact .tooDeep hsane htokens hfunctions

/-- **The readers that fail for good follow the parsers that do** at each depth. -/
theorem follows_firmStatement (depth : Nat) :
    (∀ c, Follows c (firmStatementAt depth) (Grammar.firmStatementAt depth).toParser) ∧
      ∀ c : Cursor, c.ahead ≠ [] →
        Follows c (firmDeclarationAt depth) (Grammar.firmDeclarationAt depth).toParser := by
  induction depth with
  | zero => exact ⟨follows_tooDeep, fun c _ => follows_tooDeep c⟩
  | succ depth ih =>
    obtain ⟨hs, hd⟩ := ih
    have he := (follows_expression depth).1
    rw [firmStatementAt, firmDeclarationAt, Grammar.firmStatementAt, Grammar.firmDeclarationAt]
    exact ⟨follows_statementOf he hs hd,
      fun c hc => follows_keeping hc (follows_declarationOf he hs hd c)⟩

/-- Declarations up to the end, which fail for good. -/
def firmProgram (depth : Nat) : Reading Slots := rows atEnd (firmDeclarationAt depth)

lemma follows_firmProgram (depth : Nat) (c : Cursor) :
    Follows c (firmProgram depth) (Grammar.firmProgram depth) :=
  follows_rows_atEnd (follows_firmStatement depth).2 c

end Reader

end LoxLang
