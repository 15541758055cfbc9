import LoxLang.Fault

/-!
# Parsers over tokens

A parser reads tokens from the front of a list. It may succeed, fail at a token, or give up because
the text nests too deeply; on the way it notes faults, also when it succeeds. That what it leaves is
always a suffix of what it got is part of the type, so a loop that takes a token in each round ends.

## Main definitions

* `Parser`, `Reply` — parsers and what they answer.
* `Parser.take`, `Parser.accept`, `Parser.expect` — one token.
* `Parser.folding` — a loop that goes on while the next token is of a class.
* `Advancing` — parsers that take a token whenever they succeed with tokens at hand.
* `Parser.rows` — one advancing parser again and again, up to a token of a class.

## Main results

* `Parser.run_bind`, `Parser.run_folding_cons`, `Parser.run_rows_cons` — what the combinators do.
-/

namespace LoxLang

/-- What a parser answers. Only the faults noted by the parser itself are listed, in order. -/
inductive Reply (α : Type) where
  /-- A value, and the tokens after it. -/
  | ok (value : α) (rest : List Token) (faults : List SyntaxFault)
  /-- Nothing fits; the rest begins with the token that does not. -/
  | failed (rest : List Token) (faults : List SyntaxFault)
  /-- The text nests deeper than the limit. -/
  | tooDeep

namespace Reply

variable {α : Type}

/-- The answer of a parser that ran after some faults had been noted. -/
def after (noted : List SyntaxFault) : Reply α → Reply α
  | ok value rest faults => ok value rest (noted ++ faults)
  | failed rest faults => failed rest (noted ++ faults)
  | tooDeep => tooDeep

/-- What is left over is a suffix of the tokens given. -/
def Within (tokens : List Token) : Reply α → Prop
  | ok _ rest _ => rest <:+ tokens
  | failed rest _ => rest <:+ tokens
  | tooDeep => True

/-- A success leaves fewer tokens than were given. -/
def Shorter (tokens : List Token) : Reply α → Prop
  | ok _ rest _ => rest.length < tokens.length
  | failed _ _ => True
  | tooDeep => True

theorem Within.after {ts : List Token} {r : Reply α} (h : r.Within ts) (noted : List SyntaxFault) :
    (r.after noted).Within ts := by
  cases r <;> exact h

theorem Within.trans {ts us : List Token} {r : Reply α} (h : r.Within us) (hs : us <:+ ts) :
    r.Within ts := by
  cases r with
  | ok => exact List.IsSuffix.trans h hs
  | failed => exact List.IsSuffix.trans h hs
  | tooDeep => trivial

theorem Shorter.after {ts : List Token} {r : Reply α} (h : r.Shorter ts)
    (noted : List SyntaxFault) : (r.after noted).Shorter ts := by
  cases r <;> exact h

@[simp] theorem after_nil (r : Reply α) : r.after [] = r := by cases r <;> rfl

@[simp] theorem after_after (r : Reply α) (a b : List SyntaxFault) :
    (r.after b).after a = r.after (a ++ b) := by
  cases r <;> simp [Reply.after]

end Reply

/-- A parser: what it answers inside or outside a function body for some tokens. -/
structure Parser (α : Type) where
  run : (inFunction : Bool) → List Token → Reply α
  within : ∀ inFunction tokens, (run inFunction tokens).Within tokens

namespace Parser

variable {α β : Type}

@[ext] theorem ext {p q : Parser α} (h : ∀ b ts, p.run b ts = q.run b ts) : p = q := by
  have : p.run = q.run := funext fun b => funext fun ts => h b ts
  cases p
  cases q
  cases this
  rfl

/-- Succeeds without taking a token. -/
protected def pure (value : α) : Parser α where
  run _ tokens := .ok value tokens []
  within _ tokens := List.suffix_refl tokens

/-- Runs one parser, then on what is left the one that its value selects. -/
protected def bind (p : Parser α) (f : α → Parser β) : Parser β where
  run inFunction tokens :=
    match p.run inFunction tokens with
    | .ok value rest faults => ((f value).run inFunction rest).after faults
    | .failed rest faults => .failed rest faults
    | .tooDeep => .tooDeep
  within inFunction tokens := by
    have h := p.within inFunction tokens
    split
    · rename_i value rest faults hr
      rw [hr] at h
      exact (((f value).within inFunction rest).trans h).after faults
    · rename_i rest faults hr
      rw [hr] at h
      exact h
    · trivial

instance : Monad Parser where
  pure := Parser.pure
  bind := Parser.bind

@[simp] theorem run_pure (value : α) (inFunction : Bool) (tokens : List Token) :
    (pure value : Parser α).run inFunction tokens = .ok value tokens [] := rfl

theorem run_bind (p : Parser α) (f : α → Parser β) (inFunction : Bool) (tokens : List Token) :
    (p >>= f).run inFunction tokens =
      match p.run inFunction tokens with
      | .ok value rest faults => ((f value).run inFunction rest).after faults
      | .failed rest faults => .failed rest faults
      | .tooDeep => .tooDeep := rfl

/-- Gives up: the text nests deeper than the limit. -/
def tooDeep : Parser α where
  run _ _ := .tooDeep
  within _ _ := trivial

/-- A parser that is only made when it is run. -/
def delay (p : Unit → Parser α) : Parser α where
  run inFunction tokens := (p ()).run inFunction tokens
  within inFunction tokens := (p ()).within inFunction tokens

/-- Waiting makes no difference to what a parser answers. -/
@[simp] theorem delay_eq (p : Unit → Parser α) : delay p = p () := rfl

/-- Notes a fault at a given token and goes on. -/
def noteAt (token : Token) (cause : SyntaxFault.Cause) : Parser Unit where
  run _ tokens := .ok () tokens [⟨cause, some token⟩]
  within _ tokens := List.suffix_refl tokens

/-- Notes a fault at the next token and goes on. -/
def note (cause : SyntaxFault.Cause) : Parser Unit where
  run _ tokens := .ok () tokens [⟨cause, tokens.head?⟩]
  within _ tokens := List.suffix_refl tokens

/-- Fails at the next token. -/
def fail (what : Expected) : Parser α where
  run _ tokens := .failed tokens [⟨.expected what, tokens.head?⟩]
  within _ tokens := List.suffix_refl tokens

/-- Whether a function body is being read. -/
def inFunction : Parser Bool where
  run inside tokens := .ok inside tokens []
  within _ tokens := List.suffix_refl tokens

/-- Reads what stands in a function body. -/
def asFunctionBody (p : Parser α) : Parser α where
  run _ tokens := p.run true tokens
  within _ tokens := p.within true tokens

/-- The kind of the next token, if there is one. -/
def peek : Parser (Option Token.Kind) where
  run _ tokens := .ok (tokens.head?.map Token.kind) tokens []
  within _ tokens := List.suffix_refl tokens

/-- Takes the next token if its kind is of a class. -/
def acceptIf (belongs : Token.Kind → Bool) : Parser (Option Token) where
  run _ tokens :=
    match tokens with
    | [] => .ok none [] []
    | t :: rest => if belongs t.kind then .ok (some t) rest [] else .ok none (t :: rest) []
  within _ tokens := by
    cases tokens with
    | nil => exact List.suffix_refl []
    | cons t rest =>
      dsimp only
      split
      · exact List.suffix_cons t rest
      · exact List.suffix_refl _

/-- Takes the next token if it is of a kind. -/
def accept (kind : Token.Kind) : Parser (Option Token) := acceptIf (· == kind)

/-- Takes a token of a kind or fails. -/
def expect (kind : Token.Kind) (what : Expected) : Parser Token where
  run _ tokens :=
    match tokens with
    | [] => .failed [] [⟨.expected what, none⟩]
    | t :: rest =>
      if t.kind == kind then .ok t rest [] else .failed (t :: rest) [⟨.expected what, some t⟩]
  within _ tokens := by
    cases tokens with
    | nil => exact List.suffix_refl []
    | cons t rest =>
      dsimp only
      split
      · exact List.suffix_cons t rest
      · exact List.suffix_refl _

/-- Takes the next token and runs the parser that its kind selects, or runs another one on all
tokens. -/
def select (table : Token.Kind → Option (Token → Parser α)) (otherwise : Parser α) : Parser α where
  run inFunction tokens :=
    match tokens with
    | [] => otherwise.run inFunction []
    | t :: rest =>
      match table t.kind with
      | some p => (p t).run inFunction rest
      | none => otherwise.run inFunction (t :: rest)
  within inFunction tokens := by
    cases tokens with
    | nil => exact otherwise.within inFunction []
    | cons t rest =>
      dsimp only
      split
      · rename_i p _
        exact ((p t).within inFunction rest).trans (List.suffix_cons t rest)
      · exact otherwise.within inFunction _

section Folding

variable (enter : Token.Kind → Bool) (step : α → Token → Parser α)

/-- The run of `Parser.folding`, with the faults so far in reverse. -/
def foldingRun (inFunction : Bool) (faults : List SyntaxFault) (value : α) (tokens : List Token) :
    Reply α :=
  match tokens with
  | [] => .ok value [] faults.reverse
  | t :: rest =>
    if enter t.kind then
      match _h : (step value t).run inFunction rest with
      | .ok next left more => foldingRun inFunction (more.reverse ++ faults) next left
      | .failed left more => .failed left (faults.reverse ++ more)
      | .tooDeep => .tooDeep
    else .ok value (t :: rest) faults.reverse
termination_by tokens.length
decreasing_by
  have hw := (step value t).within inFunction rest
  rw [_h] at hw
  have := List.IsSuffix.length_le hw
  simp
  omega

theorem within_foldingRun (inFunction : Bool) (faults : List SyntaxFault) (value : α)
    (tokens : List Token) :
    (foldingRun enter step inFunction faults value tokens).Within tokens := by
  fun_induction foldingRun with
  | case1 => exact List.suffix_refl []
  | case2 faults value t rest _ next left more h ih =>
    have hw := (step value t).within inFunction rest
    rw [h] at hw
    simpa using ih.trans (List.IsSuffix.trans hw (List.suffix_cons t rest))
  | case3 faults value t rest _ left more h =>
    have hw := (step value t).within inFunction rest
    rw [h] at hw
    exact List.IsSuffix.trans hw (List.suffix_cons t rest)
  | case4 => trivial
  | case5 => exact List.suffix_refl _

/-- Faults from before stand in front of those found later. -/
theorem foldingRun_eq (inFunction : Bool) (faults : List SyntaxFault) (value : α)
    (tokens : List Token) :
    foldingRun enter step inFunction faults value tokens =
      (foldingRun enter step inFunction [] value tokens).after faults.reverse := by
  induction hn : tokens.length using Nat.strongRecOn generalizing faults value tokens with
  | ind n ih =>
    cases tokens with
    | nil => simp [foldingRun, Reply.after]
    | cons t rest =>
      rw [foldingRun.eq_def, foldingRun.eq_def enter step inFunction []]
      dsimp only
      by_cases henter : enter t.kind = true
      · simp only [if_pos henter]
        have hw := (step value t).within inFunction rest
        split
        · rename_i next left more h
          rw [h] at hw
          have hl : left.length < n := by
            have := List.IsSuffix.length_le hw
            simp at hn
            omega
          rw [ih _ hl _ next left rfl, ih _ hl (more.reverse ++ []) next left rfl]
          simp
        · simp [Reply.after]
        · rfl
      · simp [henter, Reply.after]

/-- While the next token is of a class, takes it and goes one step on from the value so far. -/
def folding (value : α) : Parser α where
  run inFunction tokens := foldingRun enter step inFunction [] value tokens
  within inFunction tokens := within_foldingRun enter step inFunction [] value tokens

/-- At the end there is nothing more to fold in. -/
@[simp] theorem run_folding_nil (inFunction : Bool) (value : α) :
    (folding enter step value).run inFunction [] = .ok value [] [] := by
  simp [folding, foldingRun]

/-- A token of the class is taken and followed by one step and more rounds; any other ends the
loop. -/
theorem run_folding_cons (inFunction : Bool) (value : α) (t : Token) (rest : List Token) :
    (folding enter step value).run inFunction (t :: rest) =
      if enter t.kind then (step value t >>= folding enter step).run inFunction rest
      else .ok value (t :: rest) [] := by
  simp only [folding, run_bind]
  rw [foldingRun.eq_def]
  dsimp only
  split
  · split
    · rename_i next left more h
      rw [foldingRun_eq, h]
      simp
    · rename_i left more h
      simp [h]
    · rename_i h
      simp [h]
  · rfl

end Folding

end Parser

/-- A parser that takes a token whenever it succeeds with tokens at hand. -/
structure Advancing (α : Type) extends Parser α where
  advances : ∀ inFunction t rest, (run inFunction (t :: rest)).Shorter (t :: rest)

namespace Advancing

variable {α β : Type}

/-- A parser that gives up takes no token, but does not succeed either. -/
def tooDeep : Advancing α where
  toParser := Parser.tooDeep
  advances _ _ _ := trivial

/-- An advancing parser that is only made when it is run. -/
def delay (p : Unit → Advancing α) : Advancing α where
  toParser := Parser.delay fun u => (p u).toParser
  advances := (p ()).advances

/-- Whatever comes first, a token of a given kind has to follow. -/
def closedBy (p : Parser α) (kind : Token.Kind) (what : Expected) (f : α → β) : Advancing β where
  toParser := do
    let value ← p
    let _ ← Parser.expect kind what
    return f value
  advances inFunction t rest := by
    have h := p.within inFunction (t :: rest)
    simp only [Parser.run_bind]
    split
    · rename_i value left faults hr
      rw [hr] at h
      apply Reply.Shorter.after
      cases left with
      | nil => trivial
      | cons u left =>
        have := List.IsSuffix.length_le h
        simp only [Parser.expect]
        by_cases hk : u.kind == kind
        · simp only [hk, if_true, Parser.run_pure, Reply.after, Reply.Shorter]
          simp only [List.length_cons] at this ⊢
          omega
        · simp only [hk]
          trivial
    · trivial
    · trivial

/-- Takes the next token and runs the parser that its kind selects, or runs another one that
advances by itself. -/
def select (table : Token.Kind → Option (Token → Parser α)) (otherwise : Advancing α) :
    Advancing α where
  toParser := Parser.select table otherwise.toParser
  advances inFunction t rest := by
    simp only [Parser.select]
    split
    · rename_i p _
      have h := (p t).within inFunction rest
      cases hr : (p t).run inFunction rest with
      | ok value left faults =>
        rw [hr] at h
        have := List.IsSuffix.length_le h
        simp [Reply.Shorter]
        omega
      | failed => trivial
      | tooDeep => trivial
    · exact otherwise.advances inFunction t rest

end Advancing

namespace Parser

variable {α : Type}

/-- The run of `Parser.rows`, with the values and the faults so far in reverse. -/
def rowsRun (stop : Token.Kind → Bool) (item : Advancing α) (inFunction : Bool)
    (values : List α) (faults : List SyntaxFault) (tokens : List Token) : Reply (List α) :=
  match tokens with
  | [] => .ok values.reverse [] faults.reverse
  | t :: rest =>
    if stop t.kind then .ok values.reverse (t :: rest) faults.reverse
    else
      match _h : item.run inFunction (t :: rest) with
      | .ok value left more =>
        rowsRun stop item inFunction (value :: values) (more.reverse ++ faults) left
      | .failed left more => .failed left (faults.reverse ++ more)
      | .tooDeep => .tooDeep
termination_by tokens.length
decreasing_by
  have hs := item.advances inFunction t rest
  rw [_h] at hs
  exact hs

theorem within_rowsRun (stop : Token.Kind → Bool) (item : Advancing α) (inFunction : Bool)
    (values : List α) (faults : List SyntaxFault) (tokens : List Token) :
    (rowsRun stop item inFunction values faults tokens).Within tokens := by
  fun_induction rowsRun with
  | case1 => exact List.suffix_refl []
  | case2 => exact List.suffix_refl _
  | case3 values faults t rest _ value left more h ih =>
    have hw := item.within inFunction (t :: rest)
    rw [h] at hw
    exact ih.trans hw
  | case4 values faults t rest _ left more h =>
    have hw := item.within inFunction (t :: rest)
    rw [h] at hw
    exact hw
  | case5 => trivial

/-- Runs one advancing parser again and again, up to the end or a token of a class. -/
def rows (stop : Token.Kind → Bool) (item : Advancing α) : Parser (List α) where
  run inFunction tokens := rowsRun stop item inFunction [] [] tokens
  within inFunction tokens := within_rowsRun stop item inFunction [] [] tokens

/-- Values and faults from before stand in front of those found later. -/
theorem rowsRun_eq (stop : Token.Kind → Bool) (item : Advancing α) (inFunction : Bool)
    (values : List α) (faults : List SyntaxFault) (tokens : List Token) :
    rowsRun stop item inFunction values faults tokens =
      match rowsRun stop item inFunction [] [] tokens with
      | .ok more rest noted => .ok (values.reverse ++ more) rest (faults.reverse ++ noted)
      | .failed rest noted => .failed rest (faults.reverse ++ noted)
      | .tooDeep => .tooDeep := by
  induction hn : tokens.length using Nat.strongRecOn generalizing values faults tokens with
  | ind n ih =>
    cases tokens with
    | nil => simp [rowsRun]
    | cons t rest =>
      rw [rowsRun.eq_def, rowsRun.eq_def stop item inFunction [] []]
      dsimp only
      by_cases hstop : stop t.kind = true
      · simp [hstop]
      · simp only [if_neg hstop]
        have hs := item.advances inFunction t rest
        split
        · rename_i value left more h
          rw [h] at hs
          rw [ih _ (hn ▸ hs) (value :: values) _ left rfl,
            ih _ (hn ▸ hs) [value] _ left rfl]
          split <;> simp
        · simp
        · simp

/-- At the end there are no more rows. -/
@[simp] theorem run_rows_nil (stop : Token.Kind → Bool) (item : Advancing α) (inFunction : Bool) :
    (rows stop item).run inFunction [] = .ok [] [] [] := by
  simp [rows, rowsRun]

/-- A token of the class ends the rows; any other begins one more. -/
theorem run_rows_cons (stop : Token.Kind → Bool) (item : Advancing α) (inFunction : Bool)
    (t : Token) (rest : List Token) :
    (rows stop item).run inFunction (t :: rest) =
      if stop t.kind then .ok [] (t :: rest) []
      else (do
        let value ← item.toParser
        let values ← rows stop item
        return value :: values : Parser (List α)).run inFunction (t :: rest) := by
  simp only [rows, run_bind]
  rw [rowsRun.eq_def]
  dsimp only
  by_cases hstop : stop t.kind = true
  · simp [hstop]
  · simp only [if_neg hstop]
    split
    · rename_i value left more h
      rw [rowsRun_eq, h]
      dsimp only
      split <;> simp_all [Reply.after]
    · rename_i left more h
      simp [h]
    · rename_i h
      simp [h]

end Parser

end LoxLang
