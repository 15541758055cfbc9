import LoxLang.Token

/-!
# Cutting source text into pieces

Source text is cut from left to right; at each place the longest piece that some rule allows is
taken. Every character belongs to exactly one piece, so the pieces put together give the source
back.

## Main definitions

* `Piece` — a stretch of source and its sort.
* `Piece.first` — the piece at the head of a text, and what is left.
* `Piece.cut` — all pieces of a text.

## Main results

* `Piece.first_append` — a piece and what is left after it make up the text.
* `Piece.cut_cons` — cutting is taking the first piece and cutting what is left.
* `Piece.flatMap_text_cut` — nothing is lost or added by cutting.
-/

namespace LoxLang

/-- The sorts of piece. -/
inductive Piece.Sort
  /-- Two slashes and the rest of the line. -/
  | comment
  /-- A string with both its quotes. -/
  | string
  /-- A quote that is never closed, and all that follows it. -/
  | openString
  /-- Digits, and a point between digits. -/
  | number
  /-- A letter or underscore, and more of these or digits. -/
  | word
  /-- A run of line ends. -/
  | lineEnds
  /-- An operator or mark. -/
  | operator (kind : Token.Kind)
  /-- One blank, tab or carriage return. -/
  | blank
  /-- One character that begins no other piece. -/
  | stray
deriving DecidableEq, Repr

/-- A stretch of source text. -/
structure Piece where
  sort : Piece.Sort
  text : List Char
deriving DecidableEq, Repr

namespace Piece

/-- A letter of the ASCII alphabet or an underscore. -/
def startsWord (c : Char) : Bool := c.isAlpha || c == '_'

/-- What a word may go on with. -/
def continuesWord (c : Char) : Bool := startsWord c || c.isDigit

/-- A character that only keeps pieces apart. -/
def isBlank (c : Char) : Bool := c == ' ' || c == '\t' || c == '\r'

/-- The longest run of characters of a class at the head of a text, and what is left. -/
def run (p : Char → Bool) (text : List Char) : List Char × List Char :=
  (text.takeWhile p, text.dropWhile p)

/-- The fraction of a number: a point, if a digit follows it, and the digits. -/
def fraction (text : List Char) : List Char × List Char :=
  match text with
  | '.' :: d :: rest =>
    if d.isDigit then ('.' :: d :: rest.takeWhile Char.isDigit, rest.dropWhile Char.isDigit)
    else ([], text)
  | _ => ([], text)

/-- A string from its opening quote on, closed if a second quote follows. -/
def quoted (text : List Char) : Piece × List Char :=
  let (body, rest) := run (· != '"') text
  match rest with
  | [] => (⟨.openString, '"' :: body⟩, [])
  | quote :: rest => (⟨.string, '"' :: (body ++ [quote])⟩, rest)

/-- A number from its first digit on. -/
def numeral (c : Char) (text : List Char) : Piece × List Char :=
  let (digits, rest) := run Char.isDigit text
  let (tail, rest) := fraction rest
  (⟨.number, c :: (digits ++ tail)⟩, rest)

/-- An operator of two characters if there is one, else of one, else a stray character. -/
def symbol (c : Char) (text : List Char) : Piece × List Char :=
  let single : Piece × List Char :=
    match Token.Kind.ofSymbol? c with
    | some kind => (⟨.operator kind, [c]⟩, text)
    | none => (⟨.stray, [c]⟩, text)
  match text with
  | d :: rest =>
    match Token.Kind.ofPair? c d with
    | some kind => (⟨.operator kind, [c, d]⟩, rest)
    | none => single
  | [] => single

/-- The piece that a text begins with, and what is left after it. -/
def first (c : Char) (text : List Char) : Piece × List Char :=
  if c == '/' && text.head? == some '/' then
    let (body, rest) := run (· != '\n') text
    (⟨.comment, c :: body⟩, rest)
  else if c == '"' then quoted text
  else if c.isDigit then numeral c text
  else if startsWord c then
    let (body, rest) := run continuesWord text
    (⟨.word, c :: body⟩, rest)
  else if c == '\n' then
    let (body, rest) := run (· == '\n') text
    (⟨.lineEnds, c :: body⟩, rest)
  else if isBlank c then (⟨.blank, [c]⟩, text)
  else symbol c text

/-- A fraction and what is left after it make up the text. -/
theorem fraction_append (text : List Char) :
    (fraction text).1 ++ (fraction text).2 = text := by
  unfold fraction
  split
  · split <;> simp [List.takeWhile_append_dropWhile]
  · rfl

/-- A piece and what is left after it make up the text. -/
theorem first_append (c : Char) (text : List Char) :
    (first c text).1.text ++ (first c text).2 = c :: text := by
  unfold first
  split
  · simp [run, List.takeWhile_append_dropWhile]
  split
  · rename_i _ hc
    have h := List.takeWhile_append_dropWhile (p := (· != '"')) (l := text)
    simp only [quoted, run]
    split <;> simp_all
  split
  · have h := List.takeWhile_append_dropWhile (p := Char.isDigit) (l := text)
    have h' := fraction_append (text.dropWhile Char.isDigit)
    simp [numeral, run, h', h]
  split
  · simp [run, List.takeWhile_append_dropWhile]
  split
  · simp [run, List.takeWhile_append_dropWhile]
  split
  · simp
  · simp only [symbol]
    repeat' split
    all_goals simp

/-- A piece holds at least the character it begins with. -/
theorem length_rest_first (c : Char) (text : List Char) :
    (first c text).2.length ≤ text.length := by
  have hpos : 0 < (first c text).1.text.length := by
    unfold first
    repeat' split
    all_goals try simp
    · simp only [quoted]
      split <;> simp
    · simp [numeral]
    · simp only [symbol]
      repeat' split
      all_goals simp
  have h := congrArg List.length (first_append c text)
  simp at h
  omega

/-- Cuts a text, with the pieces found so far in reverse. -/
def cutOnto (found : List Piece) (text : List Char) : List Piece :=
  match text with
  | [] => found.reverse
  | c :: rest => cutOnto ((first c rest).1 :: found) (first c rest).2
termination_by text.length
decreasing_by
  have := length_rest_first c rest
  simp
  omega

/-- The pieces of a text, from left to right. -/
def cut (text : List Char) : List Piece := cutOnto [] text

/-- Pieces found earlier stand in front of the others. -/
theorem cutOnto_eq (found : List Piece) (text : List Char) :
    cutOnto found text = found.reverse ++ cut text := by
  unfold cut
  induction hn : text.length using Nat.strongRecOn generalizing found text with
  | ind n ih =>
    cases text with
    | nil => simp [cutOnto]
    | cons c rest =>
      have hlt := length_rest_first c rest
      rw [cutOnto, cutOnto, ih _ (by simp at hn; omega) _ _ rfl,
        ih _ (by simp at hn; omega) [_] _ rfl]
      simp

/-- There is nothing to cut in an empty text. -/
@[simp] theorem cut_nil : cut [] = [] := by simp [cut, cutOnto]

/-- Cutting is taking the first piece and cutting what is left. -/
theorem cut_cons (c : Char) (rest : List Char) :
    cut (c :: rest) = (first c rest).1 :: cut (first c rest).2 := by
  rw [cut, cutOnto, cutOnto_eq]
  rfl

/-- The pieces put together give the text back. -/
theorem flatMap_text_cut (text : List Char) : (cut text).flatMap Piece.text = text := by
  induction hn : text.length using Nat.strongRecOn generalizing text with
  | ind n ih =>
    cases text with
    | nil => simp
    | cons c rest =>
      have hlt := length_rest_first c rest
      rw [cut_cons, List.flatMap_cons, ih _ (by simp at hn; omega) _ rfl, first_append]

/-- How many line ends a piece holds. -/
def lineCount (p : Piece) : Nat := p.text.count '\n'

end Piece

end LoxLang
