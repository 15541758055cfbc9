import LoxLang.Fault
import LoxLang.Piece

/-!
# Scanning

The pieces of a source are numbered with the lines on which they start. Numbers, strings, words and
operators are tokens; stray characters and a string that is never closed are faults; the rest only
keeps tokens apart.

## Main definitions

* `Piece.place` — the pieces with the lines on which they start.
* `Piece.token?`, `Piece.fault?` — what a piece contributes.
* `Scan` — the tokens, the faults and the last line of a source.
* `scan` — scans a source.
-/

namespace LoxLang

namespace Piece

/-- Numbers pieces with the lines on which they start, counting from a line. -/
def placeOnto (found : List (Piece × Nat)) (line : Nat) : List Piece → List (Piece × Nat)
  | [] => found.reverse
  | p :: rest => placeOnto ((p, line) :: found) (line + p.lineCount) rest

/-- The pieces with the lines on which they start, the first of them on the given line. -/
def place (line : Nat) (pieces : List Piece) : List (Piece × Nat) := placeOnto [] line pieces

/-- Pieces numbered earlier stand in front of the others. -/
theorem placeOnto_eq (found : List (Piece × Nat)) (line : Nat) (pieces : List Piece) :
    placeOnto found line pieces = found.reverse ++ place line pieces := by
  unfold place
  induction pieces generalizing found line with
  | nil => simp [placeOnto]
  | cons p rest ih => rw [placeOnto, placeOnto, ih, ih [_]]; simp

@[simp] theorem place_nil (line : Nat) : place line [] = [] := rfl

/-- The next piece starts after the line ends of this one. -/
@[simp] theorem place_cons (line : Nat) (p : Piece) (rest : List Piece) :
    place line (p :: rest) = (p, line) :: place (line + p.lineCount) rest := by
  rw [place, placeOnto, placeOnto_eq]
  rfl

/-- The kind of token that a piece is, if it is one. -/
def kind? (p : Piece) : Option Token.Kind :=
  match p.sort with
  | .string => some .string
  | .number => some .number
  | .word => some (Token.Kind.ofWord (String.ofList p.text))
  | .operator kind => some kind
  | .comment | .openString | .lineEnds | .blank | .stray => none

/-- The token that a piece on a line is, if it is one. -/
def token? (p : Piece) (line : Nat) : Option Token :=
  p.kind?.map fun kind => ⟨kind, String.ofList p.text, line⟩

/-- The fault of a piece on a line. A string that is never closed is found out at its end. -/
def fault? (p : Piece) (line : Nat) : Option LexicalFault :=
  match p.sort with
  | .stray => p.text.head?.map fun c => ⟨.unexpectedCharacter c, line⟩
  | .openString => some ⟨.unterminatedString, line + p.lineCount⟩
  | _ => none

end Piece

/-- What scanning a source gives. -/
structure Scan where
  /-- The tokens, without a mark for the end. -/
  tokens : List Token
  faults : List LexicalFault
  /-- The line on which the source ends. -/
  lastLine : Nat
deriving DecidableEq, Repr

/-- Scans a source, whose first line is line one. -/
def scan (source : String) : Scan :=
  let text := source.toList
  let placed := Piece.place 1 (Piece.cut text)
  { tokens := placed.filterMap fun (p, line) => p.token? line
    faults := placed.filterMap fun (p, line) => p.fault? line
    lastLine := 1 + text.count '\n' }

/-- The tokens with the mark for the end behind them. -/
def Scan.allTokens (s : Scan) : List Token := s.tokens ++ [Token.atEnd s.lastLine]

end LoxLang
