import LoxLang.Proofs.Grammar.Sentence
import LoxLang.Proofs.Scan.Written
import LoxLang.Render.Tree
import LoxLang.Text.Utf8

set_option autoImplicit false

/-!
# Long sums

The operators of one level are read one after another, so a sum of many terms takes no more depth to
read than one of two. Its tree leans to the left and nests as deep as the sum is long. So on any
stack there are texts that can be read and whose trees cannot be shown.

## Main definitions

* `LongSum.text` — the text of a sum of ones.
* `LongSum.program`, `LongSum.tree` — its derivation and its tree.

## Main results

* `LongSum.reads_text` — the text is scanned to the tokens of the derivation.
* `LongSum.parse_text` — the text is read without a fault, at a depth that its length has no say in.
* `LongSum.treeDepth_tree` — how many calls nest to make the form of its tree.
-/

namespace LoxLang

namespace LongSum

open Scan Token

/-! ## The text and its derivation -/

/-- A sum of ones with so many signs. -/
def terms : Nat → List Char
  | 0 => ['1']
  | n + 1 => terms n ++ ['+', '1']

/-- A sum of ones with so many signs, as a statement. -/
def text (n : Nat) : List Char := terms n ++ [';']

/-- A term of the sum. -/
def one : Token := ⟨.number, String.ofList ['1'], 1⟩

/-- A sign of the sum. -/
def plus : Token := ⟨.plus, String.ofList Kind.plus.spelling, 1⟩

/-- What stands behind the sum. -/
def semicolon : Terminal .semicolon :=
  ⟨⟨.semicolon, String.ofList Kind.semicolon.spelling, 1⟩, rfl⟩

/-- The derivation of a term. -/
def term : ExprPhrase (.operation [.product]) :=
  .looser _ _ (.ofUnary (.ofCall (.ofPrimary (.literal one (.number (numberOf one.lexeme)) rfl))))

/-- The derivation of a sum, which groups from the left. -/
def sum : Nat → ExprPhrase (.operation [.sum, .product])
  | 0 => .looser _ _ term
  | n + 1 => .join _ _ (sum n) plus rfl term

/-- The derivation of a sum as a program. -/
def program (n : Nat) : StmtPhrase .declarations :=
  .cons (.statement (.evaluation
    ⟨.plain (.looser _ _ (.looser _ _ (.looser _ _ (.looser _ _ (sum n))))), semicolon⟩)) .nil

/-- The tree of a sum. -/
def tree (n : Nat) : Stmt := .expression (sum n).tree

/-! ## Scanning -/

lemma eq_of_mem_terms {n : Nat} {c : Char} (h : c ∈ terms n) : c = '1' ∨ c = '+' := by
  induction n with
  | zero => exact .inl (List.mem_singleton.1 h)
  | succ n ih =>
    rcases List.mem_append.1 h with h | h
    · exact ih h
    · simpa [or_comm] using h

lemma eq_of_mem_text {n : Nat} {c : Char} (h : c ∈ text n) : c = '1' ∨ c = '+' ∨ c = ';' := by
  rcases List.mem_append.1 h with h | h
  · exact or_assoc.1 (.inl (eq_of_mem_terms h))
  · exact .inr (.inr (List.mem_singleton.1 h))

/-- The text is stored with a byte for each character, and its one line goes on to its end. -/
lemma unifyLineEnds_decode (n : Nat) : Utf8.decode (Utf8.bytesOf (text n)) = .ok (text n) ∧
    Text.unifyLineEnds (text n) = text n := by
  refine ⟨Utf8.decode_bytesOf fun c hc => ?_, Text.unifyLineEnds_of_notMem fun hc => ?_⟩
  · rcases eq_of_mem_text hc with rfl | rfl | rfl <;> decide
  · exact absurd (eq_of_mem_text hc) (by decide)

variable {rest : List Char}

lemma reads_one (h : Parted rest) : Reads 1 ['1'] rest [one] 1 := by
  have hnumeral : Numeral ['1'] := .whole ⟨by simp, by simp⟩
  have hfirst : Piece.first '1' ([] ++ rest) = (⟨.number, ['1']⟩, rest) := by
    refine Piece.first_numeral hnumeral fun d hd => ?_
    obtain ⟨hword, hpoint, -⟩ := h d hd
    exact ⟨(Bool.or_eq_false_iff.1 hword).2, hpoint⟩
  exact Reads.of_first_token hfirst rfl

lemma reads_plus (rest : List Char) : Reads 1 ['+'] ('1' :: rest) [plus] 1 := by
  have hfirst : Piece.first '+' ([] ++ '1' :: rest) = (⟨.operator .plus, ['+']⟩, '1' :: rest) :=
    Piece.first_spelling rfl (by simp)
  exact Reads.of_first_token hfirst rfl

lemma reads_semicolon : Reads 1 [';'] [] [semicolon.1] 1 := by
  have hfirst : Piece.first ';' ([] ++ []) = (⟨.operator .semicolon, [';']⟩, []) :=
    Piece.first_spelling rfl (by simp)
  exact Reads.of_first_token hfirst rfl

/-- The terms are scanned to the tokens of the derivation. -/
lemma reads_terms (n : Nat) (h : Parted rest) : Reads 1 (terms n) rest (sum n).tokens 1 := by
  induction n generalizing rest with
  | zero => exact reads_one h
  | succ n ih =>
    have hsign : Parted ('+' :: '1' :: rest) := by
      rintro d ⟨⟩
      decide
    exact (ih hsign).append ((reads_plus rest).append (reads_one h))

/-- The text is scanned to the tokens of the derivation. -/
lemma reads_text (n : Nat) : Reads 1 (text n) [] (program n).tokens 1 := by
  have hend : Parted [';'] := by
    rintro d ⟨⟩
    decide
  have hreads := (reads_terms n hend).append reads_semicolon
  simpa [text, program, StmtPhrase.tokens, EvaluationPhrase.tokens, ExprPhrase.tokens] using hreads

/-! ## Reading -/

lemma height_sum (n : Nat) : (sum n).height = 1 := by
  induction n with
  | zero => rfl
  | succ n ih => simp [sum, ExprPhrase.height, ih, term]

lemma faults_sum (n : Nat) : (sum n).faults = [] := by
  induction n with
  | zero => rfl
  | succ n ih => simp [sum, ExprPhrase.faults, ih, term]

/-- A sum is read at a depth that its length has no say in, and nothing is wrong with it. -/
theorem parse_text {depth : Nat} (h : 4 ≤ depth) (n : Nat) :
    Grammar.parse depth (scan (String.ofList (text n))).tokens = .done [some (tree n)] [] ∧
    (scan (String.ofList (text n))).faults = [] := by
  have hreads := reads_text n
  have htokens := hreads.tokens_eq
  have hfaults := hreads.faults_eq
  rw [List.append_nil] at htokens hfaults
  rw [tokens_scan, faults_scan, String.toList_ofList, htokens, hfaults, tokensFrom_nil,
    List.append_nil]
  have hheight : (program n).height ≤ depth := by
    simpa [program, StmtPhrase.height, ExprPhrase.height, height_sum] using h
  have hquiet : (program n).faults false = [] := by
    simp [program, StmtPhrase.faults, ExprPhrase.faults, faults_sum]
  have hparse := Grammar.parse_eq_done (program n) ⟨trivial, trivial⟩ hheight
  rw [hquiet] at hparse
  exact ⟨hparse, faultsFrom_nil 1⟩

/-! ## Showing -/

/-- The tree of a sum nests deeper with each term. -/
lemma treeDepth_sum (n : Nat) : Expr.treeDepth (sum n).tree = callsToParts * n + 2 := by
  induction n with
  | zero => rfl
  | succ n ih =>
    have hterm : Expr.treeDepth term.tree = 2 := rfl
    have hjoin : Expr.treeDepth (sum (n + 1)).tree =
        callsToParts + max (Expr.treeDepth (sum n).tree) (Expr.treeDepth term.tree) := rfl
    rw [hjoin, ih, hterm, Nat.mul_succ]
    omega

/-- The longer a sum is, the more calls nest to make the form of its tree. -/
theorem treeDepth_tree (n : Nat) : (tree n).treeDepth = callsToParts * (n + 1) + 2 := by
  rw [tree, Stmt.treeDepth, treeDepth_sum, Nat.mul_succ]
  omega

end LongSum

end LoxLang
