import LoxLang.Proofs.Scan.Newline
import LoxLang.Proofs.Scan.Written

set_option autoImplicit false

/-!
# Tokens do not depend on the layout

The lexemes of a source with other gaps between them are scanned to the same tokens on other lines.
Comments and stray characters are gone from such a text, so nothing is wrong with it, and it is
its own canonical form if each gap is a single blank.

## Main definitions

* `Scan.Gap` — what may stand between two tokens: at least one blank or line end.
* `Scan.spaced` — the lexemes of tokens with gaps between them.
* `Scan.canonical` — the lexemes of a source with single blanks between them.
* `Token.content` — all there is to a token but its line.

## Main results

* `Scan.reads_gap` — a gap has no token and no fault.
* `Scan.scan_spaced` — tokens survive other gaps between them.
-/

namespace LoxLang

/-- All there is to a token but its line: its kind, its text and its value. -/
def Token.content (t : Token) : Token.Kind × String × Option Literal := (t.kind, t.lexeme, t.literal?)

namespace Scan

/-- A character of a gap: a blank, a tab, a carriage return or a line end. -/
def isGap (c : Char) : Bool := Piece.isBlank c || c == '\n'

/-- What may stand between two tokens: any number of such characters, but one at least. -/
structure Gap (text : String) : Prop where
  ne_nil : text.toList ≠ []
  holds : ∀ c ∈ text.toList, isGap c = true

/-- Lexemes with gaps between them, each gap behind a lexeme that is not the last. -/
def spaced (gap : Nat → String) : List String → String
  | [] => ""
  | [lexeme] => lexeme
  | lexeme :: next :: rest => lexeme ++ gap 0 ++ spaced (fun i => gap (i + 1)) (next :: rest)

/-- The lexemes of a source. -/
def lexemes (source : String) : List String := (scan source).tokens.map Token.lexeme

/-- The lexemes of a source with single blanks between them. -/
def canonical (source : String) : String := spaced (fun _ => " ") (lexemes source)

variable {line : Nat} {c : Char} {text rest : List Char} {ts us : List Token}

/-! ## Gaps -/

/-- The characters of a gap, one by one. -/
lemma eq_of_isGap (h : isGap c = true) : c = ' ' ∨ c = '\t' ∨ c = '\r' ∨ c = '\n' := by
  simpa [isGap, Piece.isBlank, or_assoc] using h

/-- One character of a gap has no token and no fault. A line end only moves down what follows, also
if more line ends follow. -/
lemma reads_isGap (h : isGap c = true) (line : Nat) (rest : List Char) :
    ∃ next, Reads line [c] rest [] next := by
  rcases eq_of_isGap h with hc | hc | hc | hc
  case inr.inr.inr =>
    subst hc
    refine ⟨line + 1, ?_, ?_⟩
    · exact contributions_newline (g := Piece.token?) (fun _ _ => rfl) line rest
    · exact contributions_newline (g := Piece.fault?) (fun _ _ => rfl) line rest
  all_goals
    have hfirst : Piece.first c ([] ++ rest) = (⟨.blank, [c]⟩, rest) := by
      subst c
      simp [Piece.first, Piece.startsWord, Piece.isBlank]
    exact ⟨_, Reads.of_first hfirst rfl⟩

/-- **A gap has no token and no fault.** -/
lemma reads_gap (h : ∀ c ∈ text, isGap c = true) (line : Nat) (rest : List Char) :
    ∃ next, Reads line text rest [] next := by
  induction text generalizing line with
  | nil => exact ⟨line, .nil line rest⟩
  | cons c text ih =>
    obtain ⟨mid, hhead⟩ := reads_isGap (h c (by simp)) line (text ++ rest)
    obtain ⟨next, htail⟩ := ih (fun d hd => h d (List.mem_cons_of_mem c hd)) mid
    exact ⟨next, hhead.append htail⟩

/-- Every token ends in front of a gap. -/
lemma Gap.parted {gap : String} (h : Gap gap) (rest : List Char) : Parted (gap.toList ++ rest) := by
  obtain ⟨c, text, htext⟩ := List.exists_cons_of_ne_nil h.ne_nil
  have hc : isGap c = true := h.holds c (by simp [htext])
  intro d hd
  obtain rfl : c = d := by simpa [htext] using hd
  rcases eq_of_isGap hc with rfl | rfl | rfl | rfl <;> decide

/-! ## Tokens with gaps between them -/

/-- Lexemes with gaps between them are scanned to tokens with the contents of those that they come
from, if each of these is written as tokens of its kind are.

**Proof sketch.** Induction on the tokens. No token goes on with the gap behind it, so it is scanned
from its own lexeme; then the gap is passed over. -/
theorem reads_spaced {gap : Nat → String} (hgap : ∀ i, Gap (gap i))
    (hs : ∀ t ∈ ts, Token.Spells t.kind t.lexeme.toList) (line : Nat) :
    ∃ us next, Reads line (spaced gap (ts.map Token.lexeme)).toList [] us next ∧
      us.map Token.content = ts.map Token.content := by
  induction ts generalizing gap line with
  | nil => exact ⟨[], line, .nil line [], rfl⟩
  | cons t ts ih =>
    have ht := hs t (by simp)
    cases ts with
    | nil =>
      have hlast : Parted [] := by simp [Parted]
      obtain ⟨next, hreads⟩ := reads_spelled ht hlast line
      exact ⟨_, next, hreads, by simp [Token.content, Token.literal?]⟩
    | cons u ts =>
      set others := spaced (fun i => gap (i + 1)) ((u :: ts).map Token.lexeme)
      have htext : (spaced gap ((t :: u :: ts).map Token.lexeme)).toList =
          t.lexeme.toList ++ ((gap 0).toList ++ others.toList) := by
        simp [spaced, others]
      obtain ⟨mid, htoken⟩ := reads_spelled ht ((hgap 0).parted (others.toList ++ [])) line
      obtain ⟨mid', hpassed⟩ := reads_gap (hgap 0).holds mid (others.toList ++ [])
      obtain ⟨us, next, hothers, hcontent⟩ :=
        ih (fun i => hgap (i + 1)) (fun v hv => hs v (List.mem_cons_of_mem t hv)) mid'
      rw [← List.append_assoc] at htoken
      refine ⟨_, next, htext ▸ htoken.append (hpassed.append hothers), ?_⟩
      simp [Token.content, Token.literal?, ← hcontent]

/-- A single blank is a gap. -/
lemma gap_blank : Gap " " := ⟨by simp, by simp [isGap, Piece.isBlank]⟩

section Source

variable (source : String) {gap : Nat → String} (hgap : ∀ i, Gap (gap i))

include hgap

/-- Scanning the lexemes of a source again. -/
lemma scan_spaced_lexemes :
    (scan (spaced gap (lexemes source))).faults = [] ∧
      (scan (spaced gap (lexemes source))).tokens.map Token.content =
        (scan source).tokens.map Token.content := by
  have hspells : ∀ t ∈ (scan source).tokens, Token.Spells t.kind t.lexeme.toList :=
    fun t ht => spells_of_mem_tokensFrom ht
  obtain ⟨us, next, hreads, hcontent⟩ := reads_spaced hgap hspells 1
  have htokens := hreads.tokens_eq
  have hfaults := hreads.faults_eq
  rw [List.append_nil, tokensFrom_nil, List.append_nil] at htokens
  rw [List.append_nil, faultsFrom_nil] at hfaults
  refine ⟨hfaults, ?_⟩
  rw [← hcontent]
  exact congrArg (List.map Token.content) htokens

/-- The canonical form does not depend on the gaps. -/
lemma canonical_spaced : canonical (spaced gap (lexemes source)) = canonical source := by
  have hlexemes : lexemes (spaced gap (lexemes source)) = lexemes source := by
    have h := congrArg (List.map fun content => content.2.1) (scan_spaced_lexemes source hgap).2
    rwa [List.map_map, List.map_map] at h
  rw [canonical, hlexemes, canonical]

end Source

/-- **Tokens survive other gaps between them.** Let the lexemes of a source, whatever its faults, be
written with any gaps between them. Nothing is wrong with this text, and it has the tokens of the
source, in order and with the same kinds, lexemes and values, so they depend on no layout. With
single blanks for gaps it is a form of the source that is its own canonical form. -/
theorem scan_spaced (source : String) {gap : Nat → String} (hgap : ∀ i, Gap (gap i)) :
    let again := spaced gap (lexemes source)
    (scan again).faults = [] ∧
      (scan again).allTokens.map Token.content = (scan source).allTokens.map Token.content ∧
      canonical again = canonical source ∧ canonical (canonical source) = canonical source := by
  obtain ⟨hfaults, htokens⟩ := scan_spaced_lexemes source hgap
  refine ⟨hfaults, ?_, canonical_spaced source hgap, canonical_spaced source fun _ => gap_blank⟩
  rw [Scan.allTokens, Scan.allTokens, List.map_append, List.map_append, htokens]
  rfl

/-- A stray character and a comment are gone, and nothing runs together, when line ends and tabs are
put between the lexemes of a source. -/
theorem scan_spaced_strayAndComment :
    let source := "1.2.x@!\"a\nb\"==/ // c"
    let gap : Nat → String := fun i => if i % 2 = 0 then "\n" else "\t "
    (∀ i, Gap (gap i)) ∧ (scan source).faults = [⟨.unexpectedCharacter '@', 1⟩] ∧
      spaced gap (lexemes source) = "1.2\n.\t x\n!\t \"a\nb\"\n==\t /" ∧
      (scan (spaced gap (lexemes source))).faults = [] ∧
      (scan (spaced gap (lexemes source))).allTokens.map Token.content =
        (scan source).allTokens.map Token.content := by
  intro source gap
  have hgap : ∀ i, Gap (gap i) := by
    intro i
    simp only [gap]
    split
    · exact ⟨by simp, by simp [isGap, Piece.isBlank]⟩
    · exact ⟨by simp, by simp [isGap, Piece.isBlank]⟩
  obtain ⟨hfaults, htokens, -⟩ := scan_spaced source hgap
  exact ⟨hgap, by decide +kernel, by decide +kernel, hfaults, htokens⟩

end Scan

end LoxLang
