import LoxLang.Proofs.Grammar.Relabel
import LoxLang.Proofs.Scan.Reading
import LoxLang.Render.Tree

set_option autoImplicit false

/-!
# Scanning what is written for tokens

What is written for a token is scanned to a token like it, if it stands in front of something that
does not go on with it: behind a word or a number comes a blank, a comma or a parenthesis, behind an
operator neither an equals sign nor a slash.

## Main definitions

* `Scan.Parted`, `Scan.Clear`, `Scan.Fresh` — texts in front of which a token ends.
* `Token.Alike` — tokens that differ in their lines only, or in how they write one literal.
* `Scan.ReadsAs` — a text is scanned to tokens like some given ones.

## Main results

* `Token.spells_written` — a finite literal is written as a token that stands for it.
* `Scan.scan_spelled` — the text of a token by itself is scanned to it.
* `Scan.ReadsAs.lexeme`, `Scan.ReadsAs.literal`, `Scan.ReadsAs.sign` — one token is scanned from
  what is written for it.
* `Scan.ReadsAs.append` — texts are scanned one after another.
-/

namespace LoxLang

/-- A literal is no infinite number. -/
def Literal.IsFinite : Literal → Prop
  | .number x => x.isFinite = true
  | _ => True

/-! ## Literals as they are written -/

/-- A text begins with neither an equals sign nor a slash, so that it does not go on with an
operator in front of it. -/
def Scan.Fresh (text : List Char) : Prop := ∃ c more, text = c :: more ∧ c ≠ '=' ∧ c ≠ '/'

namespace Scan.Fresh

variable {text : List Char}

/-- What begins with a fresh text is fresh. -/
lemma append (h : Fresh text) (more : List Char) : Fresh (text ++ more) := by
  obtain ⟨c, rest, rfl, hc⟩ := h
  exact ⟨c, rest ++ more, rfl, hc⟩

/-- An operator ends in front of a fresh text. -/
lemma head_ne (h : Fresh text) : ∀ d ∈ text.head?, d ≠ '=' ∧ d ≠ '/' := by
  obtain ⟨c, rest, rfl, hc⟩ := h
  intro d hd
  obtain rfl : c = d := by simpa using hd
  exact hc

end Scan.Fresh

namespace Token

open Decimal (ofNumeral)

/-- A finite number is written as a numeral that stands for it. -/
lemma exists_numeral {lexeme : String} (hf : (numberOf lexeme).isFinite = true) :
    ∃ text, sourceNumber (numberOf lexeme) = String.ofList text ∧ Numeral text ∧
      numberOf (String.ofList text) = numberOf lexeme := by
  have hlt : (ofNumeral lexeme.toList).toMagnitude < Binary64.infinity := by
    refine Nat.lt_of_le_of_ne (Decimal.toMagnitude_le _) fun heq => ?_
    have hinf : (Binary64.ofMagnitude Binary64.infinity).isFinite = false := by decide
    rw [numberOf, Decimal.toFloat, heq, hinf] at hf
    contradiction
  obtain ⟨text, htext, hn, hm⟩ := sourceNumber_ofMagnitude hlt
  refine ⟨text, htext, hn, ?_⟩
  simp only [numberOf, String.toList_ofList, Decimal.toFloat, hm]

/-- **A finite literal is written as a token that stands for it**, of the kind of the token it was
read from. -/
theorem spells_written {t : Token} {value : Literal} (ht : Spells t.kind t.lexeme.toList)
    (hc : t.constant? = some value) (hf : value.IsFinite) :
    Spells t.kind value.written.toList ∧
      ∀ line, constant? ⟨t.kind, value.written, line⟩ = some value := by
  obtain ⟨kind, lexeme, place⟩ := t
  cases kind
  case falseWord =>
    obtain rfl := Option.some.inj hc
    have hspells : Spells .falseWord "false".toList := .of_keyword (by decide)
    exact ⟨hspells, fun _ => rfl⟩
  case trueWord =>
    obtain rfl := Option.some.inj hc
    have hspells : Spells .trueWord "true".toList := .of_keyword (by decide)
    exact ⟨hspells, fun _ => rfl⟩
  case nilWord =>
    obtain rfl := Option.some.inj hc
    have hspells : Spells .nilWord "nil".toList := .of_keyword (by decide)
    exact ⟨hspells, fun _ => rfl⟩
  case number =>
    obtain rfl : Literal.number (numberOf lexeme) = value := Option.some.inj hc
    obtain ⟨text, htext, hn, hnumber⟩ := exists_numeral hf
    rw [Literal.written, htext, String.toList_ofList]
    refine ⟨.number hn, fun _ => ?_⟩
    show some (Literal.number (numberOf (String.ofList text))) = _
    rw [hnumber]
  case string =>
    obtain rfl : Literal.string (textOf lexeme) = value := Option.some.inj hc
    obtain ⟨body, hbody, hquote⟩ := ht.exists_body rfl
    have hbody : lexeme.toList = '"' :: (body ++ ['"']) := hbody
    have hwritten : (Literal.string (textOf lexeme)).written = lexeme := by
      rw [← String.toList_inj, Literal.written, textOf, hbody]
      simp
    rw [hwritten]
    exact ⟨ht, fun _ => hc⟩
  all_goals contradiction

/-- A token begins with an equals sign or a slash only if its kind says so. -/
lemma Spells.fresh {kind : Kind} {text : List Char} (h : Spells kind text)
    (hk : kind ≠ .equal ∧ kind ≠ .equalEqual ∧ kind ≠ .slash) : Scan.Fresh text := by
  cases h with
  | string => exact ⟨_, _, rfl, by decide, by decide⟩
  | number h =>
    obtain ⟨c, more, rfl⟩ := List.exists_cons_of_ne_nil h.ne_nil
    have hdigit : c.isDigit = true := h.isDigit_head
    refine ⟨c, more, rfl, ?_, ?_⟩
    all_goals
      rintro rfl
      contradiction
  | word hc =>
    refine ⟨_, _, rfl, ?_, ?_⟩
    all_goals
      rintro rfl
      contradiction
  | sign h => cases kind <;> simp_all [Kind.spelling, Scan.Fresh]

end Token

/-! ## Tokens that are alike -/

/-- Two tokens have one kind and one value as literals, and one text if they are no literals. -/
structure Token.Alike (t u : Token) : Prop where
  kind_eq : t.kind = u.kind
  constant_eq : t.constant? = u.constant?
  lexeme_eq : t.constant? = none → t.lexeme = u.lexeme

/-- A token without its line. -/
def Token.unplaced (t : Token) : Token := { t with line := 0 }

/-- Tokens that are alike are not told apart by reading, and look the same without their lines. -/
lemma Token.carried_alike : Token.Carried Token.Alike Token.unplaced Token.unplaced where
  kind_eq h := h.kind_eq
  constant_eq h := h.constant_eq
  same {t u} h hc := by
    unfold unplaced
    rw [h.kind_eq, h.lexeme_eq hc]

/-- Tokens of one kind and with one value as literals are alike. -/
lemma Token.Alike.of_constant {t u : Token} {value : Literal} (hk : t.kind = u.kind)
    (ht : t.constant? = some value) (hu : u.constant? = some value) : t.Alike u where
  kind_eq := hk
  constant_eq := ht.trans hu.symm
  lexeme_eq hnone := by
    rw [ht] at hnone
    contradiction

/-- A text that goes on with no word, no number and no operator in front of it. -/
def Scan.Parted (rest : List Char) : Prop :=
  ∀ c ∈ rest.head?, Piece.continuesWord c = false ∧ c ≠ '.' ∧ c ≠ '=' ∧ c ≠ '/'

/-- The parts of a line after which a token ends: a blank, a comma or a parenthesis, or nothing. -/
def Scan.Clear (rest : List Char) : Prop :=
  ∀ c ∈ rest.head?, c = ' ' ∨ c = ')' ∨ c = ',' ∨ c = '('

namespace Scan

variable {line : Nat} {text rest : List Char}

@[simp] lemma clear_nil : Clear [] := by simp [Clear]

@[simp] lemma clear_blank (rest : List Char) : Clear (' ' :: rest) := by simp [Clear]

@[simp] lemma clear_closing (rest : List Char) : Clear (')' :: rest) := by simp [Clear]

@[simp] lemma clear_comma (rest : List Char) : Clear (',' :: rest) := by simp [Clear]

@[simp] lemma clear_opening (rest : List Char) : Clear ('(' :: rest) := by simp [Clear]

/-- An operator ends where a token ends. -/
lemma Clear.head_ne (h : Clear rest) : ∀ d ∈ rest.head?, d ≠ '=' ∧ d ≠ '/' := by
  intro d hd
  rcases h d hd with rfl | rfl | rfl | rfl <;> decide

/-- Tokens end where they do on a line. -/
lemma Clear.parted (h : Clear rest) : Parted rest := by
  intro d hd
  rcases h d hd with rfl | rfl | rfl | rfl <;> decide

/-- A word is scanned up to where it ends. -/
lemma reads_word (c : Char) (text : List Char) (h : Piece.startsWord c = true)
    (ht : ∀ d ∈ text, Piece.continuesWord d = true) (hr : Parted rest) (line : Nat) :
    ∃ next, Reads line (c :: text) rest
      [⟨Token.Kind.ofWord (String.ofList (c :: text)), String.ofList (c :: text), line⟩] next :=
  ⟨_, Reads.of_first_token (Piece.first_word h ht fun d hd => (hr d hd).1) rfl⟩

/-- A string is scanned up to its second quote. -/
lemma reads_string (ht : '"' ∉ text) (rest : List Char) (line : Nat) :
    ∃ next, Reads line ('"' :: (text ++ ['"'])) rest
      [⟨.string, String.ofList ('"' :: (text ++ ['"'])), line⟩] next := by
  have hfirst : Piece.first '"' ((text ++ ['"']) ++ rest) =
      (⟨.string, '"' :: (text ++ ['"'])⟩, rest) := by
    rw [← List.append_cons]
    exact Piece.first_string ht
  exact ⟨_, Reads.of_first_token hfirst rfl⟩

/-- A numeral is scanned up to where it ends. -/
lemma reads_numeral (h : Numeral text) (hr : Parted rest) (line : Nat) :
    ∃ next, Reads line text rest [⟨.number, String.ofList text, line⟩] next := by
  obtain ⟨c, text, rfl⟩ := List.exists_cons_of_ne_nil h.ne_nil
  refine ⟨_, Reads.of_first_token (Piece.first_numeral h fun d hd => ?_) rfl⟩
  obtain ⟨hword, hpoint, -⟩ := hr d hd
  exact ⟨(Bool.or_eq_false_iff.1 hword).2, hpoint⟩

/-- An operator is scanned in front of what makes no other operator with it. -/
lemma reads_spelling {kind : Token.Kind} (h : kind.spelling ≠ [])
    (hr : ∀ d ∈ rest.head?, d ≠ '=' ∧ d ≠ '/') (line : Nat) :
    ∃ next, Reads line kind.spelling rest [⟨kind, String.ofList kind.spelling, line⟩] next := by
  obtain ⟨c, text, htext⟩ := List.exists_cons_of_ne_nil h
  rw [htext]
  exact ⟨_, Reads.of_first_token (Piece.first_spelling htext hr) rfl⟩

/-- Every token is scanned from its own text up to where it ends. -/
lemma reads_spelled {kind : Token.Kind} (h : Token.Spells kind text) (hr : Parted rest)
    (line : Nat) : ∃ next, Reads line text rest [⟨kind, String.ofList text, line⟩] next := by
  cases h with
  | string h => exact reads_string h rest line
  | number h => exact reads_numeral h hr line
  | word h h' => exact reads_word _ _ h h' hr line
  | sign h => exact reads_spelling h (fun d hd => (hr d hd).2.2) line

/-- **The text of a token by itself is scanned to that token** and to nothing else. -/
theorem scan_spelled {kind : Token.Kind} {text : String} (h : Token.Spells kind text.toList) :
    (scan text).tokens = [⟨kind, text, 1⟩] ∧ (scan text).faults = [] := by
  have hparted : Parted [] := by simp [Parted]
  obtain ⟨next, hreads⟩ := reads_spelled h hparted 1
  rw [String.ofList_toList] at hreads
  exact ⟨by simpa [tokens_scan] using hreads.tokens_eq,
    by simpa [faults_scan] using hreads.faults_eq⟩

/-- A text in front of the rest is scanned to tokens that are like some given ones. -/
def ReadsAs (text rest : List Char) (ts : List Token) : Prop :=
  ∀ line, ∃ us next, Reads line text rest us next ∧ List.Forall₂ Token.Alike ts us

namespace ReadsAs

variable {more : List Char} {ts ts' : List Token} {t : Token}

/-- Texts are scanned one after another. -/
lemma append (h : ReadsAs text (more ++ rest) ts) (h' : ReadsAs more rest ts') :
    ReadsAs (text ++ more) rest (ts ++ ts') := by
  intro line
  obtain ⟨us, mid, hreads, halike⟩ := h line
  obtain ⟨us', next, hreads', halike'⟩ := h' mid
  exact ⟨us ++ us', next, hreads.append hreads', List.rel_append halike halike'⟩

/-- A token is scanned in front of other texts. -/
lemma cons (h : ReadsAs text (more ++ rest) [t]) (h' : ReadsAs more rest ts) :
    ReadsAs (text ++ more) rest (t :: ts) := h.append h'

/-- A text is scanned behind a blank. -/
lemma blank_append (h : ReadsAs more rest ts) : ReadsAs (' ' :: more) rest ts := by
  intro line
  obtain ⟨us, next, hreads, halike⟩ := h line
  exact ⟨us, next, (Reads.blank line (more ++ rest)).append hreads, halike⟩

/-- One token is scanned if it is like that of the text. -/
lemma of_reads (h : ∀ line, ∃ u next, Reads line text rest [u] next ∧ t.Alike u) :
    ReadsAs text rest [t] := by
  intro line
  obtain ⟨u, next, hreads, halike⟩ := h line
  exact ⟨[u], next, hreads, .cons halike .nil⟩

/-- A token is scanned from its own text. -/
lemma lexeme (ht : Token.Spells t.kind t.lexeme.toList) (hr : Clear rest) :
    ReadsAs t.lexeme.toList rest [t] := by
  refine of_reads fun line => ?_
  obtain ⟨next, hreads⟩ := reads_spelled ht hr.parted line
  rw [String.ofList_toList] at hreads
  exact ⟨_, next, hreads, rfl, rfl, fun _ => rfl⟩

/-- A finite literal is scanned from what is written for it. -/
lemma literal {value : Literal} (ht : Token.Spells t.kind t.lexeme.toList)
    (hc : t.constant? = some value) (hf : value.IsFinite) (hr : Clear rest) :
    ReadsAs value.written.toList rest [t] := by
  obtain ⟨hwritten, hvalue⟩ := Token.spells_written ht hc hf
  refine of_reads fun line => ?_
  obtain ⟨next, hreads⟩ := reads_spelled hwritten hr.parted line
  rw [String.ofList_toList] at hreads
  exact ⟨_, next, hreads, .of_constant rfl hc (hvalue line)⟩

/-- An operator or mark is scanned from its spelling. -/
lemma sign (ht : Token.Spells t.kind t.lexeme.toList) (hk : t.kind.spelling ≠ [])
    (hr : ∀ d ∈ rest.head?, d ≠ '=' ∧ d ≠ '/') : ReadsAs t.kind.spelling rest [t] := by
  refine of_reads fun line => ?_
  obtain ⟨next, hreads⟩ := reads_spelling hk hr line
  rw [← ht.eq_spelling hk, String.ofList_toList] at hreads
  rw [← ht.eq_spelling hk]
  exact ⟨_, next, hreads, rfl, rfl, fun _ => rfl⟩

end ReadsAs

end Scan

end LoxLang
