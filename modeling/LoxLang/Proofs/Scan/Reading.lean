import Mathlib.Data.List.TakeWhile
import LoxLang.Proofs.Number.ReadBack
import LoxLang.Scan

set_option autoImplicit false

/-!
# Scanning a text part by part

Scanning is described from any line on, so that a text can be scanned in parts: a part has its
tokens, whatever comes before it, if what follows does not go on with its last piece.

## Main definitions

* `Scan.contributions` — what the pieces of a text contribute, by their lines.
* `Scan.tokensFrom`, `Scan.faultsFrom` — what scanning from a line on gives.
* `Scan.Reads` — a part of a text is scanned without a fault, to some tokens.
* `Token.Kind.spelling` — the operator or mark that a kind is written as.
* `Token.Spells` — a text is how a token of a kind is written.

## Main results

* `Scan.Reads.append` — parts are scanned one after another.
* `Scan.spells_of_mem_tokensFrom` — every token that is scanned is written as its kind is.
-/

namespace LoxLang

/-! ## Scanning from a line on -/

namespace Scan

/-- What the pieces of a text that begins on a line contribute. -/
def contributions {β : Type} (g : Piece → Nat → Option β) (line : Nat) (text : List Char) : List β :=
  (Piece.place line (Piece.cut text)).filterMap fun (p, line) => g p line

/-- The tokens of a text that begins on a line. -/
def tokensFrom (line : Nat) (text : List Char) : List Token := contributions Piece.token? line text

/-- The faults of a text that begins on a line. -/
def faultsFrom (line : Nat) (text : List Char) : List LexicalFault :=
  contributions Piece.fault? line text

/-- A source begins on line one. -/
lemma tokens_scan (source : String) : (scan source).tokens = tokensFrom 1 source.toList := rfl

/-- A source begins on line one. -/
lemma faults_scan (source : String) : (scan source).faults = faultsFrom 1 source.toList := rfl

@[simp] lemma contributions_nil {β : Type} (g : Piece → Nat → Option β) (line : Nat) :
    contributions g line [] = [] := by simp [contributions]

@[simp] lemma tokensFrom_nil (line : Nat) : tokensFrom line [] = [] := contributions_nil _ line

@[simp] lemma faultsFrom_nil (line : Nat) : faultsFrom line [] = [] := contributions_nil _ line

/-- The first piece contributes before what is left. -/
lemma contributions_cons {β : Type} (g : Piece → Nat → Option β) (line : Nat) (c : Char)
    (text : List Char) : contributions g line (c :: text) =
      (g (Piece.first c text).1 line).toList ++
        contributions g (line + (Piece.first c text).1.lineCount) (Piece.first c text).2 := by
  rw [contributions, Piece.cut_cons, Piece.place_cons, List.filterMap_cons]
  cases h : g (Piece.first c text).1 line <;> simp [h, contributions]

/-- The token of the first piece comes before those of what is left. -/
lemma tokensFrom_cons (line : Nat) (c : Char) (text : List Char) :
    tokensFrom line (c :: text) = ((Piece.first c text).1.token? line).toList ++
      tokensFrom (line + (Piece.first c text).1.lineCount) (Piece.first c text).2 :=
  contributions_cons Piece.token? line c text

/-- The fault of the first piece comes before those of what is left. -/
lemma faultsFrom_cons (line : Nat) (c : Char) (text : List Char) :
    faultsFrom line (c :: text) = ((Piece.first c text).1.fault? line).toList ++
      faultsFrom (line + (Piece.first c text).1.lineCount) (Piece.first c text).2 :=
  contributions_cons Piece.fault? line c text

/-- A part of a text that begins on a line, in front of the rest, has some tokens and no faults, and
the rest begins on another line. -/
structure Reads (line : Nat) (text rest : List Char) (tokens : List Token) (next : Nat) : Prop where
  tokens_eq : tokensFrom line (text ++ rest) = tokens ++ tokensFrom next rest
  faults_eq : faultsFrom line (text ++ rest) = faultsFrom next rest

namespace Reads

variable {line next last : Nat} {text more rest : List Char} {ts us : List Token}

lemma nil (line : Nat) (rest : List Char) : Reads line [] rest [] line := ⟨rfl, rfl⟩

/-- **Parts are scanned one after another.** -/
theorem append (h : Reads line text (more ++ rest) ts next) (h' : Reads next more rest us last) :
    Reads line (text ++ more) rest (ts ++ us) last := by
  constructor
  · rw [List.append_assoc, h.tokens_eq, h'.tokens_eq, List.append_assoc]
  · rw [List.append_assoc, h.faults_eq, h'.faults_eq]

/-- A part that is one piece has the token of that piece, if it has one. -/
lemma of_first {c : Char} {p : Piece} (h : Piece.first c (text ++ rest) = (p, rest))
    (hp : p.fault? line = none) :
    Reads line (c :: text) rest (p.token? line).toList (line + p.lineCount) := by
  constructor
  · rw [List.cons_append, tokensFrom_cons, h]
  · rw [List.cons_append, faultsFrom_cons, h, hp]
    rfl

/-- A part that is one piece with a token. -/
lemma of_first_token {c : Char} {sort : Piece.Sort} {kind : Token.Kind}
    (h : Piece.first c (text ++ rest) = (⟨sort, c :: text⟩, rest))
    (hk : (Piece.mk sort (c :: text)).kind? = some kind) :
    Reads line (c :: text) rest [⟨kind, String.ofList (c :: text), line⟩]
      (line + (Piece.mk sort (c :: text)).lineCount) := by
  have hfault : (Piece.mk sort (c :: text)).fault? line = none := by
    cases sort <;> simp_all [Piece.kind?, Piece.fault?]
  have hreads : Reads line (c :: text) rest _ _ := of_first h hfault
  rwa [Piece.token?, hk] at hreads

/-- A blank has no token. -/
lemma blank (line : Nat) (rest : List Char) : Reads line [' '] rest [] line := by
  have h : Piece.first ' ' ([] ++ rest) = (⟨.blank, [' ']⟩, rest) := by
    simp [Piece.first, Piece.startsWord, Piece.isBlank]
  exact of_first h rfl

end Reads

end Scan

/-! ## Pieces in front of what does not go on with them -/

namespace Piece

variable {c : Char} {text rest : List Char}

/-- A run is taken up to what it does not go on with. -/
lemma run_append {p : Char → Bool} (ht : ∀ d ∈ text, p d = true)
    (hr : ∀ d ∈ rest.head?, p d = false) : run p (text ++ rest) = (text, rest) := by
  have htake : rest.takeWhile p = [] := by
    cases rest with
    | nil => rfl
    | cons d rest => simp [hr d (by simp)]
  have hdrop : rest.dropWhile p = rest := by
    cases rest with
    | nil => rfl
    | cons d rest => simp [hr d (by simp)]
  rw [run, List.takeWhile_append_of_pos ht, List.dropWhile_append_of_pos ht, htake, hdrop,
    List.append_nil]

/-- A letter is no digit. -/
lemma isDigit_of_startsWord (h : startsWord c = true) : c.isDigit = false := by
  by_contra hd
  simp only [Bool.not_eq_false, Char.isDigit, Bool.and_eq_true, decide_eq_true_eq, ge_iff_le,
    UInt32.le_iff_toNat_le] at hd
  simp only [startsWord, Char.isAlpha, Char.isUpper, Char.isLower, Bool.or_eq_true, ge_iff_le,
    Bool.and_eq_true, decide_eq_true_eq, beq_iff_eq, UInt32.le_iff_toNat_le] at h
  rcases h with (h | h) | rfl
  · have : c.val.toNat ≤ 57 := hd.2
    have : 65 ≤ c.val.toNat := h.1
    omega
  · have : c.val.toNat ≤ 57 := hd.2
    have : 97 ≤ c.val.toNat := h.1
    omega
  · revert hd
    decide

/-- What begins with a letter is taken for a word. -/
lemma first_of_startsWord (h : startsWord c = true) (text : List Char) :
    first c text = (⟨.word, c :: (run continuesWord text).1⟩, (run continuesWord text).2) := by
  have hslash : (c == '/') = false := by
    by_contra hc
    simp only [Bool.not_eq_false, beq_iff_eq] at hc
    rw [hc] at h
    contradiction
  have hquote : (c == '"') = false := by
    by_contra hc
    simp only [Bool.not_eq_false, beq_iff_eq] at hc
    rw [hc] at h
    contradiction
  simp [first, hslash, hquote, isDigit_of_startsWord h, h]

/-- A word is taken up to what a word does not go on with. -/
lemma first_word (h : startsWord c = true) (ht : ∀ d ∈ text, continuesWord d = true)
    (hr : ∀ d ∈ rest.head?, continuesWord d = false) :
    first c (text ++ rest) = (⟨.word, c :: text⟩, rest) := by
  rw [first_of_startsWord h, run_append ht hr]

/-- A string is taken up to its second quote. -/
lemma first_string (ht : '"' ∉ text) :
    first '"' (text ++ '"' :: rest) = (⟨.string, '"' :: (text ++ ['"'])⟩, rest) := by
  have hrun : run (· != '"') (text ++ '"' :: rest) = (text, '"' :: rest) := by
    apply run_append
    · intro d hd
      have : d ≠ '"' := fun heq => ht (heq ▸ hd)
      simpa using this
    · simp
  simp [first, quoted, hrun]

/-- What begins with a digit is taken for a number. -/
lemma first_of_isDigit (h : c.isDigit = true) (text : List Char) :
    first c text = numeral c text := by
  have hslash : (c == '/') = false := by
    by_contra heq
    simp only [Bool.not_eq_false, beq_iff_eq] at heq
    rw [heq] at h
    contradiction
  have hquote : (c == '"') = false := by
    by_contra heq
    simp only [Bool.not_eq_false, beq_iff_eq] at heq
    rw [heq] at h
    contradiction
  simp [first, hslash, hquote, h]

/-- A numeral is taken up to what no numeral goes on with. -/
lemma first_numeral (h : Numeral (c :: text))
    (hr : ∀ d ∈ rest.head?, d.isDigit = false ∧ d ≠ '.') :
    first c (text ++ rest) = (⟨.number, c :: text⟩, rest) := by
  have hstop : ∀ d ∈ rest.head?, d.isDigit = false := fun d hd => (hr d hd).1
  generalize hall : c :: text = all at h
  cases h with
  | whole h =>
    subst hall
    have hrun := run_append (fun d hd => h.isDigit d (List.mem_cons_of_mem c hd)) hstop
    have hfraction : fraction rest = ([], rest) := by
      unfold fraction
      split
      · exact absurd rfl (hr '.' (by simp)).2
      · rfl
    rw [first_of_isDigit (h.isDigit c (by simp))]
    simp [numeral, hrun, hfraction]
  | pointed h h' =>
    rename_i whole decimals
    obtain ⟨w, ws, rfl⟩ := List.exists_cons_of_ne_nil h.ne_nil
    obtain ⟨d, ds, rfl⟩ := List.exists_cons_of_ne_nil h'.ne_nil
    obtain ⟨rfl, rfl⟩ : c = w ∧ text = ws ++ '.' :: d :: ds := by simpa using hall
    have hrun : run Char.isDigit (ws ++ '.' :: d :: (ds ++ rest)) =
        (ws, '.' :: d :: (ds ++ rest)) := by
      apply run_append
      · exact fun x hx => h.isDigit x (List.mem_cons_of_mem c hx)
      · intro x hx
        obtain rfl : '.' = x := by simpa using hx
        decide
    have htake : run Char.isDigit (ds ++ rest) = (ds, rest) :=
      run_append (fun x hx => h'.isDigit x (List.mem_cons_of_mem d hx)) hstop
    obtain ⟨htake, hdrop⟩ := Prod.ext_iff.1 htake
    have hfraction : fraction ('.' :: d :: (ds ++ rest)) = ('.' :: d :: ds, rest) := by
      simp only [run] at htake hdrop
      simp [fraction, h'.isDigit d (by simp), htake, hdrop]
    rw [first_of_isDigit (h.isDigit c (by simp))]
    simp [numeral, hrun, hfraction]

/-- What begins an operator begins no other piece but a comment. -/
lemma first_eq_symbol {kind : Token.Kind} (h : Token.Kind.ofSymbol? c = some kind)
    (hr : c = '/' → ∀ d ∈ rest.head?, d ≠ '/') : first c rest = symbol c rest := by
  have hcomment : (c == '/' && rest.head? == some '/') = false := by
    by_contra hc
    simp only [Bool.not_eq_false, Bool.and_eq_true, beq_iff_eq] at hc
    exact hr hc.1 '/' (by simp [hc.2]) rfl
  have hother : (c == '"') = false ∧ c.isDigit = false ∧ startsWord c = false ∧
      (c == '\n') = false ∧ isBlank c = false := by
    unfold Token.Kind.ofSymbol? at h
    split at h
    all_goals first | decide | contradiction
  obtain ⟨hq, hd, hw, hn, hb⟩ := hother
  simp [first, hcomment, hq, hd, hw, hn, hb]

/-- An operator of one character is taken if no longer one begins with it. -/
lemma first_single {kind : Token.Kind} (h : Token.Kind.ofSymbol? c = some kind)
    (hr : ∀ d ∈ rest.head?, d ≠ '=' ∧ d ≠ '/') : first c rest = (⟨.operator kind, [c]⟩, rest) := by
  rw [first_eq_symbol h fun _ d hd => (hr d hd).2]
  have hpair : ∀ d ∈ rest.head?, Token.Kind.ofPair? c d = none := by
    intro d hd
    unfold Token.Kind.ofPair?
    split
    all_goals first | rfl | exact absurd rfl (hr '=' hd).1
  cases rest with
  | nil => simp [symbol, h]
  | cons d rest => simp [symbol, h, hpair d (by simp)]

/-- An operator of two characters is taken. -/
lemma first_pair {kind kind' : Token.Kind} {d : Char} (h : Token.Kind.ofPair? c d = some kind)
    (h' : Token.Kind.ofSymbol? c = some kind') :
    first c (d :: rest) = (⟨.operator kind, [c, d]⟩, rest) := by
  have hsymbol : first c (d :: rest) = symbol c (d :: rest) := by
    apply first_eq_symbol h'
    rintro rfl
    unfold Token.Kind.ofPair? at h
    split at h <;> simp_all
  rw [hsymbol]
  simp [symbol, h]

end Piece

namespace Token

/-- The operator or mark that a kind is written as; nothing for other kinds. -/
def Kind.spelling : Kind → List Char
  | .leftParen => ['(']
  | .rightParen => [')']
  | .comma => [',']
  | .minus => ['-']
  | .plus => ['+']
  | .slash => ['/']
  | .star => ['*']
  | .bang => ['!']
  | .bangEqual => ['!', '=']
  | .equal => ['=']
  | .equalEqual => ['=', '=']
  | .greater => ['>']
  | .greaterEqual => ['>', '=']
  | .less => ['<']
  | .lessEqual => ['<', '=']
  | .leftBrace => ['\x7b']
  | .rightBrace => ['\x7d']
  | .dot => ['.']
  | .semicolon => [';']
  | _ => []

end Token

/-- An operator is taken in front of what makes no other operator with it. -/
lemma Piece.first_spelling {kind : Token.Kind} {c : Char} {text rest : List Char}
    (h : kind.spelling = c :: text) (hr : ∀ d ∈ rest.head?, d ≠ '=' ∧ d ≠ '/') :
    first c (text ++ rest) = (⟨.operator kind, c :: text⟩, rest) := by
  cases kind
  all_goals
    simp only [Token.Kind.spelling, List.cons.injEq, List.nil_eq, reduceCtorEq] at h
    try contradiction
  case bangEqual | equalEqual | greaterEqual | lessEqual =>
    obtain ⟨rfl, rfl⟩ := h
    exact first_pair rfl rfl
  all_goals
    obtain ⟨rfl, rfl⟩ := h
    exact first_single rfl hr

/-! ## What the text of a token looks like -/

/-- A text is how a token of a kind is written. -/
inductive Token.Spells : Token.Kind → List Char → Prop
  | string {body : List Char} (h : '"' ∉ body) : Spells .string ('"' :: (body ++ ['"']))
  | number {text : List Char} (h : Numeral text) : Spells .number text
  | word {c : Char} {body : List Char} (h : Piece.startsWord c = true)
    (h' : ∀ d ∈ body, Piece.continuesWord d = true) :
    Spells (Token.Kind.ofWord (String.ofList (c :: body))) (c :: body)
  | sign {kind : Token.Kind} (h : kind.spelling ≠ []) : Spells kind kind.spelling

namespace Piece

open Token (Spells)

variable {c : Char} {text : List Char} {kind : Token.Kind}

/-- A numeral that is taken is one. -/
lemma numeral_numeral (h : c.isDigit = true) : Numeral (numeral c text).1.text := by
  have hwhole : Digits (c :: text.takeWhile Char.isDigit) := by
    refine ⟨by simp, fun d hd => ?_⟩
    rcases List.mem_cons.1 hd with rfl | hd
    · exact h
    · exact List.mem_takeWhile_imp hd
  simp only [numeral, run]
  generalize text.dropWhile Char.isDigit = rest
  unfold fraction
  split
  · rename_i d rest
    split
    · have hfraction : Digits (d :: rest.takeWhile Char.isDigit) := by
        refine ⟨by simp, fun x hx => ?_⟩
        rcases List.mem_cons.1 hx with rfl | hx
        · assumption
        · exact List.mem_takeWhile_imp hx
      exact .pointed hwhole hfraction
    · simpa using Numeral.whole hwhole
  · simpa using Numeral.whole hwhole

/-- A character that is an operator is its spelling. -/
lemma spelling_of_ofSymbol? (h : Token.Kind.ofSymbol? c = some kind) : kind.spelling = [c] := by
  unfold Token.Kind.ofSymbol? at h
  split at h
  all_goals first | (obtain rfl := Option.some.inj h; rfl) | contradiction

/-- Two characters that are an operator are its spelling. -/
lemma spelling_of_ofPair? {d : Char} (h : Token.Kind.ofPair? c d = some kind) :
    kind.spelling = [c, d] := by
  unfold Token.Kind.ofPair? at h
  split at h
  all_goals first | (obtain rfl := Option.some.inj h; rfl) | contradiction

/-- A string that is taken has no quote within. -/
lemma spells_quoted (h : (quoted text).1.kind? = some kind) : Spells kind (quoted text).1.text := by
  simp only [quoted, run] at h ⊢
  cases hrest : text.dropWhile (· != '"') with
  | nil => simp [hrest, kind?] at h
  | cons quote rest =>
    obtain rfl : Token.Kind.string = kind := by simpa [hrest, kind?] using h
    have hquote : quote = '"' := by
      have := List.head?_dropWhile_not (· != '"') text
      rw [hrest] at this
      simpa using this
    rw [hquote]
    refine .string fun hmem => ?_
    have := List.mem_takeWhile_imp hmem
    simp at this

/-- An operator that is taken is written as it is spelled. -/
lemma spells_symbol (h : (symbol c text).1.kind? = some kind) :
    Spells kind (symbol c text).1.text := by
  have hsign : ∀ {word : List Char}, kind.spelling = word → word ≠ [] → Spells kind word := by
    rintro word rfl hne
    exact .sign hne
  have hsingle : ∀ k, Token.Kind.ofSymbol? c = some k → k = kind → Spells kind [c] := by
    rintro k hk rfl
    exact hsign (spelling_of_ofSymbol? hk) (by simp)
  cases text with
  | nil =>
    cases hs : Token.Kind.ofSymbol? c with
    | none => simp [symbol, hs, kind?] at h
    | some k => simpa [symbol, hs] using hsingle k hs (by simpa [symbol, hs, kind?] using h)
  | cons d text =>
    cases hp : Token.Kind.ofPair? c d with
    | some k =>
      obtain rfl : k = kind := by simpa [symbol, hp, kind?] using h
      simpa [symbol, hp] using hsign (spelling_of_ofPair? hp) (by simp)
    | none =>
      cases hs : Token.Kind.ofSymbol? c with
      | none => simp [symbol, hp, hs, kind?] at h
      | some k =>
        simpa [symbol, hp, hs] using hsingle k hs (by simpa [symbol, hp, hs, kind?] using h)

/-- **A piece that is a token is written as tokens of its kind are.** -/
lemma spells_of_first (h : (first c text).1.kind? = some kind) :
    Spells kind (first c text).1.text := by
  unfold first at h ⊢
  by_cases hcomment : (c == '/' && text.head? == some '/') = true
  · simp [hcomment, kind?] at h
  rw [if_neg hcomment] at h ⊢
  by_cases hquote : (c == '"') = true
  · rw [if_pos hquote] at h ⊢
    exact spells_quoted h
  rw [if_neg hquote] at h ⊢
  by_cases hdigit : c.isDigit = true
  · rw [if_pos hdigit] at h ⊢
    obtain rfl : Token.Kind.number = kind := by simpa [numeral, kind?] using h
    exact .number (numeral_numeral hdigit)
  rw [if_neg hdigit] at h ⊢
  by_cases hword : startsWord c = true
  · rw [if_pos hword] at h ⊢
    obtain rfl : Token.Kind.ofWord (String.ofList (c :: text.takeWhile continuesWord)) = kind :=
      Option.some.inj h
    show Spells _ (c :: text.takeWhile continuesWord)
    exact .word hword fun d hd => List.mem_takeWhile_imp hd
  rw [if_neg hword] at h ⊢
  by_cases hline : (c == '\n') = true
  · simp [hline, kind?] at h
  rw [if_neg hline] at h ⊢
  by_cases hblank : isBlank c = true
  · simp [hblank, kind?] at h
  rw [if_neg hblank] at h ⊢
  exact spells_symbol h

end Piece

namespace Scan

/-- **Every token that is scanned is written as tokens of its kind are.**

**Proof sketch.** Induction on the length of the text, of which each piece takes at least one
character. -/
theorem spells_of_mem_tokensFrom {line : Nat} {text : List Char} {t : Token}
    (h : t ∈ tokensFrom line text) : Token.Spells t.kind t.lexeme.toList := by
  induction hn : text.length using Nat.strongRecOn generalizing line text with
  | ind n ih =>
    cases text with
    | nil => simp at h
    | cons c text =>
      rw [tokensFrom_cons, List.mem_append] at h
      rcases h with h | h
      · rw [Option.mem_toList, Piece.token?, Option.map_eq_some_iff] at h
        obtain ⟨kind, hk, rfl⟩ := h
        simpa using Piece.spells_of_first hk
      · have := Piece.length_rest_first c text
        exact ih _ (by simp at hn; omega) h rfl

end Scan

namespace Token

variable {kind : Kind} {text : List Char}

/-- Words are no operators. -/
lemma Kind.spelling_ofWord (word : String) : (Kind.ofWord word).spelling = [] := by
  have hkeywords : ∀ entry ∈ keywords, entry.2.spelling = [] := by decide
  unfold ofWord
  cases h : keywords.lookup word with
  | none => rfl
  | some kind =>
    obtain ⟨before, after, hmem, -⟩ := List.lookup_eq_some_iff.1 h
    exact hkeywords (word, kind) (by rw [hmem]; simp)

/-- No word is a string. -/
lemma Kind.ofWord_ne_string (word : String) : Kind.ofWord word ≠ .string := by
  have hkeywords : ∀ entry ∈ keywords, entry.2 ≠ .string := by decide
  unfold ofWord
  cases h : keywords.lookup word with
  | none => decide
  | some kind =>
    obtain ⟨before, after, hmem, -⟩ := List.lookup_eq_some_iff.1 h
    exact hkeywords (word, kind) (by rw [hmem]; simp)

/-- A string has two quotes, and none between them. -/
lemma Spells.exists_body (h : Spells kind text) (hk : kind = .string) :
    ∃ body, text = '"' :: (body ++ ['"']) ∧ '"' ∉ body := by
  cases h with
  | string h => exact ⟨_, rfl, h⟩
  | word => exact absurd hk (Kind.ofWord_ne_string _)
  | number => contradiction
  | sign h => subst hk; contradiction

/-- An operator has one spelling. -/
lemma Spells.eq_spelling (h : Spells kind text) (hk : kind.spelling ≠ []) :
    text = kind.spelling := by
  cases h with
  | sign => rfl
  | word => exact absurd (Kind.spelling_ofWord _) hk
  | string | number => exact absurd rfl hk

/-- A word is written as a token of its kind. -/
lemma Spells.of_word {word : String} (hstart : word.toList.head?.any Piece.startsWord = true)
    (hbody : word.toList.tail.all Piece.continuesWord = true) :
    Spells (Kind.ofWord word) word.toList := by
  obtain ⟨c, hc, hstart⟩ := (Option.any_eq_true _ _).1 hstart
  have htext : word.toList = c :: word.toList.tail := List.eq_cons_of_mem_head? hc
  have hspells := Spells.word hstart (List.all_eq_true.1 hbody)
  rwa [← htext, String.ofList_toList] at hspells

/-- A reserved word is written as a token of its own kind. -/
lemma Spells.of_keyword {word : String} (h : (word, kind) ∈ Kind.keywords) :
    Spells kind word.toList := by
  have hkeywords : ∀ entry ∈ Kind.keywords, Kind.ofWord entry.1 = entry.2 ∧
      entry.1.toList.head?.any Piece.startsWord = true ∧
      entry.1.toList.tail.all Piece.continuesWord = true := by
    decide
  obtain ⟨hkind, hstart, hbody⟩ := hkeywords _ h
  have hspells := Spells.of_word hstart hbody
  rwa [hkind] at hspells

/-- A token of the kind of a reserved word is written as that word. -/
lemma Spells.eq_keyword {word : String} (h : Spells kind text) (hw : (word, kind) ∈ Kind.keywords) :
    text = word.toList := by
  have hkeywords : ∀ entry ∈ Kind.keywords, entry.2 ≠ .string ∧ entry.2 ≠ .number ∧
      entry.2 ≠ .identifier ∧ entry.2.spelling = [] := by
    decide
  have hunique : ∀ entry ∈ Kind.keywords, ∀ other ∈ Kind.keywords, entry.2 = other.2 →
      entry.1 = other.1 := by
    decide
  obtain ⟨hstring, hnumber, hname, hsign⟩ := hkeywords _ hw
  cases h with
  | string => contradiction
  | number => contradiction
  | sign h => contradiction
  | @word c body =>
    generalize hall : String.ofList (c :: body) = all at hw hname
    unfold Kind.ofWord at hw hname
    cases hlookup : Kind.keywords.lookup all with
    | none =>
      rw [hlookup] at hname
      exact absurd rfl hname
    | some kind =>
      rw [hlookup] at hw
      obtain ⟨before, after, hmem, -⟩ := List.lookup_eq_some_iff.1 hlookup
      have hentry : (all, kind) ∈ Kind.keywords := by rw [hmem]; simp
      have hword : all = word := hunique _ hentry _ hw rfl
      rw [← hword, ← hall, String.toList_ofList]

end Token

end LoxLang
