import LoxLang.Proofs.Scan.Written

set_option autoImplicit false

/-!
# Forms in parentheses

A form is a word of the language or a row of forms in parentheses with blanks between them. Its text
is read in one way only: a word ends where scanning it ends, and a row where its parenthesis is
closed. So a form does not need to say how many parts it has.

## Main definitions

* `Form` — words and rows.
* `Form.chars`, `Form.spaced` — the text of a form, and of forms with a blank in front of each.
* `Form.Spelled` — every word in a form is written as a token that is no parenthesis.

## Main results

* `Scan.spelled_append_inj` — where a token ends, a text has one token at its front.
* `Form.chars_append_inj` — where a form ends, a text has one form at its front.
* `Form.chars_inj` — forms with the same text are the same.
-/

namespace LoxLang

/-! ## One token at the front of a text -/

namespace Token

variable {kind : Kind} {more : List Char}

/-- A token that begins like a parenthesis is that parenthesis. -/
lemma Spells.kind_of_paren {paren : Kind} {p : Char} (h : Spells kind (p :: more))
    (hp : (paren, p) ∈ [(Kind.leftParen, '('), (Kind.rightParen, ')')]) : kind = paren := by
  have hplain : ∀ entry ∈ [(Kind.leftParen, '('), (Kind.rightParen, ')')],
      entry.2 ≠ '"' ∧ entry.2.isDigit = false ∧ Piece.startsWord entry.2 = false := by
    decide
  obtain ⟨hquote, hdigit, hstart⟩ := hplain _ hp
  generalize htext : p :: more = text at h
  cases h with
  | string => exact absurd (List.cons.inj htext).1 hquote
  | number h =>
    subst htext
    exact absurd (h.isDigit_head.symm.trans hdigit) (by decide)
  | word hc =>
    obtain ⟨rfl, -⟩ := List.cons.inj htext
    exact absurd (hc.symm.trans hstart) (by decide)
  | sign =>
    rcases List.mem_cons.1 hp with hp | hp
    · cases hp
      cases kind <;> simp_all [Kind.spelling]
    · cases List.mem_singleton.1 hp
      cases kind <;> simp_all [Kind.spelling]

/-- A token is written as something. -/
lemma Spells.ne_nil {text : List Char} (h : Spells kind text) : text ≠ [] := by
  cases h with
  | string => simp
  | number h => exact h.ne_nil
  | word => simp
  | sign h => exact h

end Token

/-- **Where a token ends, a text has one token at its front.** Scanning finds it. -/
theorem Scan.spelled_append_inj {kind kind' : Token.Kind} {text text' rest rest' : List Char}
    (h : Token.Spells kind text) (h' : Token.Spells kind' text') (hr : Parted rest)
    (hr' : Parted rest') (heq : text ++ rest = text' ++ rest') :
    text = text' ∧ rest = rest' := by
  obtain ⟨next, hreads⟩ := reads_spelled h hr 1
  obtain ⟨next', hreads'⟩ := reads_spelled h' hr' 1
  have htokens := hreads.tokens_eq.symm.trans (heq ▸ hreads'.tokens_eq)
  have htext : text = text' := by
    have hhead := (List.cons.inj htokens).1
    rw [Token.mk.injEq] at hhead
    exact String.ofList_injective hhead.2.1
  exact ⟨htext, List.append_cancel_left (htext ▸ heq)⟩

/-! ## Forms -/

/-- A word of the language, or a row of forms in parentheses. -/
inductive Form
  | word (text : String)
  | row (parts : List Form)

namespace Form

mutual

/-- The text of a form. The parts of a row have one blank between them. -/
def chars : Form → List Char
  | .word text => text.toList
  | .row [] => ['(', ')']
  | .row (first :: rest) => '(' :: (first.chars ++ (spaced rest ++ [')']))

/-- The texts of forms in a row, a blank in front of each. -/
def spaced : List Form → List Char
  | [] => []
  | first :: rest => ' ' :: (first.chars ++ spaced rest)

end

/-- Words with blanks between them and parentheses around them are the text of a row. -/
lemma chars_row_words (words : List String) :
    (row (words.map word)).chars = ("(" ++ " ".intercalate words ++ ")").toList := by
  have hspaced : ∀ (first : String) (rest : List String),
      first.toList ++ spaced (rest.map word) = (" ".intercalate (first :: rest)).toList := by
    intro first rest
    induction rest generalizing first with
    | nil => simp [spaced]
    | cons next rest ih =>
      have hnext := ih next
      simp only [String.toList_intercalate, List.map_cons] at hnext ⊢
      simp [spaced, chars, List.intercalate_cons_cons, hnext]
  cases words with
  | nil => rfl
  | cons first rest => simp [chars, ← hspaced]

mutual

/-- Every word in a form is written as a token that is no parenthesis. -/
def Spelled : Form → Prop
  | .word text => ∃ kind, Token.Spells kind text.toList ∧ kind ≠ .leftParen ∧ kind ≠ .rightParen
  | .row parts => AllSpelled parts

/-- The same for every form of some. -/
def AllSpelled : List Form → Prop
  | [] => True
  | first :: rest => first.Spelled ∧ AllSpelled rest

end

/-- A text in front of which a form ends: it goes on with a blank or closes a parenthesis. -/
def Ends (rest : List Char) : Prop := ∀ c ∈ rest.head?, c = ' ' ∨ c = ')'

@[simp] lemma ends_nil : Ends [] := by simp [Ends]

/-- A form ends in front of other forms in a row. -/
@[simp] lemma ends_spaced (fs : List Form) (rest : List Char) :
    Ends (spaced fs ++ ')' :: rest) := by
  cases fs <;> simp [spaced, Ends]

/-- Words end where forms do. -/
lemma Ends.parted {rest : List Char} (h : Ends rest) : Scan.Parted rest := by
  intro c hc
  rcases h c hc with rfl | rfl <;> decide

/-- A form does not begin with a closing parenthesis. -/
lemma chars_append_ne_closing {f : Form} (hf : f.Spelled) (rest rest' : List Char) :
    f.chars ++ rest ≠ ')' :: rest' := by
  intro heq
  cases f with
  | word text =>
    obtain ⟨kind, hs, -, hclosing⟩ := hf
    rw [chars] at heq
    obtain ⟨c, more, htext⟩ := List.exists_cons_of_ne_nil hs.ne_nil
    rw [htext] at heq hs
    obtain ⟨rfl, -⟩ := List.cons.inj heq
    exact hclosing (hs.kind_of_paren (by simp))
  | row parts => cases parts <;> simp [chars] at heq

/-- A word does not begin with a parenthesis. -/
lemma word_append_ne_opening {text : String} (hf : (word text).Spelled) (rest rest' : List Char) :
    text.toList ++ rest ≠ '(' :: rest' := by
  intro heq
  obtain ⟨kind, hs, hopening, -⟩ := hf
  obtain ⟨c, more, htext⟩ := List.exists_cons_of_ne_nil hs.ne_nil
  rw [htext] at heq hs
  obtain ⟨rfl, -⟩ := List.cons.inj heq
  exact hopening (hs.kind_of_paren (by simp))

/-- A row begins with a parenthesis. -/
lemma exists_chars_row (parts : List Form) : ∃ more, (row parts).chars = '(' :: more := by
  cases parts <;> exact ⟨_, rfl⟩

mutual

/-- **Where a form ends, a text has one form at its front.**

**Proof sketch.** Words are taken from the front of a text by scanning it. A row begins with a
parenthesis, which no word does, and its parts are taken one by one: each of them ends in front of
the blank before the next one, or of the parenthesis that closes the row. -/
theorem chars_append_inj {f g : Form} {rest rest' : List Char} (hf : f.Spelled) (hg : g.Spelled)
    (hr : Ends rest) (hr' : Ends rest') (h : f.chars ++ rest = g.chars ++ rest') :
    f = g ∧ rest = rest' := by
  cases f with
  | word text =>
    cases g with
    | word text' =>
      obtain ⟨kind, hs, -⟩ := hf
      obtain ⟨kind', hs', -⟩ := hg
      obtain ⟨htext, hrest⟩ := Scan.spelled_append_inj hs hs' hr.parted hr'.parted h
      exact ⟨by rw [String.toList_inj.1 htext], hrest⟩
    | row parts =>
      obtain ⟨more, hmore⟩ := exists_chars_row parts
      rw [hmore] at h
      exact absurd h (word_append_ne_opening hf rest _)
  | row parts =>
    cases g with
    | word text' =>
      obtain ⟨more, hmore⟩ := exists_chars_row parts
      rw [hmore] at h
      exact absurd h.symm (word_append_ne_opening hg rest' _)
    | row parts' =>
      cases parts with
      | nil =>
        cases parts' with
        | nil => exact ⟨rfl, by simpa [chars] using h⟩
        | cons first' parts' =>
          have hclosing : first'.chars ++ (spaced parts' ++ ')' :: rest') = ')' :: rest := by
            simpa [chars] using h.symm
          exact absurd hclosing (chars_append_ne_closing hg.1 _ _)
      | cons first parts =>
        cases parts' with
        | nil =>
          have hclosing : first.chars ++ (spaced parts ++ ')' :: rest) = ')' :: rest' := by
            simpa [chars] using h
          exact absurd hclosing (chars_append_ne_closing hf.1 _ _)
        | cons first' parts' =>
          -- the first part stands behind the parenthesis as the others stand behind a blank
          have hspaced : spaced (first :: parts) ++ ')' :: rest =
              spaced (first' :: parts') ++ ')' :: rest' := by
            simpa [chars, spaced] using h
          obtain ⟨hparts, hrest⟩ := spaced_append_inj hf hg hspaced
          exact ⟨congrArg row hparts, hrest⟩

/-- Where a row is closed, a text has one row of forms in front of that. -/
lemma spaced_append_inj {fs gs : List Form} {rest rest' : List Char} (hf : AllSpelled fs)
    (hg : AllSpelled gs) (h : spaced fs ++ ')' :: rest = spaced gs ++ ')' :: rest') :
    fs = gs ∧ rest = rest' := by
  cases fs with
  | nil =>
    cases gs with
    | nil => exact ⟨rfl, by simpa [spaced] using h⟩
    | cons g gs => simp [spaced] at h
  | cons f fs =>
    cases gs with
    | nil => simp [spaced] at h
    | cons g gs =>
      have hparts : f.chars ++ (spaced fs ++ ')' :: rest) =
          g.chars ++ (spaced gs ++ ')' :: rest') := by
        simpa [spaced] using h
      obtain ⟨rfl, hspaced⟩ :=
        chars_append_inj hf.1 hg.1 (ends_spaced _ _) (ends_spaced _ _) hparts
      obtain ⟨rfl, hrest⟩ := spaced_append_inj hf.2 hg.2 hspaced
      exact ⟨rfl, hrest⟩

end

/-- **Forms with the same text are the same.** -/
theorem chars_inj {f g : Form} (hf : f.Spelled) (hg : g.Spelled) (h : f.chars = g.chars) :
    f = g := by
  have happend : f.chars ++ [] = g.chars ++ [] := by simpa using h
  exact (chars_append_inj hf hg ends_nil ends_nil happend).1

end Form

end LoxLang
