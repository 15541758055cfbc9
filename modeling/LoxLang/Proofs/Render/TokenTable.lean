import LoxLang.Proofs.Number.Display
import LoxLang.Proofs.Scan.Reading
import LoxLang.Render.TokenTable
import LoxLang.Text.Lines

set_option autoImplicit false

/-!
# The rows of the token table

Each token begins a line of the table, from which its line and its kind can be read back. The line,
the kind and the lexeme never hold a line end, since a lexeme that holds one is escaped. The text of
a string is not escaped: it goes on over as many lines as it holds line ends. So there is one line
for each token exactly if no string holds a line end, and if one does, the table may be that of
other tokens.

## Main definitions

* `TokenTable.height` — how many lines the row of a token takes.
* `TokenTable.readRow` — the line and the kind of a token, read back from a line of the table.

## Main results

* `TokenTable.lines_render` — the lines of the table are the heading and the lines of the rows.
* `TokenTable.rows_read_back` — reading the table back.
* `TokenTable.rows_forged` — two sources with the same table.
-/

namespace LoxLang

/-! ## Texts without line ends -/

namespace Text

/-- The digits of a number are no line ends, in any base. -/
lemma lineEnd_notMem_toDigits {base : Nat} (hb : 1 < base) (n : Nat) :
    '\n' ∉ Nat.toDigits base n := by
  have hdigit : ∀ d : Nat, '\n' ≠ d.digitChar := fun d => (Nat.digitChar_ne '\n' rfl).symm
  induction n using Nat.strongRecOn with
  | ind n ih =>
    rw [Nat.toDigits_eq_if hb]
    split
    · simp [hdigit n]
    · have hlt : n / base < n := Nat.div_lt_self (by omega) hb
      simp [ih _ hlt, hdigit]

/-- What is written by its code point holds no line end. -/
lemma lineEnd_notMem_hexadecimal (width n : Nat) : '\n' ∉ hexadecimal width n := by
  simp [hexadecimal, lineEnd_notMem_toDigits]

/-- Escaping takes line ends away. -/
lemma lineEnd_notMem_escape {mark : Char} (h : mark ≠ '\n') (c : Char) : '\n' ∉ escape mark c := by
  have hhex := lineEnd_notMem_hexadecimal
  unfold escape
  by_cases hmark : (c == '\\' || c == mark) = true
  · have hc : c ≠ '\n' := by
      rintro rfl
      simp [h.symm] at hmark
    simp [hmark, hc.symm]
  rw [if_neg hmark]
  by_cases hend : c = '\n'
  · simp [hend]
  · repeat' split
    all_goals simp [hhex, Ne.symm hend]

/-- A text that is written on one line holds no line end. -/
lemma lineEnd_notMem_onOneLine (text : List Char) : '\n' ∉ onOneLine text := by
  have hmark : markFor text ≠ '\n' := by
    unfold markFor
    split <;> decide
  intro hmem
  obtain ⟨c, -, hc⟩ := List.mem_flatMap.1 hmem
  exact lineEnd_notMem_escape hmark c hc

end Text

lemma Digits.lineEnd_notMem {text : List Char} (h : Digits text) : '\n' ∉ text := fun hmem =>
  absurd (h.isDigit _ hmem) (by decide)

lemma Numeral.lineEnd_notMem {text : List Char} (h : Numeral text) : '\n' ∉ text := by
  cases h with
  | whole h => exact h.lineEnd_notMem
  | pointed h h' => simp [h.lineEnd_notMem, h'.lineEnd_notMem]

/-- A decimal written with an exponent holds no line end. -/
lemma Decimal.lineEnd_notMem_scientific (d : Decimal) : '\n' ∉ d.scientific := by
  have hmantissa := (numeral_mantissa d).1.lineEnd_notMem
  have hsize := (digits_toDigits (d.point - 1).natAbs).lineEnd_notMem
  simp only [List.mem_append, not_or] at hmantissa
  simp only [scientific, List.mem_append, not_or]
  refine ⟨⟨⟨hmantissa, ?_⟩, by simp⟩, hsize⟩
  split <;> decide

namespace NumberStyle

variable (style : NumberStyle) (magnitude : Nat)

lemma lineEnd_notMem_fewestDigits : '\n' ∉ style.fewestDigits magnitude := by
  have hplain : ∀ d : Decimal, '\n' ∉ d.plain := fun d => (Decimal.numeral_plain d).1.lineEnd_notMem
  unfold fewestDigits
  dsimp only
  split
  · exact Decimal.lineEnd_notMem_scientific _
  split
  · simp [hplain]
  · exact hplain _

/-- A finite magnitude holds no line end in any style. -/
lemma lineEnd_notMem_finite : '\n' ∉ style.finite magnitude := by
  have hwhole := (digits_toDigits (Binary64.whole magnitude)).lineEnd_notMem
  unfold finite
  split
  · simp only [List.mem_append, not_or]
    refine ⟨hwhole, ?_⟩
    split <;> simp
  · exact lineEnd_notMem_fewestDigits style magnitude

end NumberStyle

/-- A number in the table holds no line end. -/
lemma lineEnd_notMem_listedNumber (x : Float) : '\n' ∉ (listedNumber x).toList := by
  have hfinite := NumberStyle.lineEnd_notMem_finite
  unfold listedNumber NumberStyle.write
  dsimp only
  repeat' split
  all_goals simp [hfinite]

namespace TokenTable

/-! ## A row -/

/-- The columns of a row in front of the value. -/
def front (t : Token) : List Char :=
  padded 6 (Nat.toDigits 10 t.line) ++ ['|', ' '] ++ padded 16 t.kind.label.toList ++ ['|', ' '] ++
    padded 24 (lexemeShown t.lexeme) ++ ['|', ' ']

/-- A row is its columns, then the value. -/
lemma row_eq (t : Token) : row t = String.ofList (front t) ++ valueShown t ++ "\n" := rfl

lemma lineEnd_notMem_padded (width : Nat) {text : List Char} (h : '\n' ∉ text) :
    '\n' ∉ padded width text := by
  simp [padded, h]

/-- A lexeme that holds a line end after it was cut is escaped. -/
lemma lineEnd_notMem_lexemeShown (lexeme : String) : '\n' ∉ lexemeShown lexeme := by
  unfold lexemeShown
  extract_lets text cut
  split
  · exact Text.lineEnd_notMem_onOneLine cut
  · rename_i h
    simp only [Bool.or_eq_true, List.contains_iff_mem, not_or] at h
    exact h.1

/-- A kind is shown by a word that is shorter than its column. -/
lemma label_fits (kind : Token.Kind) :
    kind.label.toList.length < 16 ∧ ' ' ∉ kind.label.toList ∧ '\n' ∉ kind.label.toList := by
  cases kind <;> decide

/-- Only the value of a token can hold a line end. -/
lemma lineEnd_notMem_front (t : Token) : '\n' ∉ front t := by
  have hline := lineEnd_notMem_padded 6 (digits_toDigits t.line).lineEnd_notMem
  have hkind := lineEnd_notMem_padded 16 (label_fits t.kind).2.2
  have hlexeme := lineEnd_notMem_padded 24 (lineEnd_notMem_lexemeShown t.lexeme)
  simp [front, hline, hkind, hlexeme]

/-- Only the value of a string holds a line end, if its text does. -/
lemma lineEnd_mem_valueShown_iff (t : Token) :
    '\n' ∈ (valueShown t).toList ↔ t.kind = .string ∧ '\n' ∈ (Token.textOf t.lexeme).toList := by
  unfold valueShown Token.literal?
  cases hkind : t.kind <;> simp [lineEnd_notMem_listedNumber]

/-! ## Reading a row -/

/-- The line and the kind of a token, read back from a line of the table: the digits in front, and
the word behind the first bar. -/
def readRow (row : String) : Option (Nat × Token.Kind) :=
  let digits := row.toList.takeWhile Char.isDigit
  let label := ((row.toList.dropWhile (· ≠ '|')).drop 2).takeWhile (· ≠ ' ')
  (Token.Kind.all.find? (·.label.toList = label)).map fun kind =>
    (Nat.ofDigitChars 10 digits 0, kind)

/-- Kinds are told apart by their words. -/
lemma find?_label (kind : Token.Kind) :
    Token.Kind.all.find? (·.label.toList = kind.label.toList) = some kind := by
  cases kind <;> decide

/-- The line and the kind in the columns of a row, with what keeps them apart. -/
lemma exists_front_eq (t : Token) : ∃ blanks more, front t =
    Nat.toDigits 10 t.line ++ (List.replicate blanks ' ' ++
      '|' :: ' ' :: (t.kind.label.toList ++ ' ' :: more)) := by
  have hwidth : 16 - t.kind.label.toList.length = 15 - t.kind.label.toList.length + 1 := by
    have := (label_fits t.kind).1
    omega
  refine ⟨6 - (Nat.toDigits 10 t.line).length, List.replicate (15 - t.kind.label.toList.length) ' ' ++
    (['|', ' '] ++ padded 24 (lexemeShown t.lexeme) ++ ['|', ' ']), ?_⟩
  rw [front, padded, padded, hwidth, List.replicate_succ]
  simp only [List.append_assoc, List.cons_append, List.nil_append]

/-- **A row is read back from its columns**, whatever stands behind them. -/
lemma readRow_front (t : Token) (rest : String) :
    readRow (String.ofList (front t) ++ rest) = some (t.line, t.kind) := by
  obtain ⟨blanks, more, hfront⟩ := exists_front_eq t
  have hdigits := (digits_toDigits t.line).isDigit
  set digits := Nat.toDigits 10 t.line with hline
  set label := t.kind.label.toList with hlabel
  have htext : (String.ofList (front t) ++ rest).toList = digits ++ (List.replicate blanks ' ' ++
      '|' :: ' ' :: (label ++ ' ' :: (more ++ rest.toList))) := by
    simp [hfront]
  have hblank : ∀ c ∈ List.replicate blanks ' ', c = ' ' := fun c hc => List.eq_of_mem_replicate hc
  -- no bar comes before the one that closes the first column, and no blank before the word ends
  have hbar : ∀ c ∈ digits ++ List.replicate blanks ' ', decide (c ≠ '|') = true := by
    intro c hc
    rcases List.mem_append.1 hc with hc | hc
    · rw [decide_eq_true_eq]
      rintro rfl
      exact absurd (hdigits _ hc) (by decide)
    · rw [hblank c hc]
      rfl
  have hword : ∀ c ∈ label, decide (c ≠ ' ') = true := by
    intro c hc
    rw [decide_eq_true_eq]
    rintro rfl
    exact (label_fits t.kind).2.1 hc
  have htake : (String.ofList (front t) ++ rest).toList.takeWhile Char.isDigit = digits := by
    rw [htext, List.takeWhile_append_of_pos hdigits]
    cases blanks <;> simp [List.replicate_succ]
  have hdrop : (String.ofList (front t) ++ rest).toList.dropWhile (fun c => decide (c ≠ '|')) =
      '|' :: ' ' :: (label ++ ' ' :: (more ++ rest.toList)) := by
    rw [htext, ← List.append_assoc, List.dropWhile_append_of_pos hbar,
      List.dropWhile_cons_of_neg (by simp)]
  unfold readRow
  rw [htake, hdrop]
  dsimp only [List.drop]
  rw [List.takeWhile_append_of_pos hword, List.takeWhile_cons_of_neg (by simp), List.append_nil,
    hlabel, find?_label, Option.map_some, hline, Nat.ofDigitChars_ten_toDigits]

/-! ## The lines of the table -/

/-- How many lines the row of a token takes. -/
def height (t : Token) : Nat := (valueShown t).toList.count '\n' + 1

/-- **The row of a token begins with a line that reads back**, and goes on for as long as its value
does. -/
lemma exists_lines_row (t : Token) : ∃ first more, Text.lines (row t) = first :: more ∧
    more.length + 1 = height t ∧ readRow first = some (t.line, t.kind) := by
  have hfront : '\n' ∉ (String.ofList (front t)).toList := by
    simpa using lineEnd_notMem_front t
  have hlength : (Text.lines (row t)).length = height t := by
    rw [row_eq, Text.length_lines_closed, String.toList_append, List.count_append,
      List.count_eq_zero_of_not_mem hfront, Nat.zero_add, height]
  obtain ⟨value, more, hlines⟩ := Text.exists_lines_append_closed hfront (valueShown t)
  rw [← row_eq] at hlines
  refine ⟨_, more, hlines, ?_, readRow_front t value⟩
  rw [← hlength, hlines, List.length_cons]

/-- The rows have their lines one after another. -/
lemma lines_rows (tokens : List Token) :
    Text.lines (String.join (tokens.map row)) = tokens.flatMap fun t => Text.lines (row t) := by
  induction tokens with
  | nil => rfl
  | cons t rest ih =>
    rw [List.map_cons, String.join_cons, List.flatMap_cons, row_eq, Text.lines_closed_append, ih]

/-- The heading has two lines. -/
lemma length_lines_head : (Text.lines head).length = 2 := by decide +kernel

/-- **The lines of the table** are the two of the heading and those of the rows. -/
theorem lines_render {tokens : List Token} (h : tokens ≠ []) :
    Text.lines (render tokens) = Text.lines head ++ tokens.flatMap fun t => Text.lines (row t) := by
  have hrender : render tokens = head ++ String.join (tokens.map row) := by
    cases tokens with
    | nil => contradiction
    | cons t rest => rfl
  rw [hrender, head, Text.lines_closed_append, lines_rows]

/-- The lines of the rows of some tokens. -/
lemma length_lines_rows (tokens : List Token) :
    (tokens.flatMap fun t => Text.lines (row t)).length = (tokens.map height).sum := by
  rw [List.length_flatMap]
  refine congrArg List.sum (List.map_congr_left fun t _ => ?_)
  obtain ⟨first, more, hlines, hheight, -⟩ := exists_lines_row t
  rw [hlines, List.length_cons, hheight]

/-- A source always has tokens to show. -/
lemma allTokens_ne_nil (s : Scan) : s.allTokens ≠ [] := by simp [Scan.allTokens]

/-- What scanning takes for a string holds a line end if and only if its text does. -/
lemma lineEnd_mem_textOf_iff {source : String} {t : Token} (h : t ∈ (scan source).allTokens)
    (hkind : t.kind = .string) :
    '\n' ∈ (Token.textOf t.lexeme).toList ↔ '\n' ∈ t.lexeme.toList := by
  rcases List.mem_append.1 h with h | h
  · obtain ⟨body, hlexeme, -⟩ := (Scan.spells_of_mem_tokensFrom h).exists_body hkind
    simp [Token.textOf, hlexeme]
  · obtain rfl : t = Token.atEnd (scan source).lastLine := by simpa using h
    cases hkind

/-- A token of a source has one line in the table exactly if it is no string with a line end. -/
lemma height_eq_one_iff {source : String} {t : Token} (h : t ∈ (scan source).allTokens) :
    height t = 1 ↔ (t.kind = .string → '\n' ∉ t.lexeme.toList) := by
  rw [height, Nat.add_eq_right, List.count_eq_zero, lineEnd_mem_valueShown_iff, not_and]
  exact forall_congr' fun hkind => not_congr (lineEnd_mem_textOf_iff h hkind)

/-- The rows take at least a line each, and no more exactly if each of them is one line. -/
lemma sum_height_eq_length_iff {tokens : List Token} :
    (tokens.map height).sum = tokens.length ↔ ∀ t ∈ tokens, height t = 1 := by
  have hsum : (tokens.map height).sum =
      (tokens.map fun t => (valueShown t).toList.count '\n').sum + tokens.length := by
    induction tokens with
    | nil => rfl
    | cons t rest ih =>
      simp only [List.map_cons, List.sum_cons, List.length_cons, ih, height]
      omega
  rw [hsum, Nat.add_eq_right, List.sum_eq_zero_iff]
  simp [height]

/-- **Reading the table back.** The table of a source is a heading of two lines and the lines of the
rows. The row of each token stands behind those of the tokens before it, and begins with a line from
which the line and the kind of the token can be read. It goes on over another line for each line end
in the text of a string. So there is one line for each token exactly if no string holds a line end,
and then the lines read back to the lines and the kinds of all tokens, in order.

**Proof sketch.** Only the value of a token can hold a line end, and it stands behind the columns
that are read. -/
theorem rows_read_back (source : String) :
    let tokens := (scan source).allTokens
    let rows := (Text.lines (render tokens)).drop 2
    let flat := ∀ t ∈ tokens, t.kind = .string → '\n' ∉ t.lexeme.toList
    Text.lines (render tokens) = Text.lines head ++ rows ∧ (Text.lines head).length = 2 ∧
    (∀ before t after, tokens = before ++ t :: after →
      (rows[(before.map height).sum]?).bind readRow = some (t.line, t.kind)) ∧
    rows.length = (tokens.map height).sum ∧
    (rows.length = tokens.length ↔ flat) ∧
    (flat → rows.map readRow = tokens.map fun t => some (t.line, t.kind)) := by
  intro tokens rows flat
  have hlines := lines_render (allTokens_ne_nil (scan source))
  have hrows : rows = tokens.flatMap fun t => Text.lines (row t) := by
    simp only [rows, tokens, hlines]
    rw [← length_lines_head, List.drop_left]
  have hlength : rows.length = (tokens.map height).sum := by rw [hrows, length_lines_rows]
  have hflat : flat ↔ ∀ t ∈ tokens, height t = 1 :=
    forall₂_congr fun t ht => (height_eq_one_iff ht).symm
  refine ⟨by rw [hrows, hlines], length_lines_head, ?_, hlength, ?_, ?_⟩
  · intro before t after hsplit
    obtain ⟨first, more, hfirst, -, hread⟩ := exists_lines_row t
    rw [hrows, hsplit, List.flatMap_append, List.flatMap_cons, ← length_lines_rows,
      List.getElem?_append_right le_rfl, Nat.sub_self, hfirst]
    exact hread
  · rw [hlength, hflat, sum_height_eq_length_iff]
  · intro h
    rw [hrows, List.map_flatMap, List.map_eq_flatMap]
    refine List.flatMap_congr fun t ht => ?_
    obtain ⟨first, more, hfirst, hheight, hread⟩ := exists_lines_row t
    obtain rfl : more = [] := by
      rw [hflat.1 h t ht] at hheight
      exact List.eq_nil_of_length_eq_zero (by omega)
    rw [hfirst, List.map_singleton, hread]

/-- A string with a tab and quotation marks of the other sort, a line end behind it, and a comment:
the table has a line for each token. -/
theorem rows_read_back_tab :
    let tokens := (scan "print \"it's\ta tab\";\n// nothing").allTokens
    let rows := (Text.lines (render tokens)).drop 2
    rows.length = tokens.length ∧
    rows.map readRow = [some (1, .printWord), some (1, .string), some (1, .semicolon),
      some (2, .endOfSource)] := by
  intro tokens rows
  have hflat : ∀ t ∈ tokens, t.kind = .string → '\n' ∉ t.lexeme.toList := by decide +kernel
  obtain ⟨-, -, -, -, hlength, hread⟩ := rows_read_back "print \"it's\ta tab\";\n// nothing"
  refine ⟨hlength.2 hflat, (hread hflat).trans ?_⟩
  decide +kernel

/-- A string whose text goes on with what looks like the row of another token: its table has a line
more than there are tokens, and it is the table of another source, which has that token. -/
theorem rows_forged :
    let forged := scan ("\"a string that the table cuts\n" ++
      "2     | NIL             | nil                     | \"")
    let honest := scan "\"a string that the table cuts\"\nnil"
    forged.faults = [] ∧ forged.allTokens.length = 2 ∧ honest.allTokens.length = 3 ∧
    (Text.lines (render forged.allTokens)).length = 2 + 3 ∧
    render forged.allTokens = render honest.allTokens := by
  intro forged honest
  refine ⟨by decide +kernel, by decide +kernel, by decide +kernel, ?_, by decide +kernel⟩
  rw [lines_render (allTokens_ne_nil forged), List.length_append, length_lines_head,
    length_lines_rows]
  decide +kernel

end TokenTable

end LoxLang
