import LoxLang.Proofs.Scan.Newline

set_option autoImplicit false

/-!
# Cutting by longest match

What each sort of piece may look like is a rule of its own, and no rule knows of the others. Cutting
takes at each place the longest piece that any rule allows there; a character where no rule allows
anything is cut off as a stray one. There is one way only to do so, and scanning does it. Tokens and
faults are then read off from the pieces in order, each with the number of line ends in front of it.

## Main definitions

* `Piece.Allowed` — the rules, one for each sort of piece.
* `Piece.Longest` — a piece is the longest that any rule allows in front of a text.
* `Piece.Cuts` — a text is cut into pieces, each of them the longest at its place.
* `Piece.Names` — the kind of token that a piece is.
* `Scan.Gives` — the tokens and faults that pieces give.

## Main results

* `Piece.Longest.unique` — there is one longest piece at most.
* `Piece.cuts_iff` — a text is cut in one way.
* `Scan.scan_gives` — scanning gives what the only way to cut a source gives.
-/

namespace LoxLang

namespace Piece

/-! ## The rules -/

/-- What the rules allow a piece to be. There is no rule for a stray character. -/
inductive Allowed : Piece → Prop
  | comment {body : List Char} (h : '\n' ∉ body) : Allowed ⟨.comment, '/' :: '/' :: body⟩
  | string {body : List Char} (h : '"' ∉ body) : Allowed ⟨.string, '"' :: (body ++ ['"'])⟩
  | openString {body : List Char} (h : '"' ∉ body) : Allowed ⟨.openString, '"' :: body⟩
  | number {text : List Char} (h : Numeral text) : Allowed ⟨.number, text⟩
  | word {c : Char} {body : List Char} (h : startsWord c = true)
    (h' : ∀ d ∈ body, continuesWord d = true) : Allowed ⟨.word, c :: body⟩
  | lineEnds {body : List Char} (h : ∀ d ∈ body, d = '\n') : Allowed ⟨.lineEnds, '\n' :: body⟩
  | operator {kind : Token.Kind} (h : kind.spelling ≠ []) :
    Allowed ⟨.operator kind, kind.spelling⟩
  | blank {c : Char} (h : isBlank c = true) : Allowed ⟨.blank, [c]⟩

/-- A piece is the longest that any rule allows in front of a text; or it is stray, and no rule
allows anything there. -/
inductive Longest (rest : List Char) : Piece → Prop
  | allowed {p : Piece} (h : p.Allowed)
    (hl : ∀ q : Piece, q.Allowed → q.text <+: p.text ++ rest → q.text.length ≤ p.text.length) :
    Longest rest p
  | stray {c : Char} (h : ∀ q : Piece, q.Allowed → ¬ q.text <+: c :: rest) :
    Longest rest ⟨.stray, [c]⟩

/-- A text is cut from left to right into pieces, each of them the longest at its place. -/
inductive Cuts : List Char → List Piece → Prop
  | nil : Cuts [] []
  | cons {p : Piece} {rest : List Char} {pieces : List Piece} (h : p.Longest rest)
    (hrest : Cuts rest pieces) : Cuts (p.text ++ rest) (p :: pieces)

variable {c : Char} {text rest : List Char} {p q : Piece}

/-! ## What the first piece is -/

/-- A piece holds a character at least. -/
lemma one_le_length_first (c : Char) (text : List Char) : 1 ≤ (first c text).1.text.length := by
  have hlength := congrArg List.length (first_append c text)
  have hrest := length_rest_first c text
  simp only [List.length_append, List.length_cons] at hlength
  omega

/-- What begins with two slashes is taken for a comment. -/
lemma first_slashes (text : List Char) : first '/' ('/' :: text) =
    (⟨.comment, '/' :: '/' :: text.takeWhile (· != '\n')⟩, text.dropWhile (· != '\n')) := by
  simp [first, run]

/-- What begins with a quote is taken for a string. -/
lemma first_quote (text : List Char) : first '"' text = quoted text := by
  simp [first]

/-- A quote that nothing closes is taken with all that follows it. -/
lemma quoted_of_not_mem (h : '"' ∉ text) : quoted text = (⟨.openString, '"' :: text⟩, []) := by
  have hrun : run (· != '"') (text ++ []) = (text, []) :=
    run_append (fun d hd => by simpa using fun heq : d = '"' => h (heq ▸ hd)) (by simp)
  rw [List.append_nil] at hrun
  simp [quoted, hrun]

/-- A string is taken with all that stands in front of the next quote. -/
lemma length_le_quoted (h : '"' ∉ text) (rest : List Char) :
    text.length + 1 ≤ (quoted (text ++ rest)).1.text.length := by
  have htake : (text ++ rest).takeWhile (· != '"') = text ++ rest.takeWhile (· != '"') :=
    List.takeWhile_append_of_pos fun d hd => by simpa using fun heq : d = '"' => h (heq ▸ hd)
  simp only [quoted, run, htake]
  split <;> simp

/-- An operator is one character or two. -/
lemma spelling_cases {kind : Token.Kind} (h : kind.spelling ≠ []) :
    (∃ c, Token.Kind.ofSymbol? c = some kind ∧ kind.spelling = [c]) ∨
      ∃ c d k, Token.Kind.ofSymbol? c = some k ∧ Token.Kind.ofPair? c d = some kind ∧
        kind.spelling = [c, d] := by
  cases kind
  case bangEqual | equalEqual | greaterEqual | lessEqual =>
    exact .inr ⟨_, _, _, rfl, rfl, rfl⟩
  all_goals first | exact .inl ⟨_, rfl, rfl⟩ | exact absurd rfl h

/-- What begins like an operator is not stray. -/
lemma sort_first_of_ofSymbol? {kind : Token.Kind} (h : Token.Kind.ofSymbol? c = some kind)
    (text : List Char) : (first c text).1.sort ≠ .stray := by
  by_cases hslash : c = '/' ∧ text.head? = some '/'
  · obtain ⟨rfl, hhead⟩ := hslash
    obtain ⟨text, rfl⟩ := List.head?_eq_some_iff.1 hhead
    simp [first_slashes]
  · rw [first_eq_symbol h fun hc d hd heq => hslash ⟨hc, by simpa [heq] using hd⟩]
    cases text with
    | nil => simp [symbol, h]
    | cons d text => cases hp : Token.Kind.ofPair? c d <;> simp [symbol, h, hp]

/-- **What a rule allows is no longer than the piece that is taken**, and that one is not stray. -/
lemma Allowed.length_le_first (hp : p.Allowed) (h : p.text ++ rest = c :: text) :
    (first c text).1.sort ≠ .stray ∧ p.text.length ≤ (first c text).1.text.length := by
  cases hp with
  | @comment body hb =>
    obtain ⟨rfl, rfl⟩ : '/' = c ∧ '/' :: (body ++ rest) = text := by simpa using h
    have htake : (body ++ rest).takeWhile (· != '\n') = body ++ rest.takeWhile (· != '\n') :=
      List.takeWhile_append_of_pos fun d hd => by simpa using fun heq : d = '\n' => hb (heq ▸ hd)
    simp [first_slashes, htake]
  | @string body hb =>
    obtain ⟨rfl, rfl⟩ : '"' = c ∧ body ++ '"' :: rest = text := by simpa using h
    simp [first_string hb]
  | @openString body hb =>
    obtain ⟨rfl, rfl⟩ : '"' = c ∧ body ++ rest = text := by simpa using h
    rw [first_quote]
    refine ⟨?_, length_le_quoted hb rest⟩
    simp only [quoted]
    split <;> simp
  | @number number hn =>
    obtain ⟨d, body, rfl⟩ := List.exists_cons_of_ne_nil hn.ne_nil
    obtain ⟨rfl, rfl⟩ : d = c ∧ body ++ rest = text := by simpa using h
    rw [first_of_isDigit hn.isDigit_head]
    refine ⟨by simp [numeral], ?_⟩
    generalize hall : d :: body = all at hn
    cases hn with
    | whole hw =>
      subst hall
      have htake : (body ++ rest).takeWhile Char.isDigit = body ++ rest.takeWhile Char.isDigit :=
        List.takeWhile_append_of_pos fun x hx => hw.isDigit x (List.mem_cons_of_mem d hx)
      simp only [numeral, run, htake, List.length_cons, List.length_append]
      omega
    | pointed hw hf =>
      rename_i whole decimals
      obtain ⟨w, ws, rfl⟩ := List.exists_cons_of_ne_nil hw.ne_nil
      obtain ⟨x, xs, rfl⟩ := List.exists_cons_of_ne_nil hf.ne_nil
      obtain ⟨rfl, rfl⟩ : d = w ∧ body = ws ++ '.' :: x :: xs := by simpa using hall
      have hrun : run Char.isDigit (ws ++ '.' :: x :: (xs ++ rest)) =
          (ws, '.' :: x :: (xs ++ rest)) :=
        run_append (fun y hy => hw.isDigit y (List.mem_cons_of_mem d hy)) (by simp)
      have htake : (xs ++ rest).takeWhile Char.isDigit = xs ++ rest.takeWhile Char.isDigit :=
        List.takeWhile_append_of_pos fun y hy => hf.isDigit y (List.mem_cons_of_mem x hy)
      simp only [numeral, List.append_assoc, List.cons_append, hrun, fraction,
        hf.isDigit x (by simp), htake, if_true, List.length_cons, List.length_append]
      omega
  | @word d body hd hb =>
    obtain ⟨rfl, rfl⟩ : d = c ∧ body ++ rest = text := by simpa using h
    have htake : (body ++ rest).takeWhile continuesWord = body ++ rest.takeWhile continuesWord :=
      List.takeWhile_append_of_pos hb
    simp [first_of_startsWord hd, run, htake]
  | @lineEnds body hb =>
    obtain ⟨rfl, rfl⟩ : '\n' = c ∧ body ++ rest = text := by simpa using h
    have htake : (body ++ rest).takeWhile (· == '\n') = body ++ rest.takeWhile (· == '\n') :=
      List.takeWhile_append_of_pos fun d hd => by simpa using hb d hd
    simp [first_newline, htake]
  | @operator kind hk =>
    rcases spelling_cases hk with ⟨d, hd, hs⟩ | ⟨d, e, k, hd, hde, hs⟩
    · obtain ⟨rfl, rfl⟩ : d = c ∧ rest = text := by simpa [hs] using h
      exact ⟨sort_first_of_ofSymbol? hd rest, by simpa [hs] using one_le_length_first d rest⟩
    · obtain ⟨rfl, rfl⟩ : d = c ∧ e :: rest = text := by simpa [hs] using h
      simp [first_pair hde hd, hs]
  | @blank d hd =>
    obtain ⟨rfl, rfl⟩ : d = c ∧ rest = text := by simpa using h
    refine ⟨?_, one_le_length_first d rest⟩
    have hcases : d = ' ' ∨ d = '\t' ∨ d = '\r' := by simpa [isBlank, or_assoc] using hd
    rcases hcases with rfl | rfl | rfl <;> simp [first, startsWord, isBlank]

/-- What a rule allows is taken whole if nothing follows it. -/
lemma Allowed.first_eq (hp : p.Allowed) (h : p.text = c :: text) : first c text = (p, []) := by
  cases hp with
  | @comment body hb =>
    obtain ⟨rfl, rfl⟩ : '/' = c ∧ '/' :: body = text := by simpa using h
    have hrun : run (· != '\n') (body ++ []) = (body, []) :=
      run_append (fun d hd => by simpa using fun heq : d = '\n' => hb (heq ▸ hd)) (by simp)
    simp only [run, List.append_nil, Prod.mk.injEq] at hrun
    simp only [first_slashes, hrun]
  | @string body hb =>
    obtain ⟨rfl, rfl⟩ : '"' = c ∧ body ++ ['"'] = text := by simpa using h
    exact first_string hb
  | @openString body hb =>
    obtain ⟨rfl, rfl⟩ : '"' = c ∧ body = text := by simpa using h
    rw [first_quote, quoted_of_not_mem hb]
  | number hn =>
    obtain rfl := h
    have hfirst : first c (text ++ []) = _ := first_numeral hn (by simp)
    rwa [List.append_nil] at hfirst
  | @word d body hd hb =>
    obtain ⟨rfl, rfl⟩ : d = c ∧ body = text := by simpa using h
    have hfirst : first d (body ++ []) = _ := first_word hd hb (by simp)
    rwa [List.append_nil] at hfirst
  | @lineEnds body hb =>
    obtain ⟨rfl, rfl⟩ : '\n' = c ∧ body = text := by simpa using h
    have hrun : run (· == '\n') (body ++ []) = (body, []) :=
      run_append (fun d hd => by simpa using hb d hd) (by simp)
    simp only [run, List.append_nil, Prod.mk.injEq] at hrun
    simp only [first_newline, hrun]
  | operator hk =>
    have hfirst : first c (text ++ []) = _ := first_spelling h (by simp)
    rwa [List.append_nil, ← h] at hfirst
  | @blank d hd =>
    obtain ⟨rfl, rfl⟩ : d = c ∧ [] = text := by simpa using h
    have hcases : d = ' ' ∨ d = '\t' ∨ d = '\r' := by simpa [isBlank, or_assoc] using hd
    rcases hcases with rfl | rfl | rfl <;> simp [first, startsWord, isBlank]

/-- What a rule allows holds a character. -/
lemma Allowed.exists_eq_cons (hp : p.Allowed) : ∃ c text, p.text = c :: text := by
  apply List.exists_cons_of_ne_nil
  cases hp with
  | number hn => exact hn.ne_nil
  | operator hk => exact hk
  | comment | string | openString | word | lineEnds | blank => simp

/-- No two rules allow the same text. -/
lemma Allowed.eq_of_text_eq (hp : p.Allowed) (hq : q.Allowed) (h : p.text = q.text) : p = q := by
  obtain ⟨c, text, hc⟩ := hp.exists_eq_cons
  have hfirst := hp.first_eq hc
  rw [hq.first_eq (h ▸ hc)] at hfirst
  exact (congrArg Prod.fst hfirst).symm

/-- A string that is taken is allowed. -/
lemma allowed_quoted (text : List Char) : (quoted text).1.Allowed := by
  have hbody : '"' ∉ text.takeWhile (· != '"') := by
    intro hmem
    simpa using List.mem_takeWhile_imp hmem
  simp only [quoted, run]
  cases hrest : text.dropWhile (· != '"') with
  | nil => exact .openString hbody
  | cons quote rest =>
    have hquote : quote = '"' := by
      have := List.head?_dropWhile_not (· != '"') text
      rw [hrest] at this
      simpa using this
    rw [hquote]
    exact .string hbody

/-- An operator that is taken is allowed, and any other character is stray. -/
lemma allowed_symbol (h : (symbol c text).1.sort ≠ .stray) : (symbol c text).1.Allowed := by
  have hallowed : ∀ {kind : Token.Kind} {word : List Char}, kind.spelling = word → word ≠ [] →
      Allowed ⟨.operator kind, word⟩ := by
    rintro kind word rfl hne
    exact .operator hne
  have hsingle : ∀ kind, Token.Kind.ofSymbol? c = some kind → Allowed ⟨.operator kind, [c]⟩ :=
    fun kind hk => hallowed (spelling_of_ofSymbol? hk) (by simp)
  cases text with
  | nil =>
    cases hs : Token.Kind.ofSymbol? c with
    | none => simp [symbol, hs] at h
    | some kind => simpa [symbol, hs] using hsingle kind hs
  | cons d text =>
    cases hp : Token.Kind.ofPair? c d with
    | some kind => simpa [symbol, hp] using hallowed (spelling_of_ofPair? hp) (by simp)
    | none =>
      cases hs : Token.Kind.ofSymbol? c with
      | none => simp [symbol, hp, hs] at h
      | some kind => simpa [symbol, hp, hs] using hsingle kind hs

/-- A piece that is taken is allowed unless it is stray. -/
lemma allowed_first (h : (first c text).1.sort ≠ .stray) : (first c text).1.Allowed := by
  unfold first at h ⊢
  by_cases hcomment : (c == '/' && text.head? == some '/') = true
  · obtain ⟨rfl, hhead⟩ : c = '/' ∧ text.head? = some '/' := by simpa using hcomment
    obtain ⟨text, rfl⟩ := List.head?_eq_some_iff.1 hhead
    rw [if_pos hcomment]
    have hbody : '\n' ∉ text.takeWhile (· != '\n') := by
      intro hmem
      simpa using List.mem_takeWhile_imp hmem
    exact .comment hbody
  rw [if_neg hcomment] at h ⊢
  by_cases hquote : (c == '"') = true
  · rw [if_pos hquote]
    exact allowed_quoted text
  rw [if_neg hquote] at h ⊢
  by_cases hdigit : c.isDigit = true
  · rw [if_pos hdigit]
    exact .number (numeral_numeral hdigit)
  rw [if_neg hdigit] at h ⊢
  by_cases hword : startsWord c = true
  · rw [if_pos hword]
    exact .word hword fun d hd => List.mem_takeWhile_imp hd
  rw [if_neg hword] at h ⊢
  by_cases hline : (c == '\n') = true
  · obtain rfl : c = '\n' := by simpa using hline
    rw [if_pos hline]
    exact .lineEnds fun d hd => by simpa using List.mem_takeWhile_imp hd
  rw [if_neg hline] at h ⊢
  by_cases hblank : isBlank c = true
  · rw [if_pos hblank]
    exact .blank hblank
  rw [if_neg hblank] at h ⊢
  exact allowed_symbol h

/-- A stray piece is one character. -/
lemma first_of_stray (h : (first c text).1.sort = .stray) :
    first c text = (⟨.stray, [c]⟩, text) := by
  unfold first at h ⊢
  by_cases hcomment : (c == '/' && text.head? == some '/') = true
  · simp [hcomment] at h
  rw [if_neg hcomment] at h ⊢
  by_cases hquote : (c == '"') = true
  · rw [if_pos hquote] at h
    have hallowed := allowed_quoted text
    generalize (quoted text).1 = p at h hallowed
    cases hallowed <;> simp at h
  rw [if_neg hquote] at h ⊢
  by_cases hdigit : c.isDigit = true
  · simp [hdigit, numeral] at h
  rw [if_neg hdigit] at h ⊢
  by_cases hword : startsWord c = true
  · simp [hword] at h
  rw [if_neg hword] at h ⊢
  by_cases hline : (c == '\n') = true
  · simp [hline] at h
  rw [if_neg hline] at h ⊢
  by_cases hblank : isBlank c = true
  · simp [hblank] at h
  rw [if_neg hblank] at h ⊢
  cases hs : Token.Kind.ofSymbol? c with
  | some kind =>
    cases text with
    | nil => simp [symbol, hs] at h
    | cons d text => cases hp : Token.Kind.ofPair? c d <;> simp [symbol, hs, hp] at h
  | none =>
    cases text with
    | nil => simp [symbol, hs]
    | cons d text =>
      cases hp : Token.Kind.ofPair? c d with
      | none => simp [symbol, hs, hp]
      | some kind => simp [symbol, hp] at h

/-! ## The only way to cut a text -/

/-- **The piece that is taken is the longest.** -/
theorem longest_first (c : Char) (text : List Char) :
    (first c text).1.Longest (first c text).2 := by
  by_cases hstray : (first c text).1.sort = .stray
  · rw [first_of_stray hstray]
    refine .stray fun q hq hprefix => ?_
    obtain ⟨rest, hrest⟩ := hprefix
    exact (hq.length_le_first hrest).1 hstray
  · refine .allowed (allowed_first hstray) fun q hq hprefix => ?_
    rw [first_append] at hprefix
    obtain ⟨rest, hrest⟩ := hprefix
    exact (hq.length_le_first hrest).2

/-- **There is one longest piece at most.** -/
theorem Longest.unique {rest' : List Char} (hp : p.Longest rest) (hq : q.Longest rest')
    (h : p.text ++ rest = q.text ++ rest') : p = q ∧ rest = rest' := by
  cases hp with
  | allowed hp hpl =>
    cases hq with
    | allowed hq hql =>
      have hle := hpl q hq (h ▸ List.prefix_append q.text rest')
      have hge := hql p hp (h ▸ List.prefix_append p.text rest)
      obtain ⟨htext, hrest⟩ := List.append_inj h (Nat.le_antisymm hge hle)
      exact ⟨hp.eq_of_text_eq hq htext, hrest⟩
    | stray hnone =>
      exact absurd ⟨rest, h⟩ (hnone p hp)
  | stray hnone =>
    cases hq with
    | allowed hq _ => exact absurd ⟨rest', h.symm⟩ (hnone q hq)
    | stray => simpa using h

/-- Cutting a text cuts it by longest match. -/
lemma cuts_cut (text : List Char) : Cuts text (cut text) := by
  induction hn : text.length using Nat.strongRecOn generalizing text with
  | ind n ih =>
    cases text with
    | nil => simpa using Cuts.nil
    | cons c text =>
      have hlength := length_rest_first c text
      rw [cut_cons]
      have hrest := ih _ (by simp at hn; omega) (first c text).2 rfl
      have hcuts := Cuts.cons (longest_first c text) hrest
      rwa [first_append] at hcuts

/-- **A text is cut in one way.**

**Proof sketch.** Cutting takes the longest piece at each place. Two ways to cut a text begin with
the same piece, since there is one longest piece at most, and go on to cut the same rest. -/
theorem cuts_iff {pieces : List Piece} : Cuts text pieces ↔ pieces = cut text := by
  constructor
  · intro h
    induction h with
    | nil => exact cut_nil.symm
    | @cons p rest pieces hp _ ih =>
      obtain ⟨c, left, hleft⟩ : ∃ c left, p.text ++ rest = c :: left := by
        cases hp with
        | allowed ha =>
          obtain ⟨c, more, hc⟩ := ha.exists_eq_cons
          exact ⟨c, more ++ rest, by simp [hc]⟩
        | @stray c => exact ⟨c, rest, rfl⟩
      have hfirst : p.text ++ rest = (first c left).1.text ++ (first c left).2 := by
        rw [first_append, hleft]
      obtain ⟨rfl, rfl⟩ := hp.unique (longest_first c left) hfirst
      rw [hleft, cut_cons, ih]
  · rintro rfl
    exact cuts_cut text

/-- A quote that is never closed takes all that follows it. -/
lemma Longest.rest_eq_nil (hp : p.Longest rest) (h : p.sort = .openString) : rest = [] := by
  cases hp with
  | stray => contradiction
  | allowed ha hl =>
    cases ha with
    | comment | string | number | word | lineEnds | operator | blank => contradiction
    | @openString body hb =>
      cases rest with
      | nil => rfl
      | cons d rest =>
        -- One character more makes a string, or a longer piece that is not closed.
        exfalso
        by_cases hd : d = '"'
        · subst hd
          have hle := hl _ (.string hb) ⟨rest, by simp⟩
          simp at hle
        · have hmem : '"' ∉ body ++ [d] := by
            simpa [hb] using Ne.symm hd
          have hle := hl _ (.openString hmem) ⟨rest, by simp⟩
          simp at hle

/-! ## What pieces give -/

/-- The kind of token that a piece is. A word is a keyword only as a whole. -/
inductive Names : Piece → Token.Kind → Prop
  | string {text : List Char} : Names ⟨.string, text⟩ .string
  | number {text : List Char} : Names ⟨.number, text⟩ .number
  | operator {kind : Token.Kind} {text : List Char} : Names ⟨.operator kind, text⟩ kind
  | keyword {text : List Char} {kind : Token.Kind}
    (h : (String.ofList text, kind) ∈ Token.Kind.keywords) : Names ⟨.word, text⟩ kind
  | identifier {text : List Char}
    (h : ∀ kind, (String.ofList text, kind) ∉ Token.Kind.keywords) :
    Names ⟨.word, text⟩ .identifier

/-- A whole word is looked up among the keywords. -/
lemma ofWord_eq_iff {word : String} {kind : Token.Kind} : Token.Kind.ofWord word = kind ↔
    (word, kind) ∈ Token.Kind.keywords ∨
      (∀ k, (word, k) ∉ Token.Kind.keywords) ∧ kind = .identifier := by
  have hlookup : ∀ entry ∈ Token.Kind.keywords,
      Token.Kind.keywords.lookup entry.1 = some entry.2 := by decide
  unfold Token.Kind.ofWord
  cases h : Token.Kind.keywords.lookup word with
  | none =>
    have hnone : ∀ k, (word, k) ∉ Token.Kind.keywords := by
      intro k hk
      have := hlookup _ hk
      rw [h] at this
      contradiction
    simp [hnone, eq_comm]
  | some k =>
    have hmem : (word, k) ∈ Token.Kind.keywords := by
      obtain ⟨before, after, heq, -⟩ := List.lookup_eq_some_iff.1 h
      rw [heq]
      simp
    constructor
    · rintro rfl
      exact .inl hmem
    · rintro (hk | ⟨hnone, -⟩)
      · have := hlookup _ hk
        rw [h] at this
        simpa using this
      · exact absurd hmem (hnone k)

/-- The kind of a piece is the one that it names. -/
lemma kind?_eq_some_iff {kind : Token.Kind} : p.kind? = some kind ↔ p.Names kind := by
  obtain ⟨sort, text⟩ := p
  constructor
  · intro h
    cases sort with
    | word =>
      rcases ofWord_eq_iff.1 (Option.some.inj h) with hk | ⟨hnone, rfl⟩
      · exact .keyword hk
      · exact .identifier hnone
    | string => exact Option.some.inj h ▸ .string
    | number => exact Option.some.inj h ▸ .number
    | operator k => exact Option.some.inj h ▸ .operator
    | comment | openString | lineEnds | blank | stray => contradiction
  · rintro (_ | _ | _ | hk | hnone)
    · rfl
    · rfl
    · rfl
    · exact congrArg some (ofWord_eq_iff.2 (.inl hk))
    · exact congrArg some (ofWord_eq_iff.2 (.inr ⟨hnone, rfl⟩))

end Piece

namespace Scan

/-- The tokens and faults that pieces give in order, behind the text before them. A token or a stray
character is on the line after the line ends before it; a quote that is never closed is found out on
the line where the text ends, and nothing follows it. -/
inductive Gives : List Char → List Piece → List Token → List LexicalFault → Prop
  | nil {before : List Char} : Gives before [] [] []
  | token {before : List Char} {p : Piece} {kind : Token.Kind} {pieces : List Piece}
    {tokens : List Token} {faults : List LexicalFault} (h : p.Names kind)
    (hrest : Gives (before ++ p.text) pieces tokens faults) :
    Gives before (p :: pieces)
      (⟨kind, String.ofList p.text, 1 + before.count '\n'⟩ :: tokens) faults
  | apart {before : List Char} {p : Piece} {pieces : List Piece} {tokens : List Token}
    {faults : List LexicalFault} (h : p.sort = .comment ∨ p.sort = .lineEnds ∨ p.sort = .blank)
    (hrest : Gives (before ++ p.text) pieces tokens faults) :
    Gives before (p :: pieces) tokens faults
  | stray {before : List Char} {c : Char} {pieces : List Piece} {tokens : List Token}
    {faults : List LexicalFault} (hrest : Gives (before ++ [c]) pieces tokens faults) :
    Gives before (⟨.stray, [c]⟩ :: pieces) tokens
      (⟨.unexpectedCharacter c, 1 + before.count '\n'⟩ :: faults)
  | openString {before text : List Char} :
    Gives before [⟨.openString, text⟩] []
      [⟨.unterminatedString, 1 + (before ++ text).count '\n'⟩]

variable {before text : List Char} {pieces : List Piece} {tokens tokens' : List Token}
  {faults faults' : List LexicalFault}

/-- Pieces give one thing only. -/
theorem Gives.unique (h : Gives before pieces tokens faults)
    (h' : Gives before pieces tokens' faults') : tokens = tokens' ∧ faults = faults' := by
  induction h generalizing tokens' faults' with
  | nil =>
    cases h'
    exact ⟨rfl, rfl⟩
  | @token before p kind pieces tokens faults hk _ ih =>
    cases h' with
    | token hk' hrest' =>
      obtain ⟨rfl, rfl⟩ := ih hrest'
      rw [← Piece.kind?_eq_some_iff] at hk hk'
      rw [Option.some.inj (hk.symm.trans hk')]
      exact ⟨rfl, rfl⟩
    | apart hp => cases hk <;> simp at hp
    | stray | openString => cases hk
  | @apart before p pieces tokens faults hp _ ih =>
    cases h' with
    | token hk' => cases hk' <;> simp at hp
    | apart _ hrest' => exact ih hrest'
    | stray | openString => simp at hp
  | stray _ ih =>
    cases h' with
    | token hk' => cases hk'
    | apart hp' => simp at hp'
    | stray hrest' =>
      obtain ⟨rfl, rfl⟩ := ih hrest'
      exact ⟨rfl, rfl⟩
  | openString =>
    cases h' with
    | token hk' => cases hk'
    | apart hp' => simp at hp'
    | openString => exact ⟨rfl, rfl⟩

/-- The pieces of a text give what scanning it gives.

**Proof sketch.** Induction on the length of the text, of which each piece takes at least one
character. The line of a piece is one more than the line ends in front of it. -/
theorem gives_cut (before text : List Char) :
    Gives before (Piece.cut text) (tokensFrom (1 + before.count '\n') text)
      (faultsFrom (1 + before.count '\n') text) := by
  induction hn : text.length using Nat.strongRecOn generalizing before text with
  | ind n ih =>
    cases text with
    | nil => simpa using Gives.nil
    | cons c text =>
      have hlength := Piece.length_rest_first c text
      have hlongest := Piece.longest_first c text
      have hrest := ih _ (by simp at hn; omega) (before ++ (Piece.first c text).1.text)
        (Piece.first c text).2 rfl
      rw [List.count_append, ← Nat.add_assoc, ← Piece.lineCount] at hrest
      rw [Piece.cut_cons, tokensFrom_cons, faultsFrom_cons]
      generalize (Piece.first c text).1 = p at hlongest hrest
      generalize (Piece.first c text).2 = rest at hlongest hrest
      cases hlongest with
      | stray => exact .stray hrest
      | allowed hp hl =>
        cases hp with
        | comment | lineEnds | blank => exact .apart (by simp) hrest
        | string => exact .token .string hrest
        | number => exact .token .number hrest
        | operator => exact .token .operator hrest
        | word => exact .token (Piece.kind?_eq_some_iff.1 rfl) hrest
        | openString hb =>
          obtain rfl := (Piece.Longest.allowed (.openString hb) hl).rest_eq_nil rfl
          simp only [Piece.cut_nil, tokensFrom_nil, faultsFrom_nil, List.append_nil]
          have hopen := @Gives.openString before
          simp only [List.count_append, ← Nat.add_assoc] at hopen
          exact hopen

/-- **Scanning gives what the only way to cut a source gives.** There is one way only to cut a source
into pieces of which each is the longest at its place. Put together, the pieces are the source;
what they give is what scanning gives, and behind the tokens the mark for the end is on the line on
which the source ends.

**Proof sketch.** Cutting is the only way to cut a text by longest match, and the pieces that it
makes give the tokens and faults of the text. Pieces give one thing only. -/
theorem scan_gives (source : String) :
    (∃! pieces, Piece.Cuts source.toList pieces) ∧
    ∀ pieces, Piece.Cuts source.toList pieces →
      pieces.flatMap Piece.text = source.toList ∧
      (∀ tokens faults, Gives [] pieces tokens faults ↔
        tokens = (scan source).tokens ∧ faults = (scan source).faults) ∧
      (scan source).allTokens =
        (scan source).tokens ++ [⟨.endOfSource, "", 1 + source.toList.count '\n'⟩] := by
  refine ⟨⟨Piece.cut source.toList, Piece.cuts_cut _, fun _ h => Piece.cuts_iff.1 h⟩, ?_⟩
  intro pieces hpieces
  obtain rfl := Piece.cuts_iff.1 hpieces
  refine ⟨Piece.flatMap_text_cut _, fun tokens faults => ?_, rfl⟩
  have hgives : Gives [] (Piece.cut source.toList) (scan source).tokens (scan source).faults :=
    gives_cut [] source.toList
  constructor
  · intro h
    exact h.unique hgives
  · rintro ⟨rfl, rfl⟩
    exact hgives

end Scan

end LoxLang
