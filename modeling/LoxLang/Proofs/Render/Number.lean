import LoxLang.Proofs.Grammar.Running
import LoxLang.Proofs.Scan.Written
import LoxLang.Render.Source

set_option autoImplicit false

/-!
# Numbers that were read, written back

A number token is read as a literal of the double nearest to it, and that literal is written
without an exponent, so that it can be scanned again. This is so for every number but infinity,
which is what more than the largest double is read as, and for which there is no number token: the
word that is written for it is scanned as a name.

## Main definitions

* `Literal.WrittenBack` — a text is scanned to one number token of the given value, and is no name.

## Main results

* `Token.numberOf_eq_infinity` — what is read as no finite number is read as infinity.
* `Token.number_written_back` — the literal of a finite number token is written back, and any other
  as the name `Infinity`.
-/

namespace LoxLang

/-- A text is scanned to one number token, which has the given value, and it is not how any name of
any source is shown. -/
structure Literal.WrittenBack (x : Float) (text : String) : Prop where
  tokens_eq : (scan text).tokens = [⟨.number, text, 1⟩]
  faults_eq : (scan text).faults = []
  numberOf_eq : Token.numberOf text = x
  ne_name : ∀ (source : String), ∀ u ∈ (scan source).tokens, u.kind = .identifier →
    (Expr.variable u).tree ≠ text ∧ (Expr.variable u).source ≠ text

namespace Token

/-- **What is read as no finite number is read as infinity.** -/
theorem numberOf_eq_infinity {lexeme : String} (h : (numberOf lexeme).isFinite = false) :
    numberOf lexeme = Binary64.ofMagnitude Binary64.infinity := by
  have hle := Decimal.toMagnitude_le (Decimal.ofNumeral lexeme.toList)
  rcases Nat.lt_or_eq_of_le hle with hlt | heq
  · rw [numberOf, Decimal.toFloat, Binary64.isFinite_ofMagnitude hlt] at h
    contradiction
  · rw [numberOf, Decimal.toFloat, heq]

/-- A text that is scanned to one token of another kind is shown for no name. -/
lemma lexeme_ne_of_scan {source text : String} {u : Token} {kind : Kind}
    (hu : u ∈ (scan source).tokens) (hk : u.kind ≠ kind)
    (h : (scan text).tokens = [⟨kind, text, 1⟩]) : u.lexeme ≠ text := by
  rintro rfl
  have hspells : Spells u.kind u.lexeme.toList := Scan.spells_of_mem_tokensFrom hu
  rw [(Scan.scan_spelled hspells).1] at h
  simp_all

/-- **The literal of a number token is written back unless it is infinite.** Wherever the token is
read, it is read as the literal of the double nearest to it. If that is finite, its text is scanned
to one number token of the same value and is never shown for a name. Otherwise its text is
`Infinity`, which is scanned to a name and is how that name is shown.

**Proof sketch.** A finite number is written as a numeral that reads back, and a numeral by itself
is scanned to one token. No text is scanned to a number and to a name. -/
theorem number_written_back {t : Token} (hk : t.kind = .number) :
    let e := Expr.literal (.number (numberOf t.lexeme))
    (∀ expression inFunction rest,
      (Grammar.primary expression).run inFunction (t :: rest) = .ok e rest []) ∧
    e.tree = e.source ∧
    ((numberOf t.lexeme).isFinite = true → Literal.WrittenBack (numberOf t.lexeme) e.source) ∧
    ((numberOf t.lexeme).isFinite = false → e.source = "Infinity" ∧
      ∃ name, (scan e.source).tokens = [name] ∧ name.kind = .identifier ∧
        (Expr.variable name).source = e.source) := by
  intro e
  refine ⟨fun expression inFunction rest => ?_, rfl, fun hf => ?_, fun hf => ?_⟩
  · unfold Grammar.primary
    rw [Parser.run_select_of_some (f := fun token =>
      return .literal (.number (numberOf token.lexeme))) (by simp [hk])]
    rfl
  · obtain ⟨text, htext, hnumeral, hnumber⟩ := exists_numeral hf
    have hsource : e.source = String.ofList text := htext
    have hspells : Spells .number e.source.toList := by
      rw [hsource, String.toList_ofList]
      exact .number hnumeral
    obtain ⟨htokens, hfaults⟩ := Scan.scan_spelled hspells
    refine ⟨htokens, hfaults, hsource ▸ hnumber, fun other u hu hname => ?_⟩
    have hne : u.lexeme ≠ e.source := lexeme_ne_of_scan hu (by simp [hname]) htokens
    exact ⟨hne, hne⟩
  · have hsource : e.source = "Infinity" := by
      show sourceNumber (numberOf t.lexeme) = _
      rw [numberOf_eq_infinity hf]
      decide +kernel
    have hscan : (scan "Infinity").tokens = [⟨.identifier, "Infinity", 1⟩] := by decide +kernel
    rw [hsource]
    exact ⟨rfl, _, hscan, rfl, rfl⟩

/-- The numeral `0.50` is written back as a text of the same value. -/
theorem number_written_back_half : Literal.WrittenBack (numberOf "0.50") "0.5" := by
  have hfinite : (numberOf "0.50").isFinite = true := by decide +kernel
  have hsource : (Expr.literal (.number (numberOf "0.50"))).source = "0.5" := by decide +kernel
  exact hsource ▸ (number_written_back (t := ⟨.number, "0.50", 1⟩) rfl).2.2.1 hfinite

/-- **A number token need not be written back.** A one with 309 zeros behind it is a number token,
and what is written for its literal is scanned to a name. -/
theorem exists_number_not_written_back :
    let text := String.ofList ('1' :: List.replicate 309 '0')
    let e := Expr.literal (.number (numberOf text))
    (scan text).tokens = [⟨.number, text, 1⟩] ∧ e.source = "Infinity" ∧
      (scan e.source).tokens = [⟨.identifier, "Infinity", 1⟩] ∧
      (Expr.variable ⟨.identifier, "Infinity", 1⟩).source = e.source ∧
      ¬ Literal.WrittenBack (numberOf text) e.source := by
  intro text e
  have hone : Digits ['1'] := ⟨by simp, by simp⟩
  have hdigits := hone.append_zeros 309
  rw [List.singleton_append] at hdigits
  have hspells : Spells .number text.toList := by
    rw [String.toList_ofList]
    exact .number (.whole hdigits)
  have hinfinite : (numberOf text).isFinite = false := by
    rw [numberOf, String.toList_ofList]
    decide +kernel
  have hsource : e.source = "Infinity" := by
    show sourceNumber (numberOf text) = _
    rw [numberOf_eq_infinity hinfinite]
    decide +kernel
  have hscan : (scan "Infinity").tokens = [⟨.identifier, "Infinity", 1⟩] := by decide +kernel
  rw [hsource]
  refine ⟨(Scan.scan_spelled hspells).1, rfl, hscan, rfl, fun h => ?_⟩
  have htokens := h.tokens_eq
  rw [hscan] at htokens
  simp at htokens

end Token

end LoxLang
