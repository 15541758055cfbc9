import LoxLang.Proofs.Grammar.Whole
import LoxLang.Proofs.Number.ReadBack
import LoxLang.Proofs.Scan.Reading
import LoxLang.Proofs.Syntax.WellFormed

set_option autoImplicit false

/-!
# Expressions respect precedence

The grammar has a symbol for each level of operators, so that the operands of a phrase come from
tighter symbols. The tree of a phrase keeps that: it is graded by the ranks of its operators, also
when an assignment in it lost its right side for having no name on its left.

## Main definitions

* `ExprSymbol.Graded` — what a phrase of a symbol is read as binds as tightly as the symbol.

## Main results

* `Token.plain_of_spells` — literals of tokens that are spelled as their kind asks for are plain.
* `ExprPhrase.graded_tree` — the tree of an expression is graded.
* `ExprPhrase.wellFormed_tree` — the tree of an expression is well formed over its tokens.
-/

namespace LoxLang

/-- **The literal of a token is plain** if the token is written as its kind asks for: no numeral has
a sign, and no string has a quote between its two. -/
lemma Token.plain_of_spells {t : Token} {value : Literal} (ht : Spells t.kind t.lexeme.toList)
    (h : t.constant? = some value) : value.Plain := by
  obtain ⟨kind, lexeme, line⟩ := t
  cases kind
  case falseWord | trueWord | nilWord =>
    obtain rfl := Option.some.inj h
    trivial
  case number =>
    obtain rfl := Option.some.inj h
    have hle := (Decimal.ofNumeral lexeme.toList).toMagnitude_le
    exact ⟨Binary64.zero_le_ofMagnitude hle, Binary64.negative_ofMagnitude hle⟩
  case string =>
    obtain rfl := Option.some.inj h
    obtain ⟨body, hbody, hquote⟩ := ht.exists_body rfl
    have hbody : lexeme.toList = '"' :: (body ++ ['"']) := hbody
    have htext : (textOf lexeme).toList = body := by simp [textOf, hbody]
    rwa [Literal.Plain, htext]
  all_goals contradiction

/-- What an assignment is read as is graded: its left side is, if anything else than a name. -/
lemma Expr.graded_assigned {target value : Expr} (ht : target.Graded) (hv : value.Graded) :
    (target.assigned value).Graded := by
  cases target with
  | «variable» name => exact hv
  | _ => exact ht

/-- Among the tightest levels the loosest one has as many tighter ones as its rank leaves room
for. -/
lemma Level.rank_add_length {level : Level} {levels : List Level}
    (h : level :: levels <:+ ordered) : level.rank + levels.length + 1 = Expr.unaryRank := by
  obtain ⟨looser, h⟩ := h
  have hmem : level ∉ looser := by
    have hnodup : (looser ++ level :: levels).Nodup := h ▸ by decide
    exact fun hin => (List.nodup_append.1 hnodup).2.2 level hin level (by simp) rfl
  rw [rank, Expr.unaryRank, ← h, List.idxOf_append_of_notMem hmem, List.idxOf_cons_self]
  simp only [List.length_append, List.length_cons]
  omega

/-- What a phrase of a symbol is read as is graded and binds as tightly as the symbol asks for. The
levels of an operation have to be the tightest ones. -/
def ExprSymbol.Graded : (s : ExprSymbol) → s.Tree → Prop
  | primary, e | call, e => Expr.callRank ≤ e.rank ∧ e.Graded
  | unary, e => Expr.unaryRank ≤ e.rank ∧ e.Graded
  | operation levels, e =>
    levels <:+ Level.ordered → Expr.unaryRank ≤ e.rank + levels.length ∧ e.Graded
  | expression, e => e.Graded
  | arguments, es => Expr.AllGraded es

namespace ExprPhrase

variable {tokens : List Token}

/-- **The tree of an expression is graded.** Its operands bind as tightly as their places ask for,
and its literals are plain if its tokens are written as their kinds ask for.

**Proof sketch.** Induction on the phrase. The operands of an operator are phrases with the levels
from its own on, and from the next one on. -/
theorem graded_tree {s : ExprSymbol} (p : ExprPhrase s)
    (hs : ∀ t ∈ p.tokens, Token.Spells t.kind t.lexeme.toList) : s.Graded p.tree := by
  induction p with
  | literal token value h =>
    have hplain := Token.plain_of_spells (hs token (by simp [tokens])) h
    exact ⟨Nat.le_refl _, hplain⟩
  | named name => exact ⟨Nat.le_refl _, trivial⟩
  | grouping opening inner closing ih =>
    exact ⟨Nat.le_refl _, ih fun t ht => hs t (by simp [tokens, ht])⟩
  | ofPrimary p ih => exact ih hs
  | callEmpty callee opening closing ih =>
    exact ⟨Nat.le_refl _, ih fun t ht => hs t (by simp [tokens, ht]), trivial⟩
  | call callee opening arguments closing ihc iha =>
    have hcallee := ihc fun t ht => hs t (by simp [tokens, ht])
    have harguments := iha fun t ht => hs t (by simp [tokens, ht])
    exact ⟨Nat.le_refl _, hcallee, harguments⟩
  | single e ih => exact ⟨ih hs, trivial⟩
  | further init comma next ihi ihn =>
    exact Expr.allGraded_append (ihi fun t ht => hs t (by simp [tokens, ht]))
      (ihn fun t ht => hs t (by simp [tokens, ht]))
  | unary operator h operand ih =>
    exact ⟨Nat.le_refl _, ih fun t ht => hs t (by simp [tokens, ht])⟩
  | ofCall c ih =>
    obtain ⟨hrank, hgraded⟩ := ih hs
    exact ⟨Nat.le_of_succ_le hrank, hgraded⟩
  | ofUnary u ih => exact fun _ => ih hs
  | looser level levels p ih =>
    intro hlevels
    obtain ⟨hrank, hgraded⟩ := ih hs ((List.suffix_cons level levels).trans hlevels)
    exact ⟨Nat.le_succ_of_le hrank, hgraded⟩
  | join level levels left operator h right ihl ihr =>
    intro hlevels
    have htight := Level.rank_add_length hlevels
    obtain ⟨hl, hleft⟩ := ihl (fun t ht => hs t (by simp [tokens, ht])) hlevels
    obtain ⟨hr, hright⟩ := ihr (fun t ht => hs t (by simp [tokens, ht]))
      ((List.suffix_cons level levels).trans hlevels)
    simp only [List.length_cons] at hl
    refine ⟨?_, Level.graded_node h ⟨by omega, hleft⟩ ⟨by omega, hright⟩⟩
    rw [tree, Level.rank_node h, List.length_cons]
    omega
  | plain p ih => exact (ih hs (List.suffix_refl _)).2
  | assign target equals value iht ihv =>
    have htarget := iht (fun t ht => hs t (by simp [tokens, ht])) (List.suffix_refl _)
    exact Expr.graded_assigned htarget.2 (ihv fun t ht => hs t (by simp [tokens, ht]))

/-- **The tree of an expression is well formed** over its tokens. -/
theorem wellFormed_tree (p : ExprPhrase .expression) (hmem : p.tokens ⊆ tokens)
    (hs : ∀ t ∈ tokens, Token.Spells t.kind t.lexeme.toList) : p.tree.WellFormed tokens :=
  ⟨p.whole_tree hmem, p.graded_tree fun t ht => hs t (hmem ht)⟩

end ExprPhrase

end LoxLang
