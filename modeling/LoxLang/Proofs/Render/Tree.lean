import LoxLang.Proofs.Grammar.Parts
import LoxLang.Proofs.Render.Form
import LoxLang.Proofs.Render.Source

set_option autoImplicit false

/-!
# Trees told by what is shown for them

What is shown for a tree in parentheses is the text of a form, and the tree is read back from that
form. So different trees are shown differently: nothing but the lines of the tokens is lost, as long
as no number is infinite.

## Main definitions

* `Expr.form`, `Stmt.form` — the form that a tree is shown in.
* `Form.expr`, `Form.slot` — the tree that a form shows.
* `Stmt.IsFinite` — no number in a statement is infinite.
* `Form.Shows`, `Form.ShowsSlot` — a tree is read back from a form.

## Main results

* `Expr.toList_tree`, `Stmt.toList_tree` — what is shown for a tree is the text of its form.
* `Literal.exists_spells` — a plain literal is written as a token that stands for it.
* `Expr.shows_form`, `Stmt.shows_form` — a tree is read back from its form.
* `Grammar.unplaced_eq_of_tree_eq` — what is shown for trees that were read tells them apart.
-/

namespace LoxLang

/-! ## Forms of trees -/

mutual

/-- The form that an expression is shown in. -/
def Expr.form : Expr → Form
  | .literal value => .word value.written
  | .grouping inner => .row [.word "group", inner.form]
  | .unary operator operand => .row [.word operator.lexeme, operand.form]
  | .binary left operator right => .row [.word operator.lexeme, left.form, right.form]
  | .logical left operator right => .row [.word operator.lexeme, left.form, right.form]
  | .variable name => .word name.lexeme
  | .assign name value => .row [.word "=", .word name.lexeme, value.form]
  | .call callee _ arguments => .row (.word "call" :: callee.form :: Expr.forms arguments)

/-- The forms that expressions are shown in. -/
def Expr.forms : List Expr → List Form
  | [] => []
  | e :: rest => e.form :: Expr.forms rest

end

mutual

/-- The form that a statement is shown in. -/
def Stmt.form : Stmt → Form
  | .expression value => .row [.word ";", value.form]
  | .print value => .row [.word "print", value.form]
  | .var name none => .row [.word "var", .word name.lexeme]
  | .var name (some initial) => .row [.word "var", .word name.lexeme, initial.form]
  | .block body => .row (.word "block" :: Stmt.slotForms body)
  | .branch condition whenTrue none => .row [.word "if", condition.form, whenTrue.form]
  | .branch condition whenTrue (some whenFalse) =>
    .row [.word "if", condition.form, whenTrue.form, whenFalse.form]
  | .loop condition body => .row [.word "while", condition.form, body.form]
  | .function name parameters body =>
    .row (.word "fun" :: .word name.lexeme :: .row ((parameters.map Token.lexeme).map .word) ::
      Stmt.slotForms body)
  | .return _ none => .row [.word "return"]
  | .return _ (some value) => .row [.word "return", value.form]

/-- The forms that slots are shown in. -/
def Stmt.slotForms : List (Option Stmt) → List Form
  | [] => []
  | none :: rest => .row [.word "error"] :: Stmt.slotForms rest
  | some statement :: rest => statement.form :: Stmt.slotForms rest

end

open Form (chars spaced)

mutual

/-- What is shown for an expression is the text of its form. -/
theorem Expr.toList_tree (e : Expr) : e.tree.toList = e.form.chars := by
  cases e with
  | literal | «variable» => rfl
  | grouping inner =>
    simp [Expr.tree, Expr.form, chars, spaced, Expr.toList_tree inner]
  | unary operator operand =>
    simp [Expr.tree, Expr.form, chars, spaced, Expr.toList_tree operand]
  | binary left operator right | logical left operator right =>
    simp [Expr.tree, Expr.form, chars, spaced, Expr.toList_tree left, Expr.toList_tree right]
  | assign name value =>
    simp [Expr.tree, Expr.form, chars, spaced, Expr.toList_tree value]
  | call callee paren arguments =>
    simp [Expr.tree, Expr.form, chars, spaced, Expr.toList_tree callee,
      Expr.toList_trees arguments]

/-- The same for expressions with a blank in front of each. -/
lemma Expr.toList_trees (es : List Expr) :
    (Expr.trees es).toList = spaced (Expr.forms es) := by
  cases es with
  | nil => rfl
  | cons e rest =>
    simp [Expr.trees, Expr.forms, spaced, Expr.toList_tree e, Expr.toList_trees rest]

end

mutual

/-- What is shown for a statement is the text of its form. -/
theorem Stmt.toList_tree (s : Stmt) : s.tree.toList = s.form.chars := by
  cases s with
  | expression value | print value =>
    simp [Stmt.tree, Stmt.form, chars, spaced, Expr.toList_tree value]
  | var name initial =>
    cases initial <;> simp [Stmt.tree, Stmt.form, chars, spaced, Expr.toList_tree]
  | block body =>
    simp [Stmt.tree, Stmt.form, chars, Stmt.toList_slotTrees body]
  | branch condition whenTrue whenFalse =>
    cases whenFalse with
    | none =>
      simp [Stmt.tree, Stmt.otherwiseTree, Stmt.form, chars, spaced, Expr.toList_tree condition,
        Stmt.toList_tree whenTrue]
    | some whenFalse =>
      simp [Stmt.tree, Stmt.otherwiseTree, Stmt.form, chars, spaced, Expr.toList_tree condition,
        Stmt.toList_tree whenTrue, Stmt.toList_tree whenFalse]
  | loop condition body =>
    simp [Stmt.tree, Stmt.form, chars, spaced, Expr.toList_tree condition, Stmt.toList_tree body]
  | function name parameters body =>
    simp [Stmt.tree, Stmt.form, chars, spaced, Form.chars_row_words, Stmt.toList_slotTrees body,
      -List.map_map]
  | «return» keyword value =>
    cases value <;> simp [Stmt.tree, Stmt.form, chars, spaced, Expr.toList_tree]

/-- The same for slots with a blank in front of each. -/
lemma Stmt.toList_slotTrees (slots : Slots) :
    (Stmt.slotTrees slots).toList = spaced (Stmt.slotForms slots) := by
  cases slots with
  | nil => rfl
  | cons slot rest =>
    cases slot with
    | none =>
      simp [Stmt.slotTrees, Stmt.slotTree, Stmt.slotForms, spaced, chars,
        Stmt.toList_slotTrees rest]
    | some s =>
      simp [Stmt.slotTrees, Stmt.slotTree, Stmt.slotForms, spaced, Stmt.toList_tree s,
        Stmt.toList_slotTrees rest]

end

/-! ## Reading words -/

/-- The token that a word is, without its line. -/
def Token.ofWord (text : String) : Token :=
  ((scan text).tokens.head?.map Token.unplaced).getD (Token.atEnd 0)

/-- A word is the token that it was written for. -/
lemma Token.ofWord_lexeme {t : Token} (h : Token.Spells t.kind t.lexeme.toList) :
    Token.ofWord t.lexeme = t.unplaced := by
  rw [Token.ofWord, (Scan.scan_spelled h).1]
  rfl

/-- A token of the kind of a mark is that mark. -/
lemma Token.unplaced_of_sign {t : Token} {kind : Kind} (h : Token.Spells t.kind t.lexeme.toList)
    (hk : t.kind = kind) (hsign : kind.spelling ≠ []) :
    t.unplaced = ⟨kind, String.ofList kind.spelling, 0⟩ := by
  subst hk
  rw [Token.unplaced, ← h.eq_spelling hsign, String.ofList_toList]

/-- A token of the kind of a reserved word is that word. -/
lemma Token.unplaced_of_keyword {t : Token} {word : String}
    (h : Token.Spells t.kind t.lexeme.toList) (hw : (word, t.kind) ∈ Kind.keywords) :
    t.unplaced = Token.ofWord word := by
  rw [← Token.ofWord_lexeme h, String.toList_inj.1 (h.eq_keyword hw)]

/-- **A plain literal is written as a token that stands for it**, if it is no infinite number. -/
theorem Literal.exists_spells {value : Literal} (hp : value.Plain) (hf : value.IsFinite) :
    ∃ kind, Token.Spells kind value.written.toList ∧
      (kind ≠ .leftParen ∧ kind ≠ .rightParen) ∧
      Token.constant? ⟨kind, value.written, 0⟩ = some value := by
  cases value with
  | nil => exact ⟨.nilWord, .of_keyword (by decide), by decide, rfl⟩
  | bool value =>
    cases value with
    | false => exact ⟨.falseWord, .of_keyword (by decide), by decide, rfl⟩
    | true => exact ⟨.trueWord, .of_keyword (by decide), by decide, rfl⟩
  | number x =>
    have hx : Binary64.ofMagnitude (Binary64.magnitude x) = x :=
      Binary64.ofMagnitude_magnitude hp.2
    obtain ⟨text, htext, hnumeral, hvalue⟩ := sourceNumber_ofMagnitude (Binary64.magnitude_lt hf)
    rw [hx] at htext
    have hnumber : Token.numberOf (sourceNumber x) = x := by
      rw [htext, Token.numberOf, String.toList_ofList, Decimal.toFloat, hvalue, hx]
    refine ⟨.number, ?_, by decide, ?_⟩
    · rw [Literal.written, htext, String.toList_ofList]
      exact .number hnumeral
    · exact congrArg (fun y => some (Literal.number y)) hnumber
  | string s =>
    have hlexeme : (Literal.string s).written.toList = '"' :: (s.toList ++ ['"']) := by
      simp [Literal.written]
    refine ⟨.string, hlexeme ▸ .string hp, by decide, ?_⟩
    show some (Literal.string (Token.textOf (Literal.string s).written)) = _
    rw [Token.textOf, hlexeme]
    simp

/-! ## Reading forms -/

/-- The expression that a word stands for by itself. -/
def Expr.ofWord (text : String) : Expr :=
  match (Token.ofWord text).constant? with
  | some value => .literal value
  | none => .variable (Token.ofWord text)

/-- The expression that a word in front of others stands for. -/
def Expr.ofRow (head : String) (parts : List Expr) : Expr :=
  match head, parts with
  | "group", [inner] => .grouping inner
  | "call", callee :: arguments => .call callee ⟨.rightParen, ")", 0⟩ arguments
  | "=", [.variable name, value] => .assign name value
  | "or", [left, right] => .logical left (Token.ofWord "or") right
  | "and", [left, right] => .logical left (Token.ofWord "and") right
  | _, [operand] => .unary (Token.ofWord head) operand
  | _, [left, right] => .binary left (Token.ofWord head) right
  | _, _ => default

mutual

/-- The expression that a form shows. -/
def Form.expr : Form → Expr
  | .row (.word head :: parts) => Expr.ofRow head (Form.exprs parts)
  | .row _ => default
  | .word text => Expr.ofWord text

/-- The expressions that forms show. -/
def Form.exprs : List Form → List Expr
  | [] => []
  | f :: rest => f.expr :: Form.exprs rest

end

/-- The name that a form shows. -/
def Form.name : Form → Token
  | .word text => Token.ofWord text
  | .row _ => default

/-- What a word in front of forms stands for, of which some may show statements. -/
def Stmt.ofRow (head : String) (parts : List Form) (slots : Slots) : Option Stmt :=
  match head, parts, slots with
  | ";", [value], _ => some (.expression value.expr)
  | "print", [value], _ => some (.print value.expr)
  | "var", [name], _ => some (.var name.name none)
  | "var", [name, initial], _ => some (.var name.name (some initial.expr))
  | "block", _, body => some (.block body)
  | "if", [condition, _], [_, some whenTrue] =>
    some (.branch condition.expr whenTrue none)
  | "if", [condition, _, _], [_, some whenTrue, some whenFalse] =>
    some (.branch condition.expr whenTrue (some whenFalse))
  | "while", [condition, _], [_, some body] => some (.loop condition.expr body)
  | "fun", name :: .row parameters :: _, _ :: _ :: body =>
    some (.function name.name (parameters.map Form.name) body)
  | "return", [], _ => some (.return (Token.ofWord "return") none)
  | "return", [value], _ => some (.return (Token.ofWord "return") (some value.expr))
  | _, _, _ => none

mutual

/-- The statement that a form shows, if it shows one. -/
def Form.slot : Form → Option Stmt
  | .row (.word head :: parts) => Stmt.ofRow head parts (Form.slots parts)
  | _ => none

/-- The slots that forms show. -/
def Form.slots : List Form → Slots
  | [] => []
  | f :: rest => f.slot :: Form.slots rest

end

/-! ## Trees read back from their forms -/

variable {tokens : List Token} {t : Token}

namespace Form

/-- A word that is no operator is spelled. -/
lemma spelled_word {text : String} (hstart : text.toList.head?.any Piece.startsWord = true)
    (hbody : text.toList.tail.all Piece.continuesWord = true) : (word text).Spelled := by
  have hsign := Token.Kind.spelling_ofWord text
  refine ⟨_, .of_word hstart hbody, ?_, ?_⟩
  all_goals
    intro hk
    rw [hk] at hsign
    contradiction

/-- What is written for a token is spelled if the token is no parenthesis. -/
lemma spelled_lexeme {kinds : List Token.Kind} (ht : t.Among tokens kinds)
    (hs : Token.Spells t.kind t.lexeme.toList)
    (hk : .leftParen ∉ kinds ∧ .rightParen ∉ kinds) : (word t.lexeme).Spelled :=
  ⟨t.kind, hs, fun h => hk.1 (h ▸ ht.2), fun h => hk.2 (h ▸ ht.2)⟩

/-- A name is a word that is read as itself. -/
lemma expr_name (hs : Token.Spells t.kind t.lexeme.toList) (hk : t.kind ∈ [.identifier]) :
    (word t.lexeme).expr = .variable t.unplaced := by
  have hnone : t.unplaced.constant? = none := by
    simp [List.mem_singleton.1 hk, Token.constant?, Token.literal?, Token.unplaced]
  rw [expr, Expr.ofWord, Token.ofWord_lexeme hs, hnone]

end Form

namespace Expr

variable (hs : Token.Spells t.kind t.lexeme.toList)
include hs

/-- An operator in front of one expression is read as itself. -/
lemma ofRow_unary (hk : t.kind ∈ [Token.Kind.bang, .minus]) (operand : Expr) :
    ofRow t.lexeme [operand] = .unary t.unplaced operand := by
  rw [← Token.ofWord_lexeme hs]
  have hlexeme : t.lexeme = "!" ∨ t.lexeme = "-" := by
    simp only [List.mem_cons, List.not_mem_nil, or_false] at hk
    rcases hk with hk | hk
    all_goals
      rw [hk] at hs
      have := hs.eq_spelling (by decide)
      simp [← String.toList_inj, this, Token.Kind.spelling]
  rcases hlexeme with h | h <;> rw [h] <;> rfl

/-- An operator in front of two expressions is read as itself. -/
lemma ofRow_binary (hk : t.kind ∈ Token.Kind.binary) (left right : Expr) :
    ofRow t.lexeme [left, right] = .binary left t.unplaced right := by
  rw [← Token.ofWord_lexeme hs]
  have hlexeme : t.lexeme ∈ ["==", "!=", "+", "-", "*", "/", ">", ">=", "<", "<="] := by
    simp only [Token.Kind.binary, Token.Kind.arithmetic, List.mem_cons, List.not_mem_nil,
      or_false] at hk
    rcases hk with hk | hk | hk | hk | hk | hk | hk | hk | hk | hk
    all_goals
      rw [hk] at hs
      have := hs.eq_spelling (by decide)
      simp [← String.toList_inj, this, Token.Kind.spelling]
  simp only [List.mem_cons, List.not_mem_nil, or_false] at hlexeme
  rcases hlexeme with h | h | h | h | h | h | h | h | h | h <;> rw [h] <;> rfl

/-- A word between conditions is read as itself. -/
lemma ofRow_logical (hk : t.kind ∈ [Token.Kind.orWord, .andWord]) (left right : Expr) :
    ofRow t.lexeme [left, right] = .logical left t.unplaced right := by
  rw [← Token.ofWord_lexeme hs]
  have hlexeme : t.lexeme = "or" ∨ t.lexeme = "and" := by
    simp only [List.mem_cons, List.not_mem_nil, or_false] at hk
    rcases hk with hk | hk
    all_goals rw [hk] at hs
    · exact .inl (String.toList_inj.1 (hs.eq_keyword (by decide)))
    · exact .inr (String.toList_inj.1 (hs.eq_keyword (by decide)))
  rcases hlexeme with h | h <;> rw [h] <;> rfl

end Expr

/-- A form shows an expression: its words are spelled, and the expression is read from it. -/
structure Form.Shows (f : Form) (e : Expr) : Prop where
  spelled : f.Spelled
  expr_eq : f.expr = e.mapTokens Token.unplaced

/-- The same for forms and expressions in a row. -/
structure Form.ShowAll (fs : List Form) (es : List Expr) : Prop where
  spelled : Form.AllSpelled fs
  exprs_eq : Form.exprs fs = Expr.mapTokensAll Token.unplaced es

mutual

/-- **An expression is read back from its form.** -/
theorem Expr.shows_form (hs : ∀ t ∈ tokens, Token.Spells t.kind t.lexeme.toList) {e : Expr}
    (hw : e.Whole tokens) (hg : e.Graded) (hf : e.IsFinite) : e.form.Shows e := by
  cases e with
  | literal value =>
    obtain ⟨kind, hspells, hparen, hvalue⟩ := Literal.exists_spells hg hf
    refine ⟨⟨kind, hspells, hparen⟩, ?_⟩
    have hword : Token.ofWord value.written = ⟨kind, value.written, 0⟩ :=
      Token.ofWord_lexeme (t := ⟨kind, value.written, 0⟩) hspells
    rw [Expr.form, Form.expr, Expr.ofWord, hword, hvalue]
    rfl
  | grouping inner =>
    obtain ⟨hinner, hread⟩ := Expr.shows_form hs (e := inner) hw hg hf
    refine ⟨⟨Form.spelled_word (by decide) (by decide), hinner, trivial⟩, ?_⟩
    simp only [Expr.form, Form.expr, Form.exprs, hread]
    rfl
  | unary operator operand =>
    obtain ⟨hoperator, hw⟩ := hw
    have hspells := hs operator hoperator.1
    obtain ⟨hoperand, hread⟩ := Expr.shows_form hs hw hg.2 hf
    refine ⟨⟨Form.spelled_lexeme hoperator hspells (by decide), hoperand, trivial⟩, ?_⟩
    simp only [Expr.form, Form.expr, Form.exprs, hread]
    exact Expr.ofRow_unary hspells hoperator.2 _
  | binary left operator right =>
    obtain ⟨hl, hoperator, hr⟩ := hw
    have hspells := hs operator hoperator.1
    obtain ⟨hleft, hreadl⟩ := Expr.shows_form hs hl hg.1.2 hf.1
    obtain ⟨hright, hreadr⟩ := Expr.shows_form hs hr hg.2.2 hf.2
    refine ⟨⟨Form.spelled_lexeme hoperator hspells (by decide), hleft, hright, trivial⟩, ?_⟩
    simp only [Expr.form, Form.expr, Form.exprs, hreadl, hreadr]
    exact Expr.ofRow_binary hspells hoperator.2 _ _
  | logical left operator right =>
    obtain ⟨hl, hoperator, hr⟩ := hw
    have hspells := hs operator hoperator.1
    obtain ⟨hleft, hreadl⟩ := Expr.shows_form hs hl hg.1.2 hf.1
    obtain ⟨hright, hreadr⟩ := Expr.shows_form hs hr hg.2.2 hf.2
    refine ⟨⟨Form.spelled_lexeme hoperator hspells (by decide), hleft, hright, trivial⟩, ?_⟩
    simp only [Expr.form, Form.expr, Form.exprs, hreadl, hreadr]
    exact Expr.ofRow_logical hspells hoperator.2 _ _
  | «variable» name =>
    have hname : name.Among tokens [.identifier] := hw
    have hspells := hs name hname.1
    exact ⟨Form.spelled_lexeme hname hspells (by decide), Form.expr_name hspells hname.2⟩
  | assign name value =>
    obtain ⟨hname, hw⟩ := hw
    have hspells := hs name hname.1
    have hread := Form.expr_name hspells hname.2
    obtain ⟨hvalue, hreadv⟩ := Expr.shows_form hs hw hg hf
    have hequal : Token.Spells .equal Token.Kind.equal.spelling := .sign (by decide)
    refine ⟨⟨⟨.equal, hequal, by decide⟩,
      Form.spelled_lexeme hname hspells (by decide), hvalue, trivial⟩, ?_⟩
    rw [Expr.form, Form.expr, Form.exprs, Form.exprs, Form.exprs, hread, hreadv]
    rfl
  | call callee paren arguments =>
    obtain ⟨hc, hparen, ha⟩ := hw
    obtain ⟨hcallee, hread⟩ := Expr.shows_form hs hc hg.1.2 hf.1
    obtain ⟨hall, hreadall⟩ := Expr.showAll_forms hs ha hg.2 hf.2
    refine ⟨⟨Form.spelled_word (by decide) (by decide), hcallee, hall⟩, ?_⟩
    have hclosing : paren.unplaced = ⟨.rightParen, ")", 0⟩ :=
      Token.unplaced_of_sign (hs paren hparen.1) (List.mem_singleton.1 hparen.2) (by decide)
    simp only [Expr.form, Form.expr, Form.exprs, hread, hreadall, Expr.mapTokens, hclosing]
    rfl

/-- The same for expressions in a row. -/
lemma Expr.showAll_forms (hs : ∀ t ∈ tokens, Token.Spells t.kind t.lexeme.toList)
    {es : List Expr} (hw : Expr.AllWhole tokens es) (hg : Expr.AllGraded es)
    (hf : Expr.AllFinite es) : Form.ShowAll (Expr.forms es) es := by
  cases es with
  | nil => exact ⟨trivial, rfl⟩
  | cons e rest =>
    obtain ⟨he, hread⟩ := Expr.shows_form hs hw.1 hg.1 hf.1
    obtain ⟨hrest, hreadall⟩ := Expr.showAll_forms hs hw.2 hg.2 hf.2
    refine ⟨⟨he, hrest⟩, ?_⟩
    rw [Expr.forms, Form.exprs, hread, hreadall, Expr.mapTokensAll]

end

/-! ## Statements read back from their forms -/

mutual

/-- No number in a statement is infinite. -/
def Stmt.IsFinite : Stmt → Prop
  | .expression value | .print value => value.IsFinite
  | .var _ initial => ∀ value ∈ initial, value.IsFinite
  | .block body => Stmt.AllFinite body
  | .branch condition whenTrue none => condition.IsFinite ∧ whenTrue.IsFinite
  | .branch condition whenTrue (some whenFalse) =>
    condition.IsFinite ∧ whenTrue.IsFinite ∧ whenFalse.IsFinite
  | .loop condition body => condition.IsFinite ∧ body.IsFinite
  | .function _ _ body => Stmt.AllFinite body
  | .return _ value => ∀ e ∈ value, e.IsFinite

/-- No number in any of some slots is infinite. -/
def Stmt.AllFinite : List (Option Stmt) → Prop
  | [] => True
  | none :: rest => Stmt.AllFinite rest
  | some statement :: rest => statement.IsFinite ∧ Stmt.AllFinite rest

end

/-- A form shows a slot: its words are spelled, and what is in the slot is read from it. -/
structure Form.ShowsSlot (f : Form) (slot : Option Stmt) : Prop where
  spelled : f.Spelled
  slot_eq : f.slot = Stmt.mapSlot Token.unplaced slot

/-- The same for forms and slots in a row. -/
structure Form.ShowSlots (fs : List Form) (slots : Slots) : Prop where
  spelled : Form.AllSpelled fs
  slots_eq : Form.slots fs = Stmt.mapSlots Token.unplaced slots

/-- Names in a row are read back from their form. -/
lemma Form.names_row (hs : ∀ t ∈ tokens, Token.Spells t.kind t.lexeme.toList)
    {names : List Token} (hn : ∀ p ∈ names, p.Among tokens [.identifier]) :
    Form.AllSpelled ((names.map Token.lexeme).map .word) ∧
      ((names.map Token.lexeme).map .word).map Form.name = names.map Token.unplaced := by
  induction names with
  | nil => exact ⟨trivial, rfl⟩
  | cons p rest ih =>
    obtain ⟨hp, hrest⟩ := List.forall_mem_cons.1 hn
    obtain ⟨hspelled, hread⟩ := ih hrest
    have hspells := hs p hp.1
    refine ⟨⟨Form.spelled_lexeme hp hspells (by decide), hspelled⟩, ?_⟩
    rw [List.map_cons, List.map_cons, List.map_cons, hread, Form.name,
      Token.ofWord_lexeme hspells, List.map_cons]

mutual

/-- **A statement is read back from its form.** -/
theorem Stmt.shows_form (hs : ∀ t ∈ tokens, Token.Spells t.kind t.lexeme.toList) {s : Stmt}
    (hw : s.Formed tokens (Expr.WellFormed tokens)) (hf : s.IsFinite) :
    s.form.ShowsSlot (some s) := by
  have hexpr : ∀ e : Expr, e.WellFormed tokens → e.IsFinite → e.form.Shows e :=
    fun e he hf => Expr.shows_form hs he.whole he.graded hf
  cases s with
  | expression value =>
    obtain ⟨hvalue, hread⟩ := hexpr value hw hf
    have hend : Token.Spells .semicolon Token.Kind.semicolon.spelling := .sign (by decide)
    refine ⟨⟨⟨.semicolon, hend, by decide⟩, hvalue, trivial⟩, ?_⟩
    simp only [Stmt.form, Form.slot, Stmt.ofRow, hread]
    rfl
  | print value =>
    obtain ⟨hvalue, hread⟩ := hexpr value hw hf
    refine ⟨⟨Form.spelled_word (by decide) (by decide), hvalue, trivial⟩, ?_⟩
    simp only [Stmt.form, Form.slot, Stmt.ofRow, hread]
    rfl
  | var name initial =>
    obtain ⟨hname, hinitial⟩ := hw
    have hspells := hs name hname.1
    have hspelled := Form.spelled_lexeme hname hspells (by decide)
    cases initial with
    | none =>
      refine ⟨⟨Form.spelled_word (by decide) (by decide), hspelled, trivial⟩, ?_⟩
      simp only [Stmt.form, Form.slot, Stmt.ofRow, Form.name, Token.ofWord_lexeme hspells]
      rfl
    | some initial =>
      obtain ⟨hvalue, hread⟩ := hexpr initial (hinitial initial rfl) (hf initial rfl)
      refine ⟨⟨Form.spelled_word (by decide) (by decide), hspelled, hvalue, trivial⟩, ?_⟩
      simp only [Stmt.form, Form.slot, Stmt.ofRow, Form.name, Token.ofWord_lexeme hspells, hread]
      rfl
  | block body =>
    have hbody : Stmt.AllFormed tokens (Expr.WellFormed tokens) body := hw
    obtain ⟨hslots, hread⟩ := Stmt.showSlots_forms hs hbody hf
    refine ⟨⟨Form.spelled_word (by decide) (by decide), hslots⟩, ?_⟩
    simp only [Stmt.form, Form.slot, Stmt.ofRow, hread]
    rfl
  | branch condition whenTrue whenFalse =>
    cases whenFalse with
    | none =>
      obtain ⟨hc, -, ht⟩ := hw
      obtain ⟨hcondition, hreadc⟩ := hexpr condition hc hf.1
      obtain ⟨htrue, hreadt⟩ := Stmt.shows_form hs ht hf.2
      refine ⟨⟨Form.spelled_word (by decide) (by decide), hcondition, htrue, trivial⟩, ?_⟩
      simp only [Stmt.form, Form.slot, Form.slots, Stmt.mapSlot] at hreadt ⊢
      simp only [hreadt, Stmt.ofRow, hreadc]
      rfl
    | some whenFalse =>
      obtain ⟨hc, ⟨-, ht⟩, -, hw⟩ := hw
      obtain ⟨hcondition, hreadc⟩ := hexpr condition hc hf.1
      obtain ⟨htrue, hreadt⟩ := Stmt.shows_form hs ht hf.2.1
      obtain ⟨hfalse, hreadf⟩ := Stmt.shows_form hs hw hf.2.2
      refine ⟨⟨Form.spelled_word (by decide) (by decide), hcondition, htrue, hfalse, trivial⟩, ?_⟩
      simp only [Stmt.form, Form.slot, Form.slots, Stmt.mapSlot] at hreadt hreadf ⊢
      simp only [hreadt, hreadf, Stmt.ofRow, hreadc]
      rfl
  | loop condition body =>
    obtain ⟨hc, -, hb⟩ := hw
    obtain ⟨hcondition, hreadc⟩ := hexpr condition hc hf.1
    obtain ⟨hbody, hreadb⟩ := Stmt.shows_form hs hb hf.2
    refine ⟨⟨Form.spelled_word (by decide) (by decide), hcondition, hbody, trivial⟩, ?_⟩
    simp only [Stmt.form, Form.slot, Form.slots, Stmt.mapSlot] at hreadb ⊢
    simp only [hreadb, Stmt.ofRow, hreadc]
    rfl
  | function name parameters body =>
    obtain ⟨hname, hparameters, hb⟩ := hw
    have hspells := hs name hname.1
    obtain ⟨hnames, hreadn⟩ := Form.names_row hs hparameters
    obtain ⟨hslots, hread⟩ := Stmt.showSlots_forms hs hb hf
    refine ⟨⟨Form.spelled_word (by decide) (by decide),
      Form.spelled_lexeme hname hspells (by decide), hnames, hslots⟩, ?_⟩
    simp only [Stmt.form, Form.slot, Form.slots, Stmt.ofRow, Form.name,
      Token.ofWord_lexeme hspells, hreadn, hread]
    rfl
  | «return» keyword value =>
    obtain ⟨hkeyword, hvalue⟩ := hw
    have hword : keyword.unplaced = Token.ofWord "return" :=
      Token.unplaced_of_keyword (hs keyword hkeyword.1)
        (by rw [List.mem_singleton.1 hkeyword.2]; decide)
    cases value with
    | none =>
      refine ⟨⟨Form.spelled_word (by decide) (by decide), trivial⟩, ?_⟩
      simp only [Stmt.form, Form.slot, Stmt.ofRow, Stmt.mapSlot, Stmt.mapTokens, hword]
      rfl
    | some value =>
      obtain ⟨hvalue, hread⟩ := hexpr value (hvalue value rfl) (hf value rfl)
      refine ⟨⟨Form.spelled_word (by decide) (by decide), hvalue, trivial⟩, ?_⟩
      simp only [Stmt.form, Form.slot, Stmt.ofRow, Stmt.mapSlot, Stmt.mapTokens, hword, hread]
      rfl

/-- The same for slots, of which the empty ones are shown as errors. -/
lemma Stmt.showSlots_forms (hs : ∀ t ∈ tokens, Token.Spells t.kind t.lexeme.toList)
    {slots : Slots} (hw : Stmt.AllFormed tokens (Expr.WellFormed tokens) slots)
    (hf : Stmt.AllFinite slots) : Form.ShowSlots (Stmt.slotForms slots) slots := by
  cases slots with
  | nil => exact ⟨trivial, rfl⟩
  | cons slot rest =>
    cases slot with
    | none =>
      have hrest : Stmt.AllFormed tokens (Expr.WellFormed tokens) rest := hw
      obtain ⟨hspelled, hread⟩ := Stmt.showSlots_forms hs hrest hf
      refine ⟨⟨⟨Form.spelled_word (by decide) (by decide), trivial⟩, hspelled⟩, ?_⟩
      rw [Stmt.slotForms, Form.slots, hread]
      rfl
    | some s =>
      obtain ⟨hspelled, hread⟩ := Stmt.shows_form hs hw.1 hf.1
      obtain ⟨hrest, hreadall⟩ := Stmt.showSlots_forms hs hw.2 hf.2
      refine ⟨⟨hspelled, hrest⟩, ?_⟩
      rw [Stmt.slotForms, Form.slots, hread, hreadall, Stmt.mapSlots]

end

/-! ## Trees with the same text -/

/-- **An expression is told by what is shown for it**, up to the lines of its tokens, if it is well
formed over tokens that are written as their kinds ask for. -/
theorem Expr.unplaced_eq_of_shown_eq {tokens tokens' : List Token} {e e' : Expr}
    (hs : ∀ t ∈ tokens, Token.Spells t.kind t.lexeme.toList)
    (hs' : ∀ t ∈ tokens', Token.Spells t.kind t.lexeme.toList) (hw : e.WellFormed tokens)
    (hw' : e'.WellFormed tokens') (hf : e.IsFinite) (hf' : e'.IsFinite) (h : e.tree = e'.tree) :
    e.mapTokens Token.unplaced = e'.mapTokens Token.unplaced := by
  have hshows := Expr.shows_form hs hw.whole hw.graded hf
  have hshows' := Expr.shows_form hs' hw'.whole hw'.graded hf'
  have hchars : e.form.chars = e'.form.chars := by
    rw [← Expr.toList_tree, ← Expr.toList_tree, h]
  have hform : e.form = e'.form := Form.chars_inj hshows.spelled hshows'.spelled hchars
  rw [← hshows.expr_eq, hform, hshows'.expr_eq]

/-- **What is in a slot is told by what is shown for it**, up to the lines of its tokens, if it is
well formed over tokens that are written as their kinds ask for. -/
theorem Stmt.unplaced_eq_of_slot_shown_eq {tokens tokens' : List Token} {slot slot' : Option Stmt}
    (hs : ∀ t ∈ tokens, Token.Spells t.kind t.lexeme.toList)
    (hs' : ∀ t ∈ tokens', Token.Spells t.kind t.lexeme.toList)
    (hw : Stmt.AllWellFormed tokens [slot]) (hw' : Stmt.AllWellFormed tokens' [slot'])
    (hf : Stmt.AllFinite [slot]) (hf' : Stmt.AllFinite [slot'])
    (h : Stmt.slotTree slot = Stmt.slotTree slot') :
    Stmt.mapSlot Token.unplaced slot = Stmt.mapSlot Token.unplaced slot' := by
  have hshows := Stmt.showSlots_forms hs hw hf
  have hshows' := Stmt.showSlots_forms hs' hw' hf'
  have hspaced : Form.spaced (Stmt.slotForms [slot]) ++ [')'] =
      Form.spaced (Stmt.slotForms [slot']) ++ [')'] := by
    simp only [← Stmt.toList_slotTrees, Stmt.slotTrees, h]
  have hforms : Stmt.slotForms [slot] = Stmt.slotForms [slot'] :=
    (Form.spaced_append_inj hshows.spelled hshows'.spelled hspaced).1
  have hslots := hshows.slots_eq.symm.trans (hforms ▸ hshows'.slots_eq)
  exact (List.cons.inj hslots).1

/-- **What is shown tells trees apart.** Two statements, at any places of the programs that are read
from two sources, with or without faults, are equal up to the lines of their tokens if the same text
is shown for them and no number in them is infinite; and what is shown for a slot that could not be
read is shown for no statement. The same holds for two expressions.

**Proof sketch.** What is shown for a tree is the text of a form. A text in parentheses is the text
of one form only, since its words end where scanning them ends. The tree is read back from its form,
since no two constructions share both their first word and their number of parts; the words
themselves are read back by scanning them, and a number by rounding what was written for it. -/
theorem Grammar.unplaced_eq_of_tree_eq (source source' : String) :
    (∀ s s' : Stmt, s.ReadFrom source → s'.ReadFrom source' → s.IsFinite → s'.IsFinite →
      s.tree = s'.tree → s.mapTokens Token.unplaced = s'.mapTokens Token.unplaced) ∧
    (∀ s : Stmt, s.ReadFrom source → s.IsFinite → s.tree ≠ Stmt.slotTree none) ∧
    ∀ e e' : Expr, e.ReadFrom source → e'.ReadFrom source' → e.IsFinite → e'.IsFinite →
      e.tree = e'.tree → e.mapTokens Token.unplaced = e'.mapTokens Token.unplaced := by
  have hspells : ∀ source, ∀ t ∈ (scan source).tokens, Token.Spells t.kind t.lexeme.toList :=
    fun _ t ht => Scan.spells_of_mem_tokensFrom ht
  refine ⟨fun s s' hs hs' hf hf' h => ?_, fun s hs hf h => ?_, fun e e' he he' hf hf' h => ?_⟩
  · have hslot : Stmt.slotTree (some s) = Stmt.slotTree (some s') := h
    have hmap : Stmt.mapSlot Token.unplaced (some s) = Stmt.mapSlot Token.unplaced (some s') :=
      Stmt.unplaced_eq_of_slot_shown_eq (hspells source) (hspells source') ⟨hs.formed, trivial⟩
        ⟨hs'.formed, trivial⟩ ⟨hf, trivial⟩ ⟨hf', trivial⟩ hslot
    exact Option.some.inj hmap
  · have hslot : Stmt.slotTree (some s) = Stmt.slotTree none := h
    have hmap : Stmt.mapSlot Token.unplaced (some s) = Stmt.mapSlot Token.unplaced none :=
      Stmt.unplaced_eq_of_slot_shown_eq (hspells source) (hspells source) ⟨hs.formed, trivial⟩
        trivial ⟨hf, trivial⟩ trivial hslot
    simp [Stmt.mapSlot] at hmap
  · exact Expr.unplaced_eq_of_shown_eq (hspells source) (hspells source') he.wellFormed
      he'.wellFormed hf hf' h

/-- A call on two lines, and the same call with its number written differently and behind a
statement that cannot be read, are equal up to the lines of their tokens, since the same text is
shown for both. -/
theorem Grammar.unplaced_eq_of_tree_eq_call :
    let source := "f(\"a (b\",\n-1);"
    let source' := "print;\nf(\"a (b\",\n-1.0);"
    let call (line : Nat) (number : String) : Stmt := .expression (.call
      (.variable ⟨.identifier, "f", line⟩) ⟨.rightParen, ")", line + 1⟩
      [.literal (.string "a (b"),
        .unary ⟨.minus, "-", line + 1⟩ (.literal (.number (Token.numberOf number)))])
    (call 1 "1").ReadFrom source ∧ (call 2 "1.0").ReadFrom source' ∧
      (call 1 "1").tree = (call 2 "1.0").tree ∧
      (call 1 "1").mapTokens Token.unplaced = (call 2 "1.0").mapTokens Token.unplaced := by
  intro source source' call
  have hread : parse 9 (scan source).tokens = .done [some (call 1 "1")] [] := by
    have htokens : (scan source).tokens =
        [⟨.identifier, "f", 1⟩, ⟨.leftParen, "(", 1⟩, ⟨.string, "\"a (b\"", 1⟩, ⟨.comma, ",", 1⟩,
          ⟨.minus, "-", 2⟩, ⟨.number, "1", 2⟩, ⟨.rightParen, ")", 2⟩, ⟨.semicolon, ";", 2⟩] := by
      decide +kernel
    rw [htokens]
    with_unfolding_all rfl
  have hread' : parse 9 (scan source').tokens = .done [none, some (call 2 "1.0")]
      [⟨.expected .expression, some ⟨.semicolon, ";", 1⟩⟩] := by
    have htokens : (scan source').tokens =
        [⟨.printWord, "print", 1⟩, ⟨.semicolon, ";", 1⟩, ⟨.identifier, "f", 2⟩,
          ⟨.leftParen, "(", 2⟩, ⟨.string, "\"a (b\"", 2⟩, ⟨.comma, ",", 2⟩, ⟨.minus, "-", 3⟩,
          ⟨.number, "1.0", 3⟩, ⟨.rightParen, ")", 3⟩, ⟨.semicolon, ";", 3⟩] := by
      decide +kernel
    rw [htokens]
    with_unfolding_all rfl
  have hcall : (call 1 "1").ReadFrom source := ⟨9, _, _, hread, .member .program⟩
  have hcall' : (call 2 "1.0").ReadFrom source' := ⟨9, _, _, hread', .member (.later .program)⟩
  have hnumber : Token.numberOf "1.0" = Token.numberOf "1" := by decide +kernel
  have hfinite : (Token.numberOf "1").isFinite = true := by decide +kernel
  have hf : (call 1 "1").IsFinite := ⟨trivial, trivial, hfinite, trivial⟩
  have hfinite' : (Token.numberOf "1.0").isFinite = true := by rw [hnumber, hfinite]
  have hf' : (call 2 "1.0").IsFinite := ⟨trivial, trivial, hfinite', trivial⟩
  have htree : (call 1 "1").tree = (call 2 "1.0").tree := by
    simp only [call, hnumber]
    rfl
  exact ⟨hcall, hcall', htree,
    (unplaced_eq_of_tree_eq source source').1 _ _ hcall hcall' hf hf' htree⟩

end LoxLang
