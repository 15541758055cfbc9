import Mathlib.Logic.Equiv.Basic
import LoxLang.Piece
import LoxLang.Proofs.Evaluation.Retoken

set_option autoImplicit false

/-!
# Names carry no meaning

Identifiers may be exchanged for others throughout a program, as long as different ones stay different
and native functions keep theirs. The program then runs as before; only where a name is shown, for a
function that is printed or a variable that is missing, it is the new one.

## Main definitions

* `Token.isIdentifier` — words that may be names.
* `Renaming` — new identifiers for the old ones.
* `Renaming.swap` — two identifiers in each other's place.

## Main results

* `Renaming.interpret_fresh` — a renamed program on a fresh machine.
-/

namespace LoxLang

/-- Whether a word may be a name: it is written like one and is no reserved word. -/
def Token.isIdentifier (word : String) : Bool :=
  match word.toList with
  | [] => false
  | c :: body =>
    Piece.startsWord c && body.all Piece.continuesWord && Kind.ofWord word == .identifier

/-- New identifiers for the old ones. Different ones stay different, those of native functions stay as
they are, and so does what is no identifier. -/
structure Renaming where
  word : String → String
  identifier : ∀ v, Token.isIdentifier v = true → Token.isIdentifier (word v) = true
  injective : ∀ v w, Token.isIdentifier v = true → Token.isIdentifier w = true →
    word v = word w → v = w
  native : ∀ f : Native, word f.name = f.name
  other : ∀ v, Token.isIdentifier v = false → word v = v

namespace Renaming

variable (r : Renaming)

/-- A name with a new identifier. -/
def name (t : Token) : Token := { t with lexeme := r.word t.lexeme }

/-- Different words stay different, identifiers or not. -/
lemma eq_of_word_eq {v w : String} (h : r.word v = r.word w) : v = w := by
  cases hv : Token.isIdentifier v with
  | true =>
    cases hw : Token.isIdentifier w with
    | true => exact r.injective v w hv hw h
    | false =>
      have hnew := r.identifier v hv
      rw [h, r.other w hw, hw] at hnew
      contradiction
  | false =>
    cases hw : Token.isIdentifier w with
    | true =>
      have hnew := r.identifier w hw
      rw [← h, r.other v hv, hv] at hnew
      contradiction
    | false => rwa [r.other v hv, r.other w hw] at h

/-- A renaming as a change of names that leaves marks alone. -/
def retokening : Retokening where
  name := r.name
  mark := id
  word := r.word
  lexeme_name _ := rfl
  kind_mark := Retokening.refl.kind_mark
  lexeme_mark := Retokening.refl.lexeme_mark
  injective := r.eq_of_word_eq

/-- Two identifiers in each other's place. -/
def swap (v w : String) (hv : Token.isIdentifier v = true) (hw : Token.isIdentifier w = true)
    (hnative : ∀ f : Native, f.name ≠ v ∧ f.name ≠ w) : Renaming where
  word := Equiv.swap v w
  identifier u hu := by
    rw [Equiv.swap_apply_def]
    split
    · exact hw
    · split
      · exact hv
      · exact hu
  injective _ _ _ _ h := (Equiv.swap v w).injective h
  native f := Equiv.swap_apply_of_ne_of_ne (hnative f).1 (hnative f).2
  other u hu := by
    refine Equiv.swap_apply_of_ne_of_ne ?_ ?_
    · rintro rfl
      rw [hv] at hu
      contradiction
    · rintro rfl
      rw [hw] at hu
      contradiction

/-- A machine that has run nothing yet has no name that could change. -/
lemma retoken_initial (clock : Clock) :
    (Machine.initial clock).retoken r.retokening #[] = Machine.initial clock := by
  have hstore : (Machine.initial clock).store.retoken r.retokening = (Machine.initial clock).store := by
    have hempty : Store.initial.retoken r.retokening = Store.initial := by
      simp [Store.initial, Store.retoken, Scope.retoken]
    refine Machine.store_initial_induction (P := fun s => s.retoken r.retokening = s) hempty
      (fun s f hs => ?_) clock
    have hdefine := Store.define_retoken r.retokening s f.name Store.root (.native f)
    have hname : r.retokening.word f.name = f.name := r.native f
    rw [← hdefine, hs, hname]
    rfl
  simp only [Machine.retoken, hstore]
  rfl

end Renaming

/-- **Names carry no meaning.** A program runs on a fresh machine, and so does the same program with
its names changed. Both print the same values in the same order, and these show as before but for the
names of functions. Both end in the same way; if with a fault, then with the same one on the same line
but for the name of a missing variable. Both bind the same values at the root, under their names.

**Proof sketch.** Evaluation compares names only with each other, and different ones stay different. A
fresh machine binds native functions alone, which keep their names. -/
theorem Renaming.interpret_fresh (r : Renaming) (limits : Limits) (clock : Clock) (program : Slots) :
    let m := Machine.initial clock
    let plain := m.interpret limits program
    let renamed := m.interpret limits (Stmt.retokenSlots r.name id program)
    let printed := m.printed limits program
    plain.1.output = (printed.map Value.display).toArray ∧
      renamed.1.output = (printed.map fun v => (v.retoken r.retokening).display).toArray ∧
      renamed.2 = plain.2.retoken r.retokening ∧
      renamed.1.globals = plain.1.globals.map fun b => (r.word b.1, b.2.retoken r.retokening) := by
  intro m plain renamed printed
  have hplain : plain.1.output = (printed.map Value.display).toArray := by
    rw [Machine.output_interpret]
    exact Array.empty_append
  have hrun : renamed = (plain.1.retoken r.retokening (#[] ++ r.retokening.shown printed),
      plain.2.retoken r.retokening) := by
    have h := Machine.interpret_retoken r.retokening limits #[] program m
    rwa [r.retoken_initial clock] at h
  refine ⟨hplain, ?_, ?_, ?_⟩
  · rw [hrun]
    exact Array.empty_append
  · rw [hrun]
  · rw [hrun]
    exact Machine.globals_retoken r.retokening _ plain.1

/-- In `fun a() {} print a; print b;` each of `a` and `b` may be in the other's place. -/
theorem Renaming.interpret_fresh_swap :
    let named (n : String) : Token := ⟨.identifier, n, 1⟩
    let program (a b : String) : Slots :=
      [some (.function (named a) [] []), some (.print (.variable (named a))),
        some (.print (.variable (named b)))]
    let r := swap "a" "b" (by decide) (by decide) fun f => by cases f; decide
    let m := Machine.initial (fun _ => 0)
    Stmt.retokenSlots r.name id (program "a" "b") = program "b" "a" ∧
      (m.interpret ⟨9, 9, 9, 9⟩ (program "a" "b")).1.output = #["<fn a>"] ∧
      (m.interpret ⟨9, 9, 9, 9⟩ (program "b" "a")).1.output = #["<fn b>"] := by
  intro named program r m
  have hrenamed : Stmt.retokenSlots r.name id (program "a" "b") = program "b" "a" := by
    with_unfolding_all rfl
  have hprinted : m.printed ⟨9, 9, 9, 9⟩ (program "a" "b") =
      [.closure ⟨0, named "a", [], [], Store.root⟩] := by
    with_unfolding_all rfl
  obtain ⟨hplain, hswapped, -⟩ := r.interpret_fresh ⟨9, 9, 9, 9⟩ (fun _ => 0) (program "a" "b")
  rw [hprinted] at hplain hswapped
  rw [hrenamed] at hswapped
  exact ⟨hrenamed, hplain.trans (by decide), hswapped.trans (by decide)⟩

end LoxLang
