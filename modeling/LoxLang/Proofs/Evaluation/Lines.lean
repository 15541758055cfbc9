import LoxLang.Proofs.Evaluation.Retoken

set_option autoImplicit false

/-!
# Lines make no difference to a run

A run looks at the kinds and lexemes of tokens, never at their lines, and never at what was printed
before. So a run on other lines, behind other output, does the same on these lines and behind this
output: lines may be changed as names and marks may.

## Main definitions

* `Token.onLine`, `Value.onLines`, `Machine.onLines` — with all lines changed by a function.
* `Machine.behind` — a machine that printed something before.
* `Retokening.lines` — a change of lines as one of names and marks.

## Main results

* `Machine.interpret_onLines_behind` — the run of a program on other lines, behind other output.
-/

namespace LoxLang

/-! ## Changing lines -/

/-- A token with its line changed. -/
def Token.onLine (f : Nat → Nat) (t : Token) : Token := { t with line := f t.line }

/-- A function value with all lines changed. -/
def Closure.onLines (f : Nat → Nat) (c : Closure) : Closure where
  identity := c.identity
  name := c.name.onLine f
  parameters := c.parameters.map (Token.onLine f)
  body := Stmt.mapSlots (Token.onLine f) c.body
  scope := c.scope

/-- A value with all lines changed. -/
def Value.onLines (f : Nat → Nat) : Value → Value
  | .closure c => .closure (c.onLines f)
  | v => v

/-- A scope with all lines changed. -/
def Scope.onLines (f : Nat → Nat) (s : Scope) : Scope where
  parent := s.parent
  bindings := s.bindings.map fun b => (b.1, b.2.onLines f)

/-- A store with all lines changed. -/
def Store.onLines (f : Nat → Nat) (s : Store) : Store := ⟨s.scopes.map (Scope.onLines f)⟩

/-- A machine with all lines changed. -/
def Machine.onLines (f : Nat → Nat) (m : Machine) : Machine := { m with store := m.store.onLines f }

/-- A machine that printed something before. -/
def Machine.behind (before : Array String) (m : Machine) : Machine :=
  { m with output := before ++ m.output }

/-- A fault with its line changed. -/
def RuntimeFault.onLine (f : Nat → Nat) (r : RuntimeFault) : RuntimeFault :=
  { r with token := r.token.onLine f }

/-- The ending of a run with its line changed. -/
def Ending.onLine (f : Nat → Nat) : Ending → Ending
  | .faulted r => .faulted (r.onLine f)
  | e => e

section Changes

variable (f g : Nat → Nat)

@[simp] lemma Token.onLine_id : Token.onLine id = id := rfl

@[simp] lemma Token.onLine_comp : Token.onLine g ∘ Token.onLine f = Token.onLine (g ∘ f) := rfl

@[simp] lemma Value.onLines_id : Value.onLines id = id := by
  funext v
  cases v with
  | closure c => simp [onLines, Closure.onLines, Stmt.mapSlots_id]
  | _ => rfl

@[simp] lemma Value.onLines_comp : Value.onLines g ∘ Value.onLines f = Value.onLines (g ∘ f) := by
  funext v
  cases v with
  | closure c =>
    simp only [Function.comp_apply, onLines, Closure.onLines, Stmt.mapSlots_mapSlots, List.map_map,
      Token.onLine_comp]
    rfl
  | _ => rfl

@[simp] lemma Scope.onLines_id : Scope.onLines id = id := by
  funext s
  simp [onLines]

@[simp] lemma Scope.onLines_comp : Scope.onLines g ∘ Scope.onLines f = Scope.onLines (g ∘ f) := by
  funext s
  simp [onLines, ← Value.onLines_comp f g]

@[simp] lemma Machine.onLines_id (m : Machine) : m.onLines id = m := by
  simp [onLines, Store.onLines]

@[simp] lemma Machine.onLines_onLines (m : Machine) :
    (m.onLines f).onLines g = m.onLines (g ∘ f) := by
  simp [onLines, Store.onLines]

end Changes

/-! ## Lines are no part of names and marks -/

/-- A change of lines as one of names and marks. -/
def Retokening.lines (f : Nat → Nat) : Retokening where
  name := Token.onLine f
  mark := Token.onLine f
  word := id
  lexeme_name _ := rfl
  kind_mark _ := rfl
  lexeme_mark _ := rfl
  injective h := h

section Lines

variable (f : Nat → Nat)

@[simp] lemma Value.display_onLines (v : Value) : (v.onLines f).display = v.display := by
  cases v <;> rfl

lemma Value.retoken_lines (v : Value) : v.retoken (.lines f) = v.onLines f := by
  cases v with
  | closure c => simp [retoken, onLines, Closure.retoken, Closure.onLines, Retokening.lines,
      Stmt.retokenSlots_self]
  | _ => rfl

lemma Scope.retoken_lines : Scope.retoken (.lines f) = Scope.onLines f := by
  funext s
  simp only [retoken, onLines, Value.retoken_lines]
  rfl

lemma Machine.retoken_lines (before : Array String) (m : Machine) :
    m.retoken (.lines f) (before ++ m.output) = (m.onLines f).behind before := by
  simp [retoken, onLines, behind, Store.retoken, Store.onLines, Scope.retoken_lines]

lemma Ending.retoken_lines (ending : Ending) : ending.retoken (.lines f) = ending.onLine f := by
  cases ending with
  | faulted r =>
    obtain ⟨cause, token⟩ := r
    cases cause <;> rfl
  | _ => rfl

/-- The same is shown on other lines. -/
lemma Retokening.shown_lines (values : List Value) :
    (Retokening.lines f).shown values = (values.map Value.display).toArray := by
  simp [shown, Value.retoken_lines]

end Lines

/-- **A program on other lines, behind other output**, runs as it does, on these lines and behind
this output. -/
theorem Machine.interpret_onLines_behind (limits : Limits) (f : Nat → Nat) (before : Array String)
    (program : Slots) (m : Machine) :
    Machine.interpret limits (Stmt.mapSlots (Token.onLine f) program)
        ((m.onLines f).behind before) =
      let (n, ending) := m.interpret limits program
      ((n.onLines f).behind before, ending.onLine f) := by
  have hprogram : Stmt.retokenSlots (Retokening.lines f).name (Retokening.lines f).mark program =
      Stmt.mapSlots (Token.onLine f) program := Stmt.retokenSlots_self _ program
  let run := m.interpret limits program
  have hrun : Machine.interpret limits (Stmt.mapSlots (Token.onLine f) program)
      (m.retoken (.lines f) (before ++ m.output)) =
        (run.1.retoken (.lines f) (before ++ m.output ++
          (Retokening.lines f).shown (m.printed limits program)), run.2.retoken (.lines f)) :=
    hprogram ▸ interpret_retoken (.lines f) limits (before ++ m.output) program m
  rw [Retokening.shown_lines, Array.append_assoc, ← output_interpret, retoken_lines, retoken_lines,
    Ending.retoken_lines] at hrun
  exact hrun

end LoxLang
