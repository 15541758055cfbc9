import LoxLang.Proofs.Console.Scopes
import LoxLang.Proofs.Console.Accepted
import LoxLang.Proofs.Evaluation.Braces
import LoxLang.Proofs.Grammar.WellFormed

set_option autoImplicit false

/-!
# Redundant braces

Whatever a console was given, the bodies of all function values on its machine were read from text.
So they are regular, and so is any program that is read: braces may be put around any of its
statements but declarations, and its run on this machine stays what it is.

## Main results

* `Console.regular_after` — a console holds function values with regular bodies only.
* `Console.interpret_bracedIn` — redundant braces never change a program.
-/

namespace LoxLang

/-- A machine stays regular if its output is taken away. -/
lemma Machine.Regular.cleared {m : Machine} (h : m.Regular) : m.cleared.Regular := by
  obtain ⟨ρ, h⟩ := h
  exact ⟨ρ, h.stores, h.identity, .nil, h.clock⟩

namespace Console

variable {c : Console} {input : Input} {program : Slots}

/-- A program that is run is regular. -/
lemma allRegular_of_program? (h : c.program? input = some program) : Stmt.AllRegular program := by
  cases input with
  | program source => exact Grammar.allRegular_of_parse (read?_eq_some.1 h).2
  | line text =>
    unfold program? at h
    dsimp only at h
    split at h
    · obtain rfl := Option.some.inj h
      exact ⟨trivial, trivial⟩
    · exact Grammar.allRegular_of_parse (read?_eq_some.1 h).2
    · contradiction

/-- **A console holds function values with regular bodies only**, whatever it was given.

**Proof sketch.** Induction over what it was given: programs that are run are regular. -/
theorem regular_after (inputs : List Input) {c : Console} (h : c.machine.Regular) :
    (c.after inputs).machine.Regular := by
  induction inputs generalizing c with
  | nil => exact h
  | cons input rest ih =>
    apply ih
    rw [machine_take]
    cases hp : c.program? input with
    | none => exact h
    | some program => exact h.cleared.interpret c.limits (allRegular_of_program? hp)

/-- **Redundant braces never change a program.** Let a program be read from any tokens, with or
without faults, and let braces be put around one statement at any place in it that is no
declaration. Both programs run on the machine of a console that starts fresh and was given anything
before, or nothing. If neither run is cut short by its limits, they print the same, end in the same
way, with the same fault at the same token if there is one, their calls return the same values in the
same order, and they leave the same globals, where function values have the same bodies up to these
braces. The run with braces is not cut short if it has twice the depth of one without them that is
not, and the run without braces is not cut short if one with them is not.

**Proof sketch.** What is read is regular, and so are the bodies of function values from before. The
scopes that the braces make stay empty, so they stand for the scopes around them in every lookup and
assignment; every other scope stands for the one that is made without the braces at the same time. -/
theorem interpret_bracedIn (limits : Limits) (painter : Painter) (clock : Clock) (inputs : List Input)
    {depth : Nat} {tokens : List Token} {program other : Slots} {faults : List SyntaxFault}
    (hread : Grammar.parse depth tokens = .done program faults)
    (hbraces : Stmt.BracedIn program other) :
    let m := ((fresh limits painter clock).after inputs).machine.cleared
    (∀ l l' : Limits, ¬ (m.interpret l program).2.Cut → ¬ (m.interpret l' other).2.Cut →
      (m.interpret l program).1.output = (m.interpret l' other).1.output ∧
      (m.interpret l program).2 = (m.interpret l' other).2 ∧
      List.Forall₂ (Value.Braced program other) (m.returns l program) (m.returns l' other) ∧
      List.Forall₂ (fun b b' => b.1 = b'.1 ∧ b.2.Braced program other b'.2)
        (m.interpret l program).1.globals (m.interpret l' other).1.globals) ∧
    (∀ l : Limits, ¬ (m.interpret l program).2.Cut →
      ¬ (m.interpret { l with depth := 2 * l.depth } other).2.Cut) ∧
    (∀ l : Limits, ¬ (m.interpret l other).2.Cut → ¬ (m.interpret l program).2.Cut) := by
  intro m
  have hprogram : Stmt.AllRegular program := Grammar.allRegular_of_parse hread
  have hm : m.Regular := (regular_after inputs (Machine.regular_initial clock)).cleared
  refine ⟨fun l l' hcut hcut' => ?_, fun l hcut => ?_, fun l hcut => ?_⟩
  · have hany : Room.either ≠ .same := nofun
    have hdeep : Room.either.Deep l.depth l'.depth := trivial
    have hlong : Room.either.Long l.rounds l'.rounds := trivial
    rcases hm.agree hprogram hbraces hany hdeep hlong with hspared | hagree
    · exact absurd hspared (not_or.2 ⟨hcut, hcut'⟩)
    · have hglobals := hagree.globals rfl
      exact ⟨hagree.output_eq rfl, hagree.endings.eq_of_bracing,
        hagree.returned.imp fun _ _ h => h.braced, hglobals.imp fun _ _ h => ⟨h.1.symm, h.2.braced⟩⟩
  · let l' : Limits := { l with depth := 2 * l.depth }
    have hfirst : Room.first ≠ .same := nofun
    have hdeep : Room.first.Deep l.depth l'.depth := Nat.le_refl _
    have hlong : Room.first.Long l.rounds l'.rounds := Nat.le_refl _
    rcases hm.agree hprogram hbraces hfirst hdeep hlong with hspared | hagree
    · exact absurd hspared hcut
    · exact hagree.endings.not_cut.2
  · have hsecond : Room.second ≠ .same := nofun
    have hdeep : Room.second.Deep l.depth l.depth := Nat.le_refl _
    have hlong : Room.second.Long l.rounds l.rounds := Nat.le_refl _
    rcases hm.agree hprogram hbraces hsecond hdeep hlong with hspared | hagree
    · exact absurd hspared hcut
    · exact hagree.endings.not_cut.1

/-- In `fun f() { return; } print f();` braces around the return change nothing. -/
theorem interpret_bracedIn_returning :
    let named : Token := ⟨.identifier, "f", 1⟩
    let returning : Stmt := .return ⟨.returnWord, "return", 1⟩ none
    let printing : Stmt := .print (.call (.variable named) ⟨.rightParen, ")", 1⟩ [])
    let program : Slots := [some (.function named [] [some returning]), some printing]
    let other : Slots :=
      [some (.function named [] [some (.block [some returning])]), some printing]
    let m := ((fresh ⟨9, 9, 9, 9⟩ .plain (fun _ => 0)).after []).machine.cleared
    Grammar.parse 9 (scan "fun f() \x7b return; \x7d print f();").tokens = .done program [] ∧
      Stmt.BracedIn program other ∧
      (m.interpret ⟨9, 9, 9, 9⟩ program).1.output = (m.interpret ⟨9, 9, 9, 9⟩ other).1.output ∧
      (m.interpret ⟨9, 9, 9, 9⟩ program).1.output = #["nil"] := by
  intro named returning printing program other m
  have hread : Grammar.parse 9 (scan "fun f() \x7b return; \x7d print f();").tokens =
      .done program [] := by
    with_unfolding_all rfl
  have hbraces : Stmt.BracedIn program other := .member (.function (.member (.here rfl)))
  obtain ⟨hsame, -⟩ := interpret_bracedIn ⟨9, 9, 9, 9⟩ .plain (fun _ => 0) [] hread hbraces
  have hcut : ¬ (m.interpret ⟨9, 9, 9, 9⟩ program).2.Cut := by decide +kernel
  have hcut' : ¬ (m.interpret ⟨9, 9, 9, 9⟩ other).2.Cut := by decide +kernel
  exact ⟨hread, hbraces, (hsame _ _ hcut hcut').1, by decide +kernel⟩

end Console

end LoxLang
