import LoxLang.Proofs.Evaluation.Simulation

set_option autoImplicit false

/-!
# Runs of programs with braces put around a statement

Braces around a statement that is no declaration make a scope that stays empty. Lookups and
assignments go through it to its parent, and so do those of function values that were made within. So
a regular program runs alike with braces and without them.

## Main definitions

* `Correspondence.bracing` — putting braces around one statement of a program, a correspondence.
* `Machine.Regular` — the bodies of all function values of a machine are regular.
* `Value.Braced` — values that are the same but for such braces in the bodies of functions.

## Main results

* `Machine.Regular.interpret` — a regular program leaves regular bodies behind, however it ends.
* `Machine.Regular.agree` — braces around one statement of a regular program change no run of it.
-/

namespace LoxLang

/-! ## Braces as a correspondence -/

section Layers

variable (room : Room) (program other : Slots)

/-- Regular statements that are the same, or that stand at the same place of two programs and differ
in braces around one statement. Where two runs are to be cut short together, no braces are put. -/
def Stmt.Bracing (s s' : Stmt) : Prop :=
  s.Regular ∧ (s = s' ∨ room ≠ .same ∧ s.Braced s' ∧ Facing program other s s')

/-- Regular slots of which the same holds. -/
def Stmt.BracingIn (b b' : Slots) : Prop :=
  AllRegular b ∧ (b = b' ∨ room ≠ .same ∧ BracedIn b b' ∧ FacingIn program other b b')

/-- An expression has the form and the parts of itself. -/
lemma Expr.congruent_refl (e : Expr) : Expr.Congruent Eq Eq Eq e e := by
  cases e with
  | literal value => exact .literal value
  | grouping => exact .grouping rfl
  | unary => exact .unary rfl rfl
  | binary => exact .binary rfl rfl rfl
  | logical => exact .logical rfl rfl rfl
  | «variable» => exact .variable rfl
  | assign => exact .assign rfl rfl
  | call callee paren arguments => exact .call rfl rfl (List.forall₂_refl arguments)

/-- A regular statement has the form of itself, and regular parts. -/
lemma Stmt.congruent_of_regular {s : Stmt} (h : s.Regular) :
    Stmt.Congruent Eq Eq Eq (Bracing room program other) (BracingIn room program other)
      (room ≠ .same) s s := by
  have hvalue : ∀ e : Option Expr, Option.Rel Eq e e := by
    rintro (_ | e)
    · exact .none
    · exact .some rfl
  cases s with
  | expression => exact .expression rfl
  | print => exact .print rfl
  | var _ initial => exact .var rfl (hvalue initial)
  | block => exact .block ⟨h, .inl rfl⟩
  | branch _ whenTrue whenFalse =>
    cases whenFalse with
    | none => exact .branch rfl ⟨h.2, .inl rfl⟩ .none (fun _ => h.1) (by simp)
    | some whenFalse =>
      exact .branch rfl ⟨h.1.2, .inl rfl⟩ (.some ⟨h.2.2, .inl rfl⟩) (fun _ => h.1.1) (by simp [h.2.1])
  | loop => exact .loop rfl ⟨h.2, .inl rfl⟩ fun _ => h.1
  | function _ parameters => exact .function rfl (List.forall₂_refl parameters) ⟨h, .inl rfl⟩
  | «return» _ value => exact .return rfl (hvalue value)

variable {room program other}

/-- A statement has the same form after braces are put in it, unless they are put around all of it. -/
lemma Stmt.congruent_of_braced {s s' : Stmt} (hs : s.Regular) (hroom : room ≠ .same)
    (h : s.Braced s') (hfacing : Facing program other s s') :
    Stmt.Congruent Eq Eq Eq (Bracing room program other) (BracingIn room program other)
        (room ≠ .same) s s' ∨
      s.isDeclaration = false ∧ s' = .block [some s] := by
  cases h with
  | here hplain => exact .inr ⟨hplain, rfl⟩
  | block h => exact .inl (.block ⟨hs, .inr ⟨hroom, h, .block hfacing⟩⟩)
  | @whenTrue _ _ _ whenFalse h =>
    cases whenFalse with
    | none =>
      exact .inl (.branch rfl ⟨hs.2, .inr ⟨hroom, h, .whenTrue hfacing⟩⟩ .none (fun _ => hs.1)
        (by simp))
    | some whenFalse =>
      exact .inl (.branch rfl ⟨hs.1.2, .inr ⟨hroom, h, .whenTrue hfacing⟩⟩
        (.some ⟨hs.2.2, .inl rfl⟩) (fun _ => hs.1.1) (by simp [hs.2.1]))
  | whenFalse h =>
    exact .inl (.branch rfl ⟨hs.1.2, .inl rfl⟩
      (.some ⟨hs.2.2, .inr ⟨hroom, h, .whenFalse hfacing⟩⟩) (fun _ => hs.1.1) (by simp [hs.2.1]))
  | body h => exact .inl (.loop rfl ⟨hs.2, .inr ⟨hroom, h, .body hfacing⟩⟩ fun _ => hs.1)
  | function h =>
    exact .inl (.function rfl (List.forall₂_refl _) ⟨hs, .inr ⟨hroom, h, .function hfacing⟩⟩)

/-- Slots in which braces are put around a statement begin alike. -/
lemma Stmt.aligned_of_bracingIn {b b' : Slots} (h : BracingIn room program other b b') :
    Aligned (Bracing room program other) (BracingIn room program other) b b' := by
  obtain ⟨hb, rfl | ⟨hroom, hbraced, hfacing⟩⟩ := h
  · cases b with
    | nil => exact .nil
    | cons slot rest =>
      cases slot with
      | none => exact .gaps ⟨hb, .inl rfl⟩
      | some s => exact .cons ⟨hb.1, .inl rfl⟩ ⟨hb.2, .inl rfl⟩
  · cases hbraced with
    | member h => exact .cons ⟨hb.1, .inr ⟨hroom, h, .member hfacing⟩⟩ ⟨hb.2, .inl rfl⟩
    | @later slot _ _ h =>
      cases slot with
      | none => exact .gaps ⟨hb, .inr ⟨hroom, h, .later hfacing⟩⟩
      | some s => exact .cons ⟨hb.1, .inl rfl⟩ ⟨hb.2, .inr ⟨hroom, h, .later hfacing⟩⟩

end Layers

/-- **Putting braces around one statement of a program** is a correspondence. -/
def Correspondence.bracing (room : Room) (program other : Slots) : Correspondence where
  room := room
  braces := room ≠ .same
  rename := id
  Name := Eq
  Mark := Eq
  Exprs := Eq
  Stmts := Stmt.Bracing room program other
  Bodies := Stmt.BracingIn room program other
  rename_injective := Function.injective_id
  rename_native := Native.id_name
  lexeme_name _ _ h := by rw [h, id]
  kind_mark _ _ h := by rw [h]
  lexeme_mark _ _ h := by rw [h]
  unfold_expr := by
    rintro e _ rfl
    exact .inl e.congruent_refl
  unfold_stmt := by
    rintro s _ ⟨hs, rfl | ⟨hroom, hbraced, hfacing⟩⟩
    · exact .inl (Stmt.congruent_of_regular room program other hs)
    · refine (Stmt.congruent_of_braced hs hroom hbraced hfacing).imp id ?_
      rintro ⟨hplain, rfl⟩
      exact ⟨⟨hroom, hroom⟩, hplain, s, rfl, Stmt.congruent_of_regular room program other hs⟩
  unfold_bodies _ _ h := Stmt.aligned_of_bracingIn h

/-! ## Machines with regular bodies -/

/-- A machine corresponds to itself: the bodies of all its function values are regular, and its scopes
stand below scopes that were made before. -/
def Machine.Regular (m : Machine) : Prop :=
  ∃ ρ : World, (Correspondence.bracing .same [] []).Machines ρ m m

namespace Machine

/-- A machine that has run nothing yet is regular. -/
lemma regular_initial (clock : Clock) : (initial clock).Regular :=
  ⟨_, Correspondence.machines_initial _ clock⟩

/-- A regular machine corresponds to itself wherever braces are put. -/
lemma Regular.machines {m : Machine} (h : m.Regular) (room : Room) (program other : Slots) :
    ∃ ρ : World, (Correspondence.bracing room program other).Machines ρ m m := by
  obtain ⟨ρ, h⟩ := h
  have hfiner : (Correspondence.bracing .same [] []).Finer
      (Correspondence.bracing room program other) := by
    refine ⟨rfl, fun _ _ h => h, fun b b' hb => ?_, fun hroom => absurd rfl hroom⟩
    exact ⟨hb.1, hb.2.imp id fun hbraced => absurd rfl hbraced.1⟩
  exact ⟨ρ, hfiner.machines h⟩

/-- **A regular program leaves regular bodies behind**, also if it is cut short.

**Proof sketch.** It corresponds to itself, and runs of it with the same limits are cut short
together. -/
theorem Regular.interpret {m : Machine} (h : m.Regular) (limits : Limits) {program : Slots}
    (hp : Stmt.AllRegular program) : (m.interpret limits program).1.Regular := by
  obtain ⟨ρ, hm⟩ := h
  let κ := Correspondence.bracing .same [] []
  have hdeep : κ.room.Deep limits.depth limits.depth := rfl
  have hlong : κ.room.Long limits.rounds limits.rounds := rfl
  have hbodies : κ.Bodies program program := ⟨hp, .inl rfl⟩
  rcases Correspondence.interpret hdeep hlong hbodies hm with hspared | hagree | ⟨-, hhalted⟩
  · exact hspared.elim
  · exact hagree.machines
  · exact hhalted

end Machine

/-! ## Runs with braces and without them -/

/-- Values that are the same, or function values of one identity with the same name and parameters,
whose bodies are the same, or stand at the same place of two programs and differ in braces around one
statement. -/
def Value.Braced (program other : Slots) : Value → Value → Prop :=
  Value.Similar Eq fun b b' =>
    b = b' ∨ Stmt.BracedIn b b' ∧ Stmt.FacingIn program other b b'

namespace Correspondence

variable {room : Room} {program other : Slots}

/-- Where braces are put, values that correspond differ in them only. -/
lemma Similar.braced {v v' : Value} (h : (bracing room program other).Similar v v') :
    v.Braced program other v' :=
  Value.Similar.mono h (fun _ _ h => h) fun _ _ hb => hb.2.imp id And.right

/-- Where braces are put, runs end in the same way. -/
lemma Endings.eq_of_bracing {ending ending' : Ending}
    (h : (bracing room program other).Endings ending ending') : ending = ending' := by
  cases h with
  | finished => rfl
  | faulted hf =>
    cases hf with
    | undefined ht =>
      cases ht
      rfl
    | other ht =>
      cases ht
      rfl

end Correspondence

/-- **Braces around one statement of a regular program make no difference to its run**, unless a run
is cut short that may be. -/
theorem Machine.Regular.agree {m : Machine} (h : m.Regular) {program other : Slots}
    (hp : Stmt.AllRegular program) (hb : Stmt.BracedIn program other) {room : Room}
    (hroom : room ≠ .same) {limits limits' : Limits}
    (hd : room.Deep limits.depth limits'.depth) (hr : room.Long limits.rounds limits'.rounds) :
    room.Spares (m.interpret limits program).2.Cut (m.interpret limits' other).2.Cut ∨
      (Correspondence.bracing room program other).Agree (m.interpret limits program)
        (m.interpret limits' other) (m.returns limits program) (m.returns limits' other) := by
  obtain ⟨ρ, hm⟩ := h.machines room program other
  let κ := Correspondence.bracing room program other
  have hdeep : κ.room.Deep limits.depth limits'.depth := hd
  have hlong : κ.room.Long limits.rounds limits'.rounds := hr
  have hbodies : κ.Bodies program other := ⟨hp, .inr ⟨hroom, hb, .program⟩⟩
  rcases Correspondence.interpret hdeep hlong hbodies hm with hspared | hagree | ⟨hsame, -⟩
  · exact .inl hspared
  · exact .inr hagree
  · exact absurd hsame hroom

end LoxLang
