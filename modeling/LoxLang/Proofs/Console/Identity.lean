import LoxLang.Proofs.Evaluation.Equality
import LoxLang.Proofs.Evaluation.Handed
import LoxLang.Proofs.Evaluation.Passing

set_option autoImplicit false

/-!
# The identity of function values

Whenever the declaration of a function is executed a new function value is made, even if the same
declaration was executed before in the same scope. It is told from all others by its identity, which
the machine gives away once and never again. All else that a console does hands function values on
as they are, so one that is equal to another is that other one.

## Main results

* `MadeAt.eq_of_identity` — function values with one identity are the same.
* `HandedOn.of_history` — every history hands function values on.
* `Console.history_identifies_functions` — the identity of function values in any history.
-/

namespace LoxLang

/-! ## Identities are given away once -/

/-- No identity comes back. -/
lemma Machine.Moves.nextIdentity_le {m n : Machine} (h : m.Moves n) :
    m.nextIdentity ≤ n.nextIdentity := by
  cases h with
  | closes => exact Nat.le_succ m.nextIdentity
  | stays | binds | opens | prints | ticks => exact Nat.le_refl m.nextIdentity

/-- What is bound in a scope stays so until the name is bound anew there. -/
lemma Machine.Moves.own? {m n : Machine} (h : m.Moves n) {place : ScopeId} {name : String}
    {v : Value} (hv : m.store.own? place name = some v) :
    n.store.own? place name = some v ∨ ∃ w, n.store = m.store.define place name w := by
  cases h with
  | stays | closes | prints | ticks => exact .inl hv
  | opens parent => exact .inl ((Store.own?_child parent place name).trans hv)
  | binds scope other w =>
    by_cases hplace : scope = place
    · subst hplace
      by_cases hname : name = other
      · exact .inr ⟨w, hname ▸ rfl⟩
      · obtain ⟨a, ha, -⟩ := Option.bind_eq_some_iff.1 hv
        have hdefine := Store.own?_define (Store.lt_next_iff.2 ⟨a, ha⟩) other w scope name
        rw [if_neg fun h => hname h.2] at hdefine
        exact .inl (hdefine.trans hv)
    · left
      show (m.store.define scope other w).own? place name = some v
      rwa [Store.own?, Store.getElem?_define, if_neg hplace]

section Chain

variable {moments : List Moment} {i j : Nat} {a b : Moment} {c c' : Closure}

/-- Later moments have no smaller identities to give away. -/
lemma nextIdentity_mono (h : moments.IsChain fun a b => a.machine.Moves b.machine) (hij : i ≤ j)
    (ha : moments[i]? = some a) (hb : moments[j]? = some b) :
    a.machine.nextIdentity ≤ b.machine.nextIdentity := by
  have hchain : (moments.map fun a => a.machine.nextIdentity).IsChain (· ≤ ·) :=
    (List.isChain_map _).2 (h.imp fun _ _ hmoves => hmoves.nextIdentity_le)
  obtain ⟨hi, rfl⟩ := List.getElem?_eq_some_iff.1 ha
  obtain ⟨hj, rfl⟩ := List.getElem?_eq_some_iff.1 hb
  rcases Nat.eq_or_lt_of_le hij with rfl | hlt
  · exact Nat.le_refl _
  · have hpair := List.pairwise_iff_getElem.1 hchain.pairwise i j (by simpa using hi)
      (by simpa using hj) hlt
    simpa using hpair

/-- The identity of a function value is given away at later moments. -/
lemma MadeAt.identity_lt (h : MadeAt moments i c)
    (hchain : moments.IsChain fun a b => a.machine.Moves b.machine) (hij : i < j)
    (hb : moments[j]? = some b) : c.identity < b.machine.nextIdentity := by
  obtain ⟨-, d, -, hd, -, -, hnext⟩ := h.begins
  have hle := nextIdentity_mono hchain hij hd hb
  rwa [hnext] at hle

/-- **Function values with one identity are the same**, made at the same moment.

**Proof sketch.** If one were made before the other, the machine would have given its identity away
by then. And what is made at one moment is told by the declaration that begins there. -/
theorem MadeAt.eq_of_identity (h : MadeAt moments i c) (h' : MadeAt moments j c')
    (hchain : moments.IsChain fun a b => a.machine.Moves b.machine)
    (hidentity : c.identity = c'.identity) : c = c' := by
  obtain ⟨a, -, ha, -, hphase, hnext, -⟩ := h.begins
  obtain ⟨a', -, ha', -, hphase', hnext', -⟩ := h'.begins
  rcases Nat.lt_trichotomy i j with hlt | rfl | hlt
  · have hless := h.identity_lt hchain hlt ha'
    omega
  · obtain rfl : a = a' := Option.some.inj (ha.symm.trans ha')
    rw [hphase] at hphase'
    cases c
    cases c'
    simp_all
  · have hless := h'.identity_lt hchain hlt ha
    omega

end Chain

/-! ## Histories hand function values on -/

/-- No function value is there from the start. -/
lemma Machine.functions_initial (clock : Clock) : (Machine.initial clock).functions [] = ∅ := by
  let within (s : Store) : Machine := { Machine.initial clock with store := s }
  have hbinds : ∀ c, ¬ (within (Machine.initial clock).store).Binds (.closure c) := by
    refine store_initial_induction (P := fun s => ∀ c, ¬ (within s).Binds (.closure c)) ?_ ?_ clock
    · rintro c ⟨scope, a, ha, b, hb, -⟩
      simp [Store.bindings_initial ha] at hb
    · intro s f hs c hc
      rcases hc.of_define (m := within s) with hc | hc
      · exact hs c hc
      · cases hc
  refine Set.eq_empty_of_forall_notMem fun c hc => ?_
  rcases hc with hc | hc
  · exact hbinds c hc
  · cases hc

/-- Running a program hands function values on. -/
lemma HandedOn.of_running (c : Console) (program? : Option Slots) :
    HandedOn (c.machine.functions []) (c.running program?) ((c.ran program?).functions []) := by
  cases program? with
  | none => exact .stop subset_rfl
  | some program =>
    exact .pass subset_rfl (by simp [Moment.Declares])
      (.of_program c.limits program c.machine.cleared)

/-- **Every history hands function values on.** -/
theorem HandedOn.of_history (inputs : List Console.Input) (c : Console) :
    ∃ L, HandedOn (c.machine.functions []) (c.history inputs) L := by
  induction inputs generalizing c with
  | nil => exact ⟨_, .pass subset_rfl (by simp [Moment.Declares]) (.stop subset_rfl)⟩
  | cons input rest ih =>
    obtain ⟨L, hrest⟩ := ih (c.take input).1
    have hrun := of_running c (c.program? input)
    rw [← Console.machine_take] at hrun
    exact ⟨L, .pass subset_rfl (by simp [Moment.Declares]) (hrun.append hrest)⟩

/-! ## Function values in any history -/

/-- A value is not equal to another, whichever comes first. -/
def Value.Unequal (v w : Value) : Prop := v.equals w = false ∧ w.equals v = false

/-- A function value is not equal to what is no function value, or one with another identity. -/
lemma Value.unequal_closure {v : Value} {c : Closure}
    (h : ∀ c', v = .closure c' → c'.identity ≠ c.identity) : v.Unequal (.closure c) := by
  have hne : ¬ v.equals (.closure c) = true := by
    intro hequals
    obtain ⟨c', rfl⟩ := exists_closure_of_equals (equals_equivalence.symm hequals)
    exact h c' rfl (equals_closure_iff.1 hequals)
  exact ⟨eq_false_of_ne_true hne, eq_false_of_ne_true (mt equals_equivalence.symm hne)⟩

/-- **The identity of function values in any history.** Equality is an equivalence on all values. On
a console that starts fresh, whatever it is given and however each run ends, a new function value is
made wherever the declaration of a function begins, and it is equal to no value that is at hand
there or was at any moment before. Every function value at hand was made so, and two of them, at
whichever moments, are equal only if they are the same one. From every moment on, variables,
assignments, arguments, returns and logical operators pass values on as they are, and what is bound
stays so until its name is bound anew in its scope.

**Proof sketch.** What is at hand at some moment was made before, and its identity is less than the
one that the machine has to give away next. The latter never decreases, and the declaration that
begins takes it. -/
theorem Console.history_identifies_functions (limits : Limits) (painter : Painter) (clock : Clock)
    (inputs : List Input) :
    let moments := (fresh limits painter clock).history inputs
    (Equivalence fun v w : Value => v.equals w = true) ∧
    (∀ i a scope name parameters body, moments[i]? = some a →
      a.phase = .executing scope (.function name parameters body) →
      let made := a.machine.closure name parameters body scope
      MadeAt moments i made ∧
      ∀ j ≤ i, ∀ b, moments[j]? = some b → ∀ v, b.Has v → v.Unequal (.closure made)) ∧
    (∀ i a c, moments[i]? = some a → a.Has (.closure c) → ∃ j < i, MadeAt moments j c) ∧
    (∀ a ∈ moments, ∀ b ∈ moments, ∀ c c', a.Has (.closure c) → b.Has (.closure c') →
      ((Value.closure c).equals (.closure c') = true ↔ c = c')) ∧
    (∀ a ∈ moments, ∀ rounds depth, ∀ scope < a.machine.store.next,
      a.machine.PassesOn rounds depth scope) ∧
    moments.IsChain fun a b => ∀ place name v, a.machine.store.own? place name = some v →
      b.machine.store.own? place name = some v ∨
        ∃ w, b.machine.store = a.machine.store.define place name w := by
  intro moments
  have hinitial := Machine.sound_initial clock
  obtain ⟨n, hpath⟩ := Discipline.scopes.path_history inputs (fresh limits painter clock)
    hinitial hinitial.root_lt
  have hchain := hpath.moves
  obtain ⟨L, hhanded⟩ := HandedOn.of_history inputs (fresh limits painter clock)
  have hmade : ∀ i a c, moments[i]? = some a → a.Has (.closure c) →
      ∃ j < i, MadeAt moments j c := by
    intro i a c ha hc
    have hinitially := hhanded.exists_madeAt ha hc
    rwa [show (fresh limits painter clock).machine = Machine.initial clock from rfl,
      Machine.functions_initial, Set.mem_empty_iff_false, false_or] at hinitially
  refine ⟨Value.equals_equivalence, ?_, hmade, ?_, ?_, ?_⟩
  · intro i a scope name parameters body ha hphase made
    refine ⟨hhanded.madeAt ha hphase, fun j hj b hb v hv => Value.unequal_closure ?_⟩
    rintro c rfl
    obtain ⟨k, hk, hc⟩ := hmade j b c hb hv
    exact Nat.ne_of_lt (hc.identity_lt hchain (Nat.lt_of_lt_of_le hk hj) ha)
  · intro a ha b hb c c' hc hc'
    obtain ⟨i, hi⟩ := List.mem_iff_getElem?.1 ha
    obtain ⟨j, hj⟩ := List.mem_iff_getElem?.1 hb
    obtain ⟨k, -, hmade'⟩ := hmade i a c hi hc
    obtain ⟨k', -, hmade''⟩ := hmade j b c' hj hc'
    rw [Value.equals_closure_iff]
    exact ⟨hmade'.eq_of_identity hmade'' hchain, congrArg Closure.identity⟩
  · intro a ha rounds depth scope hlt
    exact Machine.passesOn (hpath.fits a ha).holds hlt rounds depth
  · exact hchain.imp fun a b hmoves place name v => hmoves.own?

end LoxLang
