import LoxLang.Proofs.Console.Sequence
import LoxLang.Proofs.Evaluation.Kept
import LoxLang.Proofs.Store.Shape

set_option autoImplicit false

/-!
# The scopes of a console

Whatever a console is given, one program or line after another, and whatever becomes of it, the
scopes of its store make up a tree at every moment, no scope is ever lost, and a name that was once
bound where a scope can see it stays so. Looking names up ends for this reason.

## Main definitions

* `Console.Input`, `Console.take` — what a console is given, and what it makes of it.
* `Console.history` — the moments that a console passes through.
* `Moment.Sound` — the shape of the store at a moment, with the values that are held.
* `Machine.Sees` — what a name leads to from a scope, for reading it and for assigning to it.
* `Discipline.scopes` — the shape of the store as a discipline.

## Main results

* `Machine.sees_resolve?` — looking a name up always ends.
* `Console.history_keeps_scopes` — the scopes at all moments of any history.
-/

namespace LoxLang

/-! ## What a console is given -/

namespace Console

/-- What a console is given. -/
inductive Input
  | program (source : String)
  | line (text : String)

/-- What a console makes of what it is given. -/
def take (c : Console) : Input → Console × Answer
  | .program source => c.submit source
  | .line text => c.enter text

/-- The program that a source is read as, if nothing is wrong with its text. -/
def read? (c : Console) (source : String) : Option Slots :=
  match Grammar.parse c.limits.reading (scan source).tokens with
  | .done program faults =>
    if (scan source).faults.isEmpty && faults.isEmpty then some program else none
  | .tooDeep => none

/-- The program that is run for what a console is given, if any. -/
def program? (c : Console) : Input → Option Slots
  | .program source => c.read? source
  | .line text =>
    match bare c.limits text with
    | .done (some e) _ => some [some (.print e)]
    | .done none _ => c.read? text
    | .tooDeep => none

/-- The machine after a program was run, if one was. -/
def ran (c : Console) : Option Slots → Machine
  | some program => (c.machine.cleared.interpret c.limits program).1
  | none => c.machine

/-- The moments of running a program, if one is run. -/
def running (c : Console) : Option Slots → List Moment
  | some program =>
    ⟨.idle, c.machine.cleared, []⟩ :: c.machine.cleared.trace c.limits program
  | none => []

/-- The moments that a console passes through, with one before each program or line. -/
def history (c : Console) : List Input → List Moment
  | [] => [⟨.idle, c.machine, []⟩]
  | input :: rest =>
    ⟨.idle, c.machine, []⟩ :: (c.running (c.program? input) ++ (c.take input).1.history rest)

/-- A source that is read is accepted. -/
lemma read?_eq_some {c : Console} {source : String} {program : Slots} :
    c.read? source = some program ↔ c.Accepts source program := by
  unfold read? Accepts
  cases Grammar.parse c.limits.reading (scan source).tokens with
  | tooDeep => simp
  | done read faults => simp [List.isEmpty_iff, and_comm, and_assoc]

/-- A program changes the machine only by being run. -/
lemma machine_submit (c : Console) (source : String) :
    (c.submit source).1.machine = c.ran (c.read? source) := by
  cases h : c.read? source with
  | some program =>
    rw [submit_of_accepts (read?_eq_some.1 h), execute_eq_conclude, machine_conclude]
    rfl
  | none =>
    unfold read? at h
    unfold submit
    dsimp only
    cases hp : Grammar.parse c.limits.reading (scan source).tokens with
    | tooDeep => rfl
    | done program faults =>
      have hsome : ¬((scan source).faults = [] ∧ faults = []) := by
        rintro ⟨hf, rfl⟩
        simp [hp, hf] at h
      dsimp only
      rw [if_neg (by simpa using hsome)]
      rfl

/-- **A console changes its machine only by running a program.** -/
theorem machine_take (c : Console) (input : Input) :
    (c.take input).1.machine = c.ran (c.program? input) := by
  cases input with
  | program source => exact machine_submit c source
  | line text =>
    show (c.enter text).1.machine = _
    unfold enter program?
    dsimp only
    cases bare c.limits text with
    | tooDeep => rfl
    | done e faults =>
      cases e with
      | none => exact machine_submit c text
      | some e =>
        show (c.execute [some (.print e)]).1.machine = _
        rw [execute_eq_conclude, machine_conclude]
        rfl

end Console

/-! ## The shape of the store at a moment -/

/-- The store at a moment is a tree of scopes, the values that are held are sound, and the scope at
work is there. -/
structure Moment.Sound (a : Moment) : Prop where
  store : a.machine.store.Sound
  held : ∀ v ∈ a.held, v.Sound a.machine.store
  scope_lt : ∀ scope ∈ a.phase.scope?, scope < a.machine.store.next

/-- The shape of the store as a discipline. -/
def Discipline.scopes : Discipline where
  Holds m := m.store.Sound
  Leads m n := m.store.Extends n.store
  Place m scope := scope < m.store.next
  Sound m v := v.Sound m.store
  refl m := .refl m.store
  trans h h' := h.trans h'
  place_mono h hs := h.lt_next hs
  sound_mono h hv := h.value_sound hv
  sound_plain _ _ h := fun c hc => absurd hc (h c)
  sound_get hm _ h := hm.get? h
  place_resolve _ _ h := by
    obtain ⟨a, ha, -⟩ := Store.binds_of_resolve? h
    exact Store.lt_next_iff.2 ⟨a, ha⟩
  place_closure _ hc := (hc _ rfl).scope_lt
  define name hm _ hv :=
    ⟨Store.sound_define hm hv _ name, Store.extends_define _ _ name _⟩
  child := by
    intro m scope hm hs
    refine ⟨Store.sound_child hm hs, Store.extends_child m.store scope, ?_⟩
    rw [Store.next_child]
    exact Nat.lt_succ_self _
  close := by
    intro m scope name parameters body hm hs
    refine ⟨hm, .refl m.store, ?_⟩
    rintro c hc
    obtain rfl : _ = c := Value.closure.inj hc
    exact ⟨hs, rfl⟩
  print _ hm := ⟨hm, .refl _⟩
  tick hm := ⟨hm, .refl _⟩

/-- Nothing is bound in an empty store. -/
lemma Store.bindings_initial {scope : ScopeId} {a : Scope}
    (ha : Store.initial.scopes[scope]? = some a) : a.bindings = [] := by
  obtain ⟨hlt, rfl⟩ := Array.getElem?_eq_some_iff.1 ha
  obtain rfl : scope = 0 := Nat.lt_one_iff.1 hlt
  rfl

/-- A store with an empty scope at the root is a tree. -/
lemma Store.sound_initial : Store.initial.Sound := by
  refine ⟨Nat.one_pos, rfl, ?_, ?_⟩
  · intro scope hlt hne
    exact absurd (Nat.lt_one_iff.1 hlt) hne
  · intro scope a ha b hb
    simp [bindings_initial ha] at hb

/-- The native functions are bound in a tree. -/
lemma Machine.sound_initial (clock : Clock) : (Machine.initial clock).store.Sound := by
  refine store_initial_induction Store.sound_initial (fun s f hs => ?_) clock
  exact Store.sound_define hs (by simp [Value.Sound]) Store.root f.name

/-! ## Histories -/

/-- Whenever no program runs, there is a moment that keeps a discipline. -/
lemma Discipline.fits_idle {d : Discipline} {m : Machine} (hm : d.Holds m) :
    d.Fits ⟨.idle, m, []⟩ := ⟨hm, by simp, by simp [Phase.scope?]⟩

/-- **Running a program keeps every discipline.** -/
lemma Discipline.path_running {d : Discipline} {c : Console} (hm : d.Holds c.machine)
    (hroot : d.Place c.machine Store.root) (program? : Option Slots) :
    d.Path c.machine (c.running program?) (c.ran program?) ∧ d.Holds (c.ran program?) := by
  cases program? with
  | none => exact ⟨.nil c.machine, hm⟩
  | some program =>
    obtain ⟨hcleared, hleads⟩ := d.print #[] hm
    have hready : d.Ready c.machine.cleared Store.root [] :=
      ⟨hcleared, d.place_mono hleads hroot, by simp⟩
    obtain ⟨hpath, hend⟩ := path_program c.limits program hready
    exact ⟨.cons ⟨.prints #[], hleads⟩ (fits_idle hcleared) hpath, hend⟩

/-- **Every history keeps every discipline.**

**Proof sketch.** By induction on what the console is given. A program that does not run leaves the
machine alone, and one that does goes on from the machine that those before it left behind, halted
or not. -/
theorem Discipline.path_history (d : Discipline) (inputs : List Console.Input) (c : Console)
    (hm : d.Holds c.machine) (hroot : d.Place c.machine Store.root) :
    ∃ n, d.Path c.machine (c.history inputs) n := by
  induction inputs generalizing c with
  | nil => exact ⟨c.machine, .cons (.stays c.machine) (fits_idle hm) (.nil c.machine)⟩
  | cons input rest ih =>
    obtain ⟨hpath, hend⟩ := path_running hm hroot (c.program? input)
    rw [← Console.machine_take] at hpath hend
    obtain ⟨n, hrest⟩ := ih (c.take input).1 hend (d.place_mono hpath.leads hroot)
    exact ⟨n, .cons (.stays c.machine) (fits_idle hm) (hpath.append hrest)⟩

/-! ## What is seen from a scope -/

/-- What a name leads to from a scope: there the walk along parents ends, and it tells how reading
the name and assigning to it go. -/
structure Machine.Sees (m : Machine) (name : Token) (scope : ScopeId) (found : Option ScopeId) :
    Prop where
  walk : m.store.Walk name.lexeme scope found
  lookUp : ∀ place ∈ found, ∃ v, m.store.scopes[place]?.bind (·.get? name.lexeme) = some v ∧
    Run.lookUp name scope m = .ok v m
  assign : ∀ place ∈ found, ∀ v, Run.assign name scope v m =
    .ok () { m with store := m.store.define place name.lexeme v }
  undefined : found = none →
    Run.lookUp name scope m = Run.fault name (.undefinedVariable name.lexeme) m ∧
    ∀ v, Run.assign name scope v m = Run.fault name (.undefinedVariable name.lexeme) m

/-- **Looking a name up always ends.** -/
theorem Machine.sees_resolve? {m : Machine} {scope : ScopeId} (hm : m.store.Sound)
    (hlt : scope < m.store.next) (name : Token) :
    m.Sees name scope (m.store.resolve? name.lexeme scope) := by
  refine ⟨Store.walk_resolve? hm name.lexeme hlt, ?_, ?_, ?_⟩
  · intro place hp
    obtain ⟨v, hv, hget⟩ := Store.get?_of_resolve? hp
    refine ⟨v, hv, ?_⟩
    rw [Run.lookUp_apply, hget]
  · intro place hp v
    rw [Run.assign_apply, hp]
  · intro hnone
    have hget : m.store.get? scope name.lexeme = none := by simp [Store.get?, hnone]
    constructor
    · rw [Run.lookUp_apply, hget]
      rfl
    · intro v
      rw [Run.assign_apply, hnone]
      rfl

/-- What is seen from a scope goes on to be seen. -/
lemma Machine.Sees.later {m n : Machine} {name : Token} {scope place : ScopeId}
    (h : m.Sees name scope (some place)) (hm : m.store.Sound) (hn : n.store.Sound)
    (hext : m.store.Extends n.store) : ∃ place', n.Sees name scope (some place') := by
  have hlt := h.walk.lt_next
  have hfound := (Store.walk_resolve? hm name.lexeme hlt).unique h.walk
  have hsome : (n.store.resolve? name.lexeme scope).isSome := by
    apply hext.isSome_resolve?
    rw [hfound]
    rfl
  obtain ⟨place', hplace⟩ := Option.isSome_iff_exists.1 hsome
  exact ⟨place', hplace ▸ Machine.sees_resolve? hn (hext.lt_next hlt) name⟩

/-- **The scopes at all moments of any history.** On a console that starts fresh, whatever it is
given and however each run ends, the scopes make up a tree below the root at every moment, and every
function value that is bound or held has its scope and takes as many arguments as it has parameters.
Parents lead to the root from every scope and never round in a circle, so looking a name up always
ends. Nothing goes on between neighbouring moments but one step of the machine at most. From any
moment to a later one no scope is lost, no parent changes and no name is unbound, and a name that
is seen from a scope at the earlier one is seen from it at the later one, for reading it and for
assigning to it.

**Proof sketch.** That scopes make up a tree is a discipline, which every history keeps. What is seen
goes on to be seen since the walk meets the same scopes with at least the names that they had. -/
theorem Console.history_keeps_scopes (limits : Limits) (painter : Painter) (clock : Clock)
    (inputs : List Input) :
    let moments := (fresh limits painter clock).history inputs
    (∀ a ∈ moments, a.Sound ∧
      ∀ scope < a.machine.store.next,
        Relation.ReflTransGen a.machine.store.IsBelow scope Store.root ∧
        ¬ Relation.TransGen a.machine.store.IsBelow scope scope ∧
        ∀ name, ∃ found, a.machine.Sees name scope found) ∧
    (moments.IsChain fun a b => a.machine.Moves b.machine) ∧
    moments.Pairwise fun a b =>
      a.machine.store.Extends b.machine.store ∧
      ∀ name scope place, a.machine.Sees name scope (some place) →
        ∃ place', b.machine.Sees name scope (some place') := by
  intro moments
  have hinitial := Machine.sound_initial clock
  obtain ⟨n, hpath⟩ := Discipline.scopes.path_history inputs (fresh limits painter clock)
    hinitial hinitial.root_lt
  have hsound : ∀ a ∈ moments, a.Sound := by
    intro a ha
    obtain ⟨hstore, hheld, hplace⟩ := hpath.fits a ha
    exact ⟨hstore, hheld, hplace⟩
  refine ⟨?_, hpath.moves, ?_⟩
  · intro a ha
    have hstore := (hsound a ha).store
    refine ⟨hsound a ha, fun scope hlt => ⟨hstore.reaches_root hlt, fun hround => ?_, ?_⟩⟩
    · exact Nat.lt_irrefl scope (hstore.lt_of_parents hround)
    · intro name
      exact ⟨_, Machine.sees_resolve? hstore hlt name⟩
  · apply hpath.ordered.imp_of_mem
    intro a b ha hb hext
    refine ⟨hext, fun name scope place hsees => ?_⟩
    exact hsees.later (hsound a ha).store (hsound b hb).store hext

end LoxLang
