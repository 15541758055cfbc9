import LoxLang.Proofs.Console.Scopes
import LoxLang.Proofs.Store.Reach

set_option autoImplicit false

/-!
# Closures are encapsulated

Code that runs in a scope cannot touch what the scope cannot reach: no scope out of reach is changed,
and whatever can be reached from the scope afterwards could be reached before, or was made in
between. A call is bound in the same way to what its function value and its arguments can reach,
wherever it takes place.

## Main definitions

* `Store.Within` — a scope was reached before, or was made in between.
* `Store.Confined` — what a run may have done to a store.
* `Run.Encapsulated` — a run is confined, however it ends.
* `Store.Apart` — scopes of separate calls, without a function value that links them.
* `Discipline.confined` — to be confined, as a discipline.

## Main results

* `Discipline.encapsulated_of_tracks` — a run that keeps this discipline is encapsulated.
* `Console.history_encapsulates` — code that runs in any scope of any history is encapsulated.
-/

namespace LoxLang

/-! ## What a run may have done -/

namespace Store

/-- A scope could be reached from some scopes at first, or was made later on. -/
def Within (s t : Store) (roots : List ScopeId) (scope : ScopeId) : Prop :=
  s.ReachedFrom roots scope ∨ s.next ≤ scope ∧ scope < t.next

/-- What running from some scopes may have done to a store: a scope that could not be reached is as
it was, and what can be reached now could be reached before or was made in between. -/
structure Confined (s t : Store) (roots : List ScopeId) : Prop where
  kept : ∀ scope < s.next, ¬ s.ReachedFrom roots scope → t.scopes[scope]? = s.scopes[scope]?
  reached : ∀ scope, t.ReachedFrom roots scope → s.Within t roots scope

end Store

/-- However a run ends, it has done no more than running from some scopes may do, and the function
values that it gives have scopes that could be reached before or were made in between. -/
structure Run.Encapsulated {α : Type} (x : Run α) (give : α → List Value) (m : Machine)
    (roots : List ScopeId) : Prop where
  confined : m.store.Confined (x.left m).store roots
  given : ∀ a n, x m = .ok a n → ∀ v ∈ give a, ∀ scope ∈ v.scope?,
    m.store.Within n.store roots scope

/-- Two scopes under one parent, as separate calls of one function make them, of which no function
value leads from the second to the first. -/
structure Store.Apart (s : Store) (first second : ScopeId) : Prop where
  ne : first ≠ second
  siblings : ∃ parent, s.IsBelow first parent ∧ s.IsBelow second parent
  unlinked : ∀ i, s.Reaches second i → ∀ captured ∈ s.captured i,
    ¬ Relation.ReflTransGen s.IsBelow captured first

/-- Scopes that are apart cannot be reached from each other. -/
lemma Store.Apart.not_reachedFrom {s : Store} {first second : ScopeId} (h : s.Apart first second)
    (hs : s.Sound) : ¬ s.ReachedFrom [second] first := by
  rintro ⟨root, hroot, hreach⟩
  obtain rfl : root = second := by simpa using hroot
  obtain ⟨parent, hfirst, hsecond⟩ := h.siblings
  obtain ⟨i, hi, captured, hc, hbelow⟩ := hs.captured_of_reaches h.ne.symm hsecond hfirst hreach
  exact h.unlinked i hi captured hc hbelow

/-! ## The discipline -/

section Confinement

variable {s : Store} {roots : List ScopeId} {scope : ScopeId} {m : Machine} {v : Value}

/-- A scope could be reached at first, or was not there yet. -/
def Store.Inside (s : Store) (roots : List ScopeId) (scope : ScopeId) : Prop :=
  s.ReachedFrom roots scope ∨ s.next ≤ scope

/-- A machine has gone on from a store without changing any scope but those inside, from which no
link leads out. -/
structure Machine.Keeps (m : Machine) (s : Store) (roots : List ScopeId) : Prop where
  sound : m.store.Sound
  grown : s.Extends m.store
  kept : ∀ scope, ¬ s.Inside roots scope → m.store.scopes[scope]? = s.scopes[scope]?
  closed : ∀ i j, s.Inside roots i → m.store.Links i j → s.Inside roots j

/-- The scope of a value, if it is a function value, is inside. -/
def Value.Stays (v : Value) (s : Store) (roots : List ScopeId) : Prop :=
  ∀ scope ∈ v.scope?, s.Inside roots scope

namespace Machine.Keeps

/-- A store keeps to itself. -/
lemma refl (hm : m.store.Sound) (roots : List ScopeId) : m.Keeps m.store roots := by
  refine ⟨hm, .refl _, fun _ _ => rfl, fun i j hi hl => ?_⟩
  rcases hi with hi | hi
  · exact .inl (hi.links hl)
  · exact absurd (hl.lt_next) (Nat.not_lt.2 hi)

/-- Names are found inside. -/
lemma inside_resolve? (h : m.Keeps s roots) (hs : s.Inside roots scope) {name : String}
    {place : ScopeId} (hr : m.store.resolve? name scope = some place) : s.Inside roots place := by
  have hbelow := Store.below_of_resolve? hr
  clear hr
  induction hbelow with
  | refl => exact hs
  | tail _ hstep ih => exact h.closed _ _ ih (.parent hstep)

/-- Values that are looked up stay. -/
lemma stays_get? (h : m.Keeps s roots) (hs : s.Inside roots scope) {name : String}
    (hv : m.store.get? scope name = some v) : v.Stays s roots := by
  obtain ⟨place, a, hr, ha, hmem⟩ := Store.mem_of_get? hv
  intro target ht
  have hcaptured : target ∈ m.store.captured place :=
    Store.mem_captured_iff.2 ⟨a, ha, _, hmem, ht⟩
  exact h.closed _ _ (h.inside_resolve? hs hr) (.captured hcaptured)

/-- Binding a value that stays, inside. -/
lemma define (h : m.Keeps s roots) (hs : s.Inside roots scope) (hv : v.Sound m.store)
    (hstays : v.Stays s roots) (name : String) :
    ({ m with store := m.store.define scope name v } : Machine).Keeps s roots := by
  refine ⟨Store.sound_define h.sound hv scope name, ?_, fun i hi => ?_, fun i j hi hl => ?_⟩
  · exact h.grown.trans (Store.extends_define m.store scope name v)
  · have hne : scope ≠ i := by
      rintro rfl
      exact hi hs
    rw [Store.getElem?_define, if_neg hne]
    exact h.kept i hi
  · rcases Store.links_define hl with hl | ⟨-, ht⟩
    · exact h.closed i j hi hl
    · exact hstays j ht

/-- Making a scope, inside. -/
lemma child (h : m.Keeps s roots) (hlt : scope < m.store.next) (hs : s.Inside roots scope) :
    ({ m with store := m.store.child scope } : Machine).Keeps s roots ∧
      s.Inside roots m.store.next := by
  have hle : s.next ≤ m.store.next := h.grown.next_le
  refine ⟨⟨Store.sound_child h.sound hlt, ?_, fun i hi => ?_, fun i j hi hl => ?_⟩, .inr hle⟩
  · exact h.grown.trans (Store.extends_child m.store scope)
  · have hne : i ≠ m.store.next := by
      rintro rfl
      exact hi (.inr hle)
    rw [Store.getElem?_child, if_neg hne]
    exact h.kept i hi
  · rcases Store.links_child hl with hl | ⟨-, rfl⟩
    · exact h.closed i j hi hl
    · exact hs

/-- What has kept inside is confined. -/
lemma confined (h : m.Keeps s roots) (hroots : ∀ root ∈ roots, root < s.next) :
    s.Confined m.store roots := by
  constructor
  · intro i hlt hi
    apply h.kept i
    rintro (hr | hle)
    · exact hi hr
    · exact absurd hlt (Nat.not_lt.2 hle)
  · intro i hr
    have hinside : s.Inside roots i ∧ i < m.store.next := by
      apply hr.invariant (P := fun i => s.Inside roots i ∧ i < m.store.next)
      · intro root hroot
        exact ⟨.inl ⟨root, hroot, .refl⟩, h.grown.lt_next (hroots root hroot)⟩
      · intro i j hi hl
        exact ⟨h.closed i j hi.1 hl, h.sound.lt_of_links hl⟩
    exact hinside.1.imp_right fun hle => ⟨hle, hinside.2⟩

end Machine.Keeps

/-- To keep inside what could be reached from some scopes at first, as a discipline. -/
def Discipline.confined (s : Store) (roots : List ScopeId) : Discipline where
  Holds m := m.Keeps s roots
  Leads m n := m.store.Extends n.store
  Place m scope := scope < m.store.next ∧ s.Inside roots scope
  Sound m v := v.Sound m.store ∧ v.Stays s roots
  refl := Discipline.scopes.refl
  trans := Discipline.scopes.trans
  place_mono h hs := ⟨h.lt_next hs.1, hs.2⟩
  sound_mono h hv := ⟨h.value_sound hv.1, hv.2⟩
  sound_plain _ v h := by
    refine ⟨fun c hc => absurd hc (h c), fun scope hscope => ?_⟩
    cases v with
    | closure c => exact absurd rfl (h c)
    | nil | bool | number | string | native => simp [Value.scope?] at hscope
  sound_get hm hs h := ⟨hm.sound.get? h, hm.stays_get? hs.2 h⟩
  place_resolve hm hs h := by
    obtain ⟨a, ha, -⟩ := Store.binds_of_resolve? h
    exact ⟨Store.lt_next_iff.2 ⟨a, ha⟩, hm.inside_resolve? hs.2 h⟩
  place_closure _ hc := ⟨(hc.1 _ rfl).scope_lt, hc.2 _ rfl⟩
  define name hm hs hv := ⟨hm.define hs.2 hv.1 hv.2 name, Store.extends_define _ _ name _⟩
  child := by
    intro m scope hm hs
    obtain ⟨hchild, hinside⟩ := hm.child hs.1 hs.2
    refine ⟨hchild, Store.extends_child m.store scope, ?_, hinside⟩
    rw [Store.next_child]
    exact Nat.lt_succ_self _
  close := by
    intro m scope name parameters body hm hs
    refine ⟨⟨hm.sound, hm.grown, hm.kept, hm.closed⟩, .refl m.store, ?_, ?_⟩
    · rintro c hc
      obtain rfl : _ = c := Value.closure.inj hc
      exact ⟨hs.1, rfl⟩
    · rintro place ⟨⟩
      exact hs.2
  print _ hm := ⟨⟨hm.sound, hm.grown, hm.kept, hm.closed⟩, .refl _⟩
  tick hm := ⟨⟨hm.sound, hm.grown, hm.kept, hm.closed⟩, .refl _⟩

/-- The scope of a sound function value is there. -/
lemma Value.Sound.lt_next (hv : v.Sound s) (hscope : v.scope? = some scope) : scope < s.next := by
  cases v with
  | closure c =>
    obtain rfl : c.scope = scope := by simpa [Value.scope?] using hscope
    exact (hv c rfl).scope_lt
  | nil | bool | number | string | native => simp [Value.scope?] at hscope

/-- **A run that keeps inside is encapsulated.** -/
theorem Discipline.encapsulated_of_tracks {α : Type} {x : Run α} {give : α → List Value}
    {E : Machine → Machine → Prop} {Q : Machine → α → Prop} {moments : List Moment}
    (hroots : ∀ root ∈ roots, root < m.store.next)
    (h : (confined m.store roots).Tracks E Q x m moments)
    (hgive : ∀ a n, Q n a → ∀ v ∈ give a, (confined m.store roots).Sound n v) :
    x.Encapsulated give m roots := by
  cases h with
  | @ended _ n a hr _ _ hn ha =>
    refine ⟨?_, fun a' n' hr' v hv scope hscope => ?_⟩
    · simpa [Run.left, hr] using hn.confined hroots
    · obtain ⟨rfl, rfl⟩ : a = a' ∧ n = n' := by simpa [hr] using hr'
      obtain ⟨hsound, hstays⟩ := hgive a n ha v hv
      exact (hstays scope hscope).imp_right fun hle => ⟨hle, hsound.lt_next hscope⟩
  | halted hr _ hn =>
    refine ⟨?_, fun a n hr' => ?_⟩
    · simpa [Run.left, hr] using hn.confined hroots
    · simp [hr] at hr'

/-- A machine is ready to keep inside what can be reached from a scope and some values. -/
lemma Discipline.ready_confined (hm : m.store.Sound) (hlt : scope < m.store.next)
    (hmem : scope ∈ roots) : (confined m.store roots).Ready m scope [] :=
  ⟨.refl hm roots, ⟨hlt, .inl ⟨scope, hmem, .refl⟩⟩, by simp⟩

/-- Values stay inside what can be reached from them. -/
lemma Discipline.sound_confined {values : List Value} (hv : v.Sound m.store) (hmem : v ∈ values) :
    (confined m.store (values.filterMap Value.scope?)).Sound m v := by
  refine ⟨hv, fun scope hscope => .inl ⟨scope, ?_, .refl⟩⟩
  exact List.mem_filterMap.2 ⟨v, hmem, hscope⟩

end Confinement

/-! ## Code in any scope -/

section Code

variable {m : Machine} {scope : ScopeId} (hm : m.store.Sound) (rounds depth : Nat)

include hm

/-- **Expressions are encapsulated.** -/
theorem Store.Sound.evaluate_encapsulated (hlt : scope < m.store.next) (e : Expr) :
    (evaluate rounds depth scope e).Encapsulated (fun v => [v]) m [scope] := by
  have htracks := (Discipline.evaluates_executes (.confined m.store [scope]) rounds depth).1
    scope e m [] (Discipline.ready_confined hm hlt (by simp))
  refine Discipline.encapsulated_of_tracks (by simpa using hlt) htracks fun v n hv w hw => ?_
  obtain rfl : w = v := by simpa using hw
  exact hv

/-- **Statements are encapsulated.** -/
theorem Store.Sound.execute_encapsulated (hlt : scope < m.store.next) (st : Stmt) :
    (execute rounds depth scope st).Encapsulated Completion.held m [scope] := by
  have htracks := (Discipline.evaluates_executes (.confined m.store [scope]) rounds depth).2
    scope st m [] (Discipline.ready_confined hm hlt (by simp))
  exact Discipline.encapsulated_of_tracks (by simpa using hlt) htracks fun _ _ hc => hc

/-- **Calls of function values are encapsulated**, wherever they take place. -/
theorem Store.Sound.call_encapsulated (f : Closure) (paren : Token) (arguments : List Value)
    (hvs : ∀ v ∈ .closure f :: arguments, v.Sound m.store) :
    (Run.call (execute rounds depth) (.closure f) paren arguments).Encapsulated (fun v => [v]) m
      ((.closure f :: arguments).filterMap Value.scope?) := by
  have hroots : ∀ root ∈ (Value.closure f :: arguments).filterMap Value.scope?,
      root < m.store.next := by
    intro root hroot
    obtain ⟨v, hv, hscope⟩ := List.mem_filterMap.1 hroot
    exact (hvs v hv).lt_next hscope
  have hf : f.scope ∈ (Value.closure f :: arguments).filterMap Value.scope? := by
    simp [Value.scope?]
  have hready := Discipline.ready_confined hm (hroots f.scope hf) hf
  have hsound : ∀ v ∈ .closure f :: arguments, (Discipline.confined m.store
      ((.closure f :: arguments).filterMap Value.scope?)).Sound m v := fun v hv =>
    Discipline.sound_confined (hvs v hv) hv
  have htracks := Discipline.tracks_call (Discipline.evaluates_executes _ rounds depth).2 paren
    hready (hsound _ List.mem_cons_self) fun v hv => hsound v (List.mem_cons_of_mem _ hv)
  refine Discipline.encapsulated_of_tracks hroots htracks fun v n hv w hw => ?_
  obtain rfl : w = v := by simpa using hw
  exact hv

end Code

/-- **Code that runs in any scope of any history is encapsulated.** At every moment of any history
on a console that starts fresh, an expression or a statement that runs in a scope, however it ends,
leaves every scope as it was that the scope cannot reach; whatever the scope can reach afterwards,
and the scope of the function value that comes out, it could reach before, or it was made in between.
A call of a function value, wherever it takes place, is bound in the same way to what the scopes of
the function value and of its arguments can reach. So scopes that were made by separate calls of one
function cannot disturb each other unless function values link them.

**Proof sketch.** To keep inside what could be reached at first is a discipline: names are found
along parents, values are bound where their names are found, and binding a name or making a scope
inside adds links to what is inside only. Every run keeps every discipline. -/
theorem Console.history_encapsulates (limits : Limits) (painter : Painter) (clock : Clock)
    (inputs : List Input) {a : Moment} (ha : a ∈ (fresh limits painter clock).history inputs)
    (rounds depth : Nat) :
    (∀ scope < a.machine.store.next,
      (∀ e, (evaluate rounds depth scope e).Encapsulated (fun v => [v]) a.machine [scope]) ∧
      ∀ st, (LoxLang.execute rounds depth scope st).Encapsulated Completion.held a.machine
        [scope]) ∧
    (∀ (f : Closure) (arguments : List Value) (paren : Token),
      (∀ v ∈ .closure f :: arguments, v.Sound a.machine.store) →
      (Run.call (LoxLang.execute rounds depth) (.closure f) paren arguments).Encapsulated
        (fun v => [v]) a.machine ((.closure f :: arguments).filterMap Value.scope?)) ∧
    ∀ first second, a.machine.store.Apart first second →
      (∀ e, ((evaluate rounds depth second e).left a.machine).store.scopes[first]? =
        a.machine.store.scopes[first]?) ∧
      ∀ st, ((LoxLang.execute rounds depth second st).left a.machine).store.scopes[first]? =
        a.machine.store.scopes[first]? := by
  have hinitial := Machine.sound_initial clock
  obtain ⟨n, hpath⟩ := Discipline.scopes.path_history inputs (fresh limits painter clock)
    hinitial hinitial.root_lt
  have hsound : a.machine.store.Sound := (hpath.fits a ha).holds
  refine ⟨fun scope hlt => ⟨?_, ?_⟩, ?_, fun first second hapart => ?_⟩
  · exact hsound.evaluate_encapsulated rounds depth hlt
  · exact hsound.execute_encapsulated rounds depth hlt
  · exact fun f arguments paren hvs => hsound.call_encapsulated rounds depth f paren arguments hvs
  · obtain ⟨parent, hfirst, hsecond⟩ := hapart.siblings
    have hunreached := hapart.not_reachedFrom hsound
    have hlt : first < a.machine.store.next := (Store.Links.parent hfirst).lt_next
    have hlt' : second < a.machine.store.next := (Store.Links.parent hsecond).lt_next
    constructor
    · intro e
      exact (hsound.evaluate_encapsulated rounds depth hlt' e).confined.kept first hlt hunreached
    · intro st
      exact (hsound.execute_encapsulated rounds depth hlt' st).confined.kept first hlt hunreached

/-- After two calls of `f`, whose scopes nothing keeps, an assignment in the scope of the second call
leaves that of the first as it was. -/
theorem Console.history_encapsulates_twoCalls :
    let c := fresh ⟨30, 30, 5, 9⟩ .plain (fun _ => 0)
    let program := Input.program "fun f(n) {} f(1); f(2);"
    let m := (c.take program).1.machine
    let assigning : Stmt := .expression (.assign ⟨.identifier, "n", 1⟩ (.literal .nil))
    ⟨.idle, m, []⟩ ∈ c.history [program] ∧ m.store.Apart 1 2 ∧
      ((LoxLang.execute 5 30 2 assigning).left m).store.scopes[1]? = m.store.scopes[1]? := by
  intro c program m assigning
  have hparents : [0, 1, 2].map m.store.parent? = [none, some 0, some 0] := by decide +kernel
  have hcaptured : [0, 2].map m.store.captured = [[0], []] := by decide +kernel
  simp only [List.map_cons, List.map_nil, List.cons.injEq, and_true] at hparents hcaptured
  obtain ⟨hroot, hfirst, hsecond⟩ := hparents
  have hapart : m.store.Apart 1 2 := by
    refine ⟨by decide, ⟨0, hfirst, hsecond⟩, fun i hi captured hc hbelow => ?_⟩
    have hplace : i = 0 ∨ i = 2 := by
      have hreach : m.store.ReachedFrom [2] i := ⟨2, List.mem_singleton.2 rfl, hi⟩
      apply hreach.invariant (P := fun i => i = 0 ∨ i = 2)
      · exact fun root hroot => .inr (List.mem_singleton.1 hroot)
      · rintro i j (rfl | rfl) (hp | hc)
        · simp [Store.IsBelow, hroot] at hp
        · exact .inl (by simpa [hcaptured.1] using hc)
        · exact .inl (by simpa [Store.IsBelow, hsecond, eq_comm] using hp)
        · simp [hcaptured.2] at hc
    obtain rfl : captured = 0 := by
      rcases hplace with rfl | rfl
      · simpa [hcaptured.1] using hc
      · simp [hcaptured.2] at hc
    rcases hbelow.cases_head with heq | ⟨j, hj, -⟩
    · exact absurd heq (by decide)
    · simp [Store.IsBelow, hroot] at hj
  have ha : (⟨.idle, m, []⟩ : Moment) ∈ c.history [program] := by simp [history, m]
  exact ⟨ha, hapart, ((history_encapsulates ⟨30, 30, 5, 9⟩ .plain (fun _ => 0) [program] ha 5 30).2.2 1 2
    hapart).2 assigning⟩

end LoxLang
