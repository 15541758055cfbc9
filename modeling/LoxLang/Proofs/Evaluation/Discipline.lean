import LoxLang.Proofs.Evaluation.Trace

set_option autoImplicit false

/-!
# Disciplines

A discipline says what holds of a machine, how a machine may become another, which scopes may be used
and which values may turn up. A run keeps it if all its moments do; runs that keep a discipline may
be put together.

## Main definitions

* `Discipline` — properties of machines, scopes and values that every step keeps.
* `Machine.Moves` — one step of a machine at most.
* `Discipline.Path` — a way through moments that keep a discipline, one step at a time.
* `Discipline.Tracks` — a run and the list of its moments keep a discipline.

## Main results

* `Discipline.Path.moves`, `Discipline.Path.ordered` — moments on a way are one step apart, and each
  leads to all later ones.
* `Discipline.Tracks.bind` — one run after another.
* `Discipline.Tracks.framed` — what begins, goes on and ends.
-/

namespace LoxLang

/-- Properties that every step of a run keeps, if it uses scopes and values that have them. -/
structure Discipline where
  /-- What holds of a machine. -/
  Holds : Machine → Prop
  /-- How a machine may become another. -/
  Leads : Machine → Machine → Prop
  /-- Which scopes may be used. -/
  Place : Machine → ScopeId → Prop
  /-- Which values may turn up. -/
  Sound : Machine → Value → Prop
  refl : ∀ m, Leads m m
  trans : ∀ {m n k}, Leads m n → Leads n k → Leads m k
  place_mono : ∀ {m n scope}, Leads m n → Place m scope → Place n scope
  sound_mono : ∀ {m n v}, Leads m n → Sound m v → Sound n v
  /-- Values that are no function values may always turn up. -/
  sound_plain : ∀ m v, (∀ c, v ≠ .closure c) → Sound m v
  sound_get : ∀ {m scope name v}, Holds m → Place m scope →
    m.store.get? scope name = some v → Sound m v
  place_resolve : ∀ {m scope name place}, Holds m → Place m scope →
    m.store.resolve? name scope = some place → Place m place
  place_closure : ∀ {m c}, Holds m → Sound m (.closure c) → Place m c.scope
  define : ∀ {m scope v} (name : String), Holds m → Place m scope → Sound m v →
    Holds { m with store := m.store.define scope name v } ∧
      Leads m { m with store := m.store.define scope name v }
  child : ∀ {m scope}, Holds m → Place m scope →
    Holds { m with store := m.store.child scope } ∧
      Leads m { m with store := m.store.child scope } ∧
      Place { m with store := m.store.child scope } m.store.next
  close : ∀ {m scope} (name : Token) (parameters : List Token) (body : Slots), Holds m →
    Place m scope → Holds { m with nextIdentity := m.nextIdentity + 1 } ∧
      Leads m { m with nextIdentity := m.nextIdentity + 1 } ∧
      Sound { m with nextIdentity := m.nextIdentity + 1 }
        (.closure ⟨m.nextIdentity, name, parameters, body, scope⟩)
  print : ∀ {m} (output : Array String), Holds m →
    Holds { m with output := output } ∧ Leads m { m with output := output }
  tick : ∀ {m}, Holds m →
    Holds { m with clock := m.clock.later } ∧ Leads m { m with clock := m.clock.later }

/-- One step of a machine at most. -/
inductive Machine.Moves (m : Machine) : Machine → Prop
  | stays : m.Moves m
  | binds (scope : ScopeId) (name : String) (v : Value) :
    m.Moves { m with store := m.store.define scope name v }
  | opens (parent : ScopeId) : m.Moves { m with store := m.store.child parent }
  | closes : m.Moves { m with nextIdentity := m.nextIdentity + 1 }
  | prints (output : Array String) : m.Moves { m with output := output }
  | ticks : m.Moves { m with clock := m.clock.later }

namespace Run

variable {α β : Type} {x : Run α} {m n : Machine}

lemma next_of_ok {a : α} (h : x m = .ok a n) (follow : α → Machine → List Moment) :
    x.next m follow = follow a n := by
  simp [next, h]

lemma next_of_error {halt : Halt} (h : x m = .error halt n) (follow : α → Machine → List Moment) :
    x.next m follow = [] := by
  simp [next, h]

lemma bind_of_ok {a : α} (h : x m = .ok a n) (k : α → Run β) : (x >>= k) m = k a n := by
  rw [bind_apply, h]

lemma bind_of_error {halt : Halt} (h : x m = .error halt n) (k : α → Run β) :
    (x >>= k) m = .error halt n := by
  rw [bind_apply, h]

/-- What follows may as well be nothing. -/
@[simp] lemma next_nil (x : Run α) (m : Machine) : (x.next m fun _ _ => []) = [] := by
  unfold next
  split <;> rfl

end Run

namespace Discipline

variable (d : Discipline) {α β : Type}

/-- A moment keeps a discipline. -/
structure Fits (a : Moment) : Prop where
  holds : d.Holds a.machine
  held : ∀ v ∈ a.held, d.Sound a.machine v
  place : ∀ scope ∈ a.phase.scope?, d.Place a.machine scope

/-- One step at most, which keeps a discipline. -/
structure Step (m n : Machine) : Prop where
  moves : m.Moves n
  leads : d.Leads m n

/-- A way from one machine to another through moments that keep a discipline, with one step at most
from each to the next. -/
inductive Path : Machine → List Moment → Machine → Prop
  | nil (m : Machine) : Path m [] m
  | cons {m n : Machine} {a : Moment} {rest : List Moment} (hstep : d.Step m a.machine)
    (ha : d.Fits a) (hrest : Path a.machine rest n) : Path m (a :: rest) n

/-- A run and the list of its moments keep a discipline. The moments are a way to where the run is
halted, or to a machine from which it is as close as `E` says to where it ends, and `Q` holds of its
value there. -/
inductive Tracks (E : Machine → Machine → Prop) (Q : Machine → α → Prop) (x : Run α) (m : Machine)
    (moments : List Moment) : Prop
  | ended {k n : Machine} {a : α} (hr : x m = .ok a n) (hpath : d.Path m moments k) (hend : E k n)
    (hn : d.Holds n) (ha : Q n a)
  | halted {n : Machine} {halt : Halt} (hr : x m = .error halt n) (hpath : d.Path m moments n)
    (hn : d.Holds n)

/-- A machine is ready to go on in a scope, with some values held. -/
structure Ready (m : Machine) (scope : ScopeId) (held : List Value) : Prop where
  holds : d.Holds m
  place : d.Place m scope
  held : ∀ v ∈ held, d.Sound m v

variable {d} {E : Machine → Machine → Prop} {Q : Machine → α → Prop} {R : Machine → β → Prop}
  {x : Run α} {k : α → Run β} {m n : Machine} {moments : List Moment} {scope : ScopeId}
  {held : List Value}

lemma Step.stays (m : Machine) : d.Step m m := ⟨.stays, d.refl m⟩

/-! ## Ways -/

namespace Path

lemma append {k : Machine} {more : List Moment} (h : d.Path m moments n) (h' : d.Path n more k) :
    d.Path m (moments ++ more) k := by
  induction h with
  | nil => exact h'
  | cons hstep ha _ ih => exact .cons hstep ha (ih h')

/-- All moments on the way keep the discipline. -/
lemma fits (h : d.Path m moments n) : ∀ a ∈ moments, d.Fits a := by
  induction h with
  | nil => simp
  | cons _ ha _ ih =>
    rintro b (_ | ⟨_, hb⟩)
    · exact ha
    · exact ih b hb

/-- The way leads to all moments on it. -/
lemma leads_mem (h : d.Path m moments n) : ∀ a ∈ moments, d.Leads m a.machine := by
  induction h with
  | nil => simp
  | cons hstep _ _ ih =>
    rintro b (_ | ⟨_, hb⟩)
    · exact hstep.leads
    · exact d.trans hstep.leads (ih b hb)

/-- The way leads to its end. -/
lemma leads (h : d.Path m moments n) : d.Leads m n := by
  induction h with
  | nil => exact d.refl _
  | cons hstep _ _ ih => exact d.trans hstep.leads ih

/-- Every moment on the way leads to every later one. -/
lemma ordered (h : d.Path m moments n) :
    moments.Pairwise fun a b => d.Leads a.machine b.machine := by
  induction h with
  | nil => exact .nil
  | cons _ _ hrest ih => exact List.pairwise_cons.2 ⟨hrest.leads_mem, ih⟩

/-- Nothing is left out on the way: there is one step at most from each moment to the next. -/
lemma moves (h : d.Path m moments n) :
    moments.IsChain fun a b => a.machine.Moves b.machine := by
  induction h with
  | nil => exact .nil
  | cons _ _ hrest ih =>
    cases hrest with
    | nil => exact .singleton _
    | cons hstep _ _ => exact .cons_cons hstep.moves ih

end Path

namespace Ready

/-- What is ready at one machine is so at a later one. -/
lemma later (h : d.Ready m scope held) (hn : d.Holds n) (hleads : d.Leads m n) :
    d.Ready n scope held :=
  ⟨hn, d.place_mono hleads h.place, fun v hv => d.sound_mono hleads (h.held v hv)⟩

/-- Another value is held. -/
lemma hold {v : Value} (h : d.Ready m scope held) (hv : d.Sound m v) :
    d.Ready m scope (v :: held) := by
  refine ⟨h.holds, h.place, ?_⟩
  rintro w (_ | ⟨_, hw⟩)
  · exact hv
  · exact h.held w hw

/-- More values are held. -/
lemma holdAll {values : List Value} (h : d.Ready m scope held)
    (hvs : ∀ v ∈ values, d.Sound m v) : d.Ready m scope (values ++ held) := by
  refine ⟨h.holds, h.place, fun w hw => ?_⟩
  rcases List.mem_append.1 hw with hw | hw
  · exact hvs w hw
  · exact h.held w hw

/-- Another scope is at work. -/
lemma within {inner : ScopeId} (h : d.Ready m scope held) (hp : d.Place m inner) :
    d.Ready m inner held := ⟨h.holds, hp, h.held⟩

/-- The scope at work may be used. -/
lemma place_mem (h : d.Ready m scope held) : ∀ place ∈ some scope, d.Place m place := by
  rintro place ⟨⟩
  exact h.place

/-- What is ready makes a moment that keeps the discipline. -/
lemma fits (h : d.Ready m scope held) {phase : Phase}
    (hphase : ∀ place ∈ phase.scope?, d.Place m place) : d.Fits ⟨phase, m, held⟩ :=
  ⟨h.holds, h.held, hphase⟩

end Ready

/-! ## Runs put together -/

namespace Tracks

/-- A run that ends on the way ends a step from it at most. -/
lemma loose (h : d.Tracks Eq Q x m moments) : d.Tracks d.Step Q x m moments := by
  cases h with
  | ended hr hpath hend hn ha => exact .ended hr hpath (hend ▸ .stays _) hn ha
  | halted hr hpath hn => exact .halted hr hpath hn

/-- **One run after another.** -/
theorem bind {follow : α → Machine → List Moment} (hx : d.Tracks Eq Q x m moments)
    (hk : ∀ a n, d.Holds n → d.Leads m n → Q n a → d.Tracks E R (k a) n (follow a n)) :
    d.Tracks E R (x >>= k) m (moments ++ x.next m follow) := by
  cases hx with
  | @ended _ n a hr hpath hend hn ha =>
    subst hend
    rw [Run.next_of_ok hr]
    have hbind : (x >>= k) m = k a _ := Run.bind_of_ok hr k
    cases hk a _ hn hpath.leads ha with
    | ended hr' hpath' hend' hn' ha' =>
      exact .ended (hbind.trans hr') (hpath.append hpath') hend' hn' ha'
    | halted hr' hpath' hn' => exact .halted (hbind.trans hr') (hpath.append hpath') hn'
  | halted hr hpath hn =>
    rw [Run.next_of_error hr, List.append_nil]
    exact .halted (Run.bind_of_error hr k) hpath hn

/-- One run after another, where the second is noted nowhere. -/
lemma bind_quiet (hx : d.Tracks Eq Q x m moments)
    (hk : ∀ a n, d.Holds n → d.Leads m n → Q n a → d.Tracks E R (k a) n []) :
    d.Tracks E R (x >>= k) m moments := by
  have h := hx.bind hk
  rwa [Run.next_nil, List.append_nil] at h

/-- What a discipline tells of a run that is not halted. -/
lemma of_ok {a : α} (h : d.Tracks Eq Q x m moments) (hr : x m = .ok a n) :
    d.Holds n ∧ d.Leads m n ∧ Q n a := by
  cases h with
  | ended hr' hpath hend hn ha =>
    obtain ⟨rfl, rfl⟩ := EStateM.Result.ok.inj (hr.symm.trans hr')
    exact ⟨hn, hend ▸ hpath.leads, ha⟩
  | halted hr' => cases hr.symm.trans hr'

/-- A run whose value is only turned into another. -/
lemma map {f : α → β} (hx : d.Tracks E Q x m moments) (hf : ∀ a n, Q n a → R n (f a)) :
    d.Tracks E R (do let a ← x; return f a) m moments := by
  cases hx with
  | ended hr hpath hend hn ha => exact .ended (Run.bind_of_ok hr _) hpath hend hn (hf _ _ ha)
  | halted hr hpath hn => exact .halted (Run.bind_of_error hr _) hpath hn

/-- The first moment of a run. -/
lemma cons {phase : Phase} (hx : d.Tracks E Q x m moments) (ha : d.Fits ⟨phase, m, held⟩) :
    d.Tracks E Q x m (⟨phase, m, held⟩ :: moments) := by
  cases hx with
  | ended hr hpath hend hn hq => exact .ended hr (.cons (.stays m) ha hpath) hend hn hq
  | halted hr hpath hn => exact .halted hr (.cons (.stays m) ha hpath) hn

/-- One step and a run after it, with a moment between them. -/
lemma step_bind {phase : α → Phase} {keep : α → List Value} {follow : α → Machine → List Moment}
    (hx : d.Tracks d.Step Q x m [])
    (hk : ∀ a n, d.Holds n → d.Leads m n → Q n a →
      d.Fits ⟨phase a, n, keep a⟩ ∧ d.Tracks E R (k a) n (follow a n)) :
    d.Tracks E R (x >>= k) m (x.next m fun a n => ⟨phase a, n, keep a⟩ :: follow a n) := by
  cases hx with
  | @ended _ n a hr hpath hend hn ha =>
    obtain ⟨⟩ := hpath
    rw [Run.next_of_ok hr]
    have hbind : (x >>= k) m = k a n := Run.bind_of_ok hr k
    obtain ⟨hfits, h⟩ := hk a n hn hend.leads ha
    cases h with
    | ended hr' hpath' hend' hn' ha' =>
      exact .ended (hbind.trans hr') (.cons hend hfits hpath') hend' hn' ha'
    | halted hr' hpath' hn' => exact .halted (hbind.trans hr') (.cons hend hfits hpath') hn'
  | halted hr hpath hn =>
    rw [Run.next_of_error hr]
    exact .halted (Run.bind_of_error hr k) hpath hn

/-- **What begins, goes on and ends.** -/
lemma framed {begun ended : Phase} {give : α → List Value} (hx : d.Tracks d.Step Q x m moments)
    (h : d.Ready m scope held) (hbegun : ∀ place ∈ begun.scope?, d.Place m place)
    (hended : ended.scope? = none) (hgive : ∀ a n, Q n a → ∀ v ∈ give a, d.Sound n v) :
    d.Tracks Eq Q x m (x.framed begun ended give moments m held) := by
  apply cons _ (h.fits hbegun)
  cases hx with
  | @ended k n a hr hpath hend hn ha =>
    have hleads := d.trans hpath.leads hend.leads
    have hfits : d.Fits ⟨ended, n, give a ++ held⟩ := by
      apply ((h.later hn hleads).holdAll (hgive a n ha)).fits
      simp [hended]
    rw [Run.next_of_ok hr]
    exact .ended hr (hpath.append (.cons hend hfits (.nil n))) rfl hn ha
  | halted hr hpath hn =>
    rw [Run.next_of_error hr, List.append_nil]
    exact .halted hr hpath hn

end Tracks

/-- A step that gives a value. -/
lemma tracks_of_ok {a : α} (hr : x m = .ok a n) (hend : E m n) (hn : d.Holds n) (ha : Q n a) :
    d.Tracks E Q x m [] := .ended hr (.nil m) hend hn ha

/-- A step that halts the run. -/
lemma tracks_of_error {halt : Halt} (hr : x m = .error halt m) (hm : d.Holds m) :
    d.Tracks E Q x m [] := .halted hr (.nil m) hm

lemma tracks_pure {a : α} (hm : d.Holds m) (ha : Q m a) : d.Tracks Eq Q (pure a) m [] :=
  tracks_of_ok rfl rfl hm ha

lemma tracks_throw (hm : d.Holds m) (halt : Halt) : d.Tracks E Q (throw halt) m [] :=
  tracks_of_error rfl hm

end Discipline

end LoxLang
