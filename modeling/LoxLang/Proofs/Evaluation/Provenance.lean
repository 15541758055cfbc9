import Mathlib.Data.Set.Insert
import LoxLang.Proofs.Evaluation.Discipline
import LoxLang.Proofs.Store.Shape

set_option autoImplicit false

/-!
# Where function values come from

A function value is at hand at a moment if it is bound in some scope, or held by an evaluation that
waits to use it. Nothing but the declaration of a function brings a new one to hand. All else hands
on what was at hand before, as it is.

## Main definitions

* `Moment.functions` — the function values that are at hand at a moment.
* `Moment.declaration` — the three moments of the declaration of a function.
* `HandedOn` — moments that hand function values on.
* `MadeAt` — a function value is made by a declaration among some moments.
* `Run.Hands` — a run and the list of its moments hand function values on.

## Main results

* `HandedOn.exists_madeAt` — what is at hand was at hand before, or was made.
* `HandedOn.madeAt` — every declaration makes a function value.
* `Run.Hands.bind`, `Run.Hands.framed` — one run after another, and what begins, goes on and ends.
-/

namespace LoxLang

/-! ## Function values at hand -/

/-- A value is bound in some scope. -/
def Machine.Binds (m : Machine) (v : Value) : Prop :=
  ∃ (scope : ScopeId) (a : Scope), m.store.scopes[scope]? = some a ∧ ∃ b ∈ a.bindings, b.2 = v

/-- The function values that are bound, or among some values that are held. -/
def Machine.functions (m : Machine) (held : List Value) : Set Closure :=
  { c | m.Binds (.closure c) ∨ .closure c ∈ held }

/-- A value is at hand at a moment: it is bound in some scope, or held. -/
def Moment.Has (a : Moment) (v : Value) : Prop := a.machine.Binds v ∨ v ∈ a.held

/-- The function values that are at hand at a moment. -/
def Moment.functions (a : Moment) : Set Closure := a.machine.functions a.held

namespace Machine

variable {m n : Machine} {held more : List Value} {K : Set Closure} {v : Value}

/-- No other function values are at hand if no others are held. -/
lemma functions_subset (h : ∀ c, Value.closure c ∈ held → Value.closure c ∈ more) :
    m.functions held ⊆ m.functions more := fun c hc => hc.imp_right (h c)

lemma functions_mono (h : held ⊆ more) : m.functions held ⊆ m.functions more :=
  functions_subset fun _ hc => h hc

/-- What is bound in a machine with one name bound anew was bound before, but for the value. -/
lemma Binds.of_define {scope : ScopeId} {name : String} {w : Value}
    (h : Binds { m with store := m.store.define scope name v } w) : m.Binds w ∨ w = v := by
  obtain ⟨place, a, ha, b, hb, rfl⟩ := h
  rw [Store.getElem?_define] at ha
  split at ha
  · obtain ⟨a, ha', rfl⟩ := Option.map_eq_some_iff.1 ha
    rcases Store.mem_bind hb with hval | hmem
    · exact .inr hval
    · exact .inl ⟨place, a, ha', b, hmem, rfl⟩
  · exact .inl ⟨place, a, ha, b, hb, rfl⟩

/-- Binding a name to a value that is held brings no new function value to hand. -/
lemma functions_define (hv : ∀ c, v = .closure c → v ∈ held) (scope : ScopeId) (name : String) :
    functions { m with store := m.store.define scope name v } held ⊆ m.functions held := by
  rintro c (hc | hc)
  · rcases hc.of_define with hc | hc
    · exact .inl hc
    · exact .inr (hc ▸ hv c hc.symm)
  · exact .inr hc

/-- A new scope binds nothing. -/
lemma functions_child (m : Machine) (held : List Value) (parent : ScopeId) :
    functions { m with store := m.store.child parent } held ⊆ m.functions held := by
  rintro c (⟨place, a, ha, b, hb, hc⟩ | hc)
  · rw [Store.getElem?_child] at ha
    split at ha
    · obtain rfl := Option.some.inj ha
      simp at hb
    · exact .inl ⟨place, a, ha, b, hb, hc⟩
  · exact .inr hc

/-- What is seen from a scope is at hand. -/
lemma mem_functions_of_get? {scope : ScopeId} {name : String}
    (h : m.store.get? scope name = some v) {c : Closure} (hc : v = .closure c) :
    c ∈ m.functions held := by
  obtain ⟨place, a, -, ha, hmem⟩ := Store.mem_of_get? h
  exact .inl ⟨place, a, ha, _, hmem, hc⟩

end Machine

/-! ## Moments that hand function values on -/

/-- The declaration of a function begins at a moment. -/
def Moment.Declares (a : Moment) : Prop :=
  ∃ scope name parameters body, a.phase = .executing scope (.function name parameters body)

/-- The function value that the declaration of a function makes. -/
def Machine.closure (m : Machine) (name : Token) (parameters : List Token) (body : Slots)
    (scope : ScopeId) : Closure := ⟨m.nextIdentity, name, parameters, body, scope⟩

/-- The moments of the declaration of a function: it begins, a new function value is held, and that
value is bound under its name. -/
def Moment.declaration (m : Machine) (scope : ScopeId) (name : Token) (parameters : List Token)
    (body : Slots) (held : List Value) : List Moment :=
  let made := Value.closure (m.closure name parameters body scope)
  [⟨.executing scope (.function name parameters body), m, held⟩,
    ⟨.evaluated, { m with nextIdentity := m.nextIdentity + 1 }, made :: held⟩,
    ⟨.executed, { m with nextIdentity := m.nextIdentity + 1
                         store := m.store.define scope name.lexeme made }, held⟩]

/-- What the declaration of a function leaves at hand: the new function value, and what was. -/
lemma Machine.functions_declared (m : Machine) (scope : ScopeId) (name : Token)
    (parameters : List Token) (body : Slots) (held : List Value) :
    let made := m.closure name parameters body scope
    functions { m with nextIdentity := m.nextIdentity + 1
                       store := m.store.define scope name.lexeme (.closure made) } held ⊆
      insert made (m.functions held) := by
  rintro made c (hc | hc)
  · rcases Binds.of_define (m := { m with nextIdentity := m.nextIdentity + 1 }) hc with hc | hc
    · exact .inr (.inl hc)
    · exact .inl (Value.closure.inj hc)
  · exact .inr (.inr hc)

/-- Moments hand function values on: at each of them no other function values are at hand than at
the one before, unless a declaration makes one. What is at hand before and after the moments is
given. -/
inductive HandedOn : Set Closure → List Moment → Set Closure → Prop
  | stop {K L : Set Closure} (h : L ⊆ K) : HandedOn K [] L
  | pass {K L : Set Closure} {a : Moment} {rest : List Moment} (ha : a.functions ⊆ K)
    (hphase : ¬ a.Declares) (h : HandedOn a.functions rest L) : HandedOn K (a :: rest) L
  | make {K L : Set Closure} {m : Machine} {scope : ScopeId} {name : Token}
    {parameters : List Token} {body : Slots} {held : List Value} {rest : List Moment}
    (hm : m.functions held ⊆ K)
    (h : HandedOn (insert (m.closure name parameters body scope) (m.functions held)) rest L) :
    HandedOn K (Moment.declaration m scope name parameters body held ++ rest) L

namespace HandedOn

variable {K L J : Set Closure} {moments more : List Moment}

/-- More may be at hand before, and less after. -/
lemma mono {K' L' : Set Closure} (h : HandedOn K moments L) (hK : K ⊆ K') (hL : L' ⊆ L) :
    HandedOn K' moments L' := by
  induction h generalizing K' with
  | stop h => exact .stop (hL.trans (h.trans hK))
  | pass ha hphase _ ih => exact .pass (ha.trans hK) hphase (ih subset_rfl hL)
  | make hm _ ih => exact .make (hm.trans hK) (ih subset_rfl hL)

lemma append (h : HandedOn K moments L) (h' : HandedOn L more J) :
    HandedOn K (moments ++ more) J := by
  induction h with
  | stop h => exact h'.mono h subset_rfl
  | pass ha hphase _ ih => exact .pass ha hphase (ih h')
  | make hm _ ih =>
    rw [List.append_assoc]
    exact .make hm (ih h')

end HandedOn

/-! ## Where function values are made -/

/-- A function value is made at the moment with a given number: there its declaration begins, then
it is held, with the identity that the machine had to give away next, and then it is bound. -/
def MadeAt (moments : List Moment) (i : Nat) (c : Closure) : Prop :=
  ∃ m held, c.identity = m.nextIdentity ∧
    Moment.declaration m c.scope c.name c.parameters c.body held <+: moments.drop i

/-- More moments may go before. -/
lemma MadeAt.append {moments : List Moment} {i : Nat} {c : Closure} (h : MadeAt moments i c)
    (before : List Moment) : MadeAt (before ++ moments) (before.length + i) c := by
  obtain ⟨m, held, hidentity, hprefix⟩ := h
  refine ⟨m, held, hidentity, ?_⟩
  rwa [List.drop_append, List.drop_eq_nil_of_le (Nat.le_add_right ..), List.nil_append,
    Nat.add_sub_cancel_left]

/-- The declaration of a function makes a function value where it begins. -/
lemma MadeAt.of_declaration (m : Machine) (scope : ScopeId) (name : Token)
    (parameters : List Token) (body : Slots) (held : List Value) (rest : List Moment) :
    MadeAt (Moment.declaration m scope name parameters body held ++ rest) 0
      (m.closure name parameters body scope) :=
  ⟨m, held, rfl, List.prefix_append _ _⟩

/-- Where a function value is made its declaration begins, and the machine has its identity to give
away; right after that it has the next one. -/
lemma MadeAt.begins {moments : List Moment} {i : Nat} {c : Closure} (h : MadeAt moments i c) :
    ∃ a b, moments[i]? = some a ∧ moments[i + 1]? = some b ∧
      a.phase = .executing c.scope (.function c.name c.parameters c.body) ∧
      a.machine.nextIdentity = c.identity ∧ b.machine.nextIdentity = c.identity + 1 := by
  obtain ⟨m, held, hidentity, rest, hrest⟩ := h
  have hget : ∀ k, moments[i + k]? =
      (Moment.declaration m c.scope c.name c.parameters c.body held ++ rest)[k]? :=
    fun k => by rw [hrest, List.getElem?_drop]
  refine ⟨_, _, hget 0, hget 1, rfl, hidentity.symm, ?_⟩
  rw [hidentity]

namespace HandedOn

variable {K L : Set Closure} {moments : List Moment} {i : Nat} {a : Moment}

/-- **What is at hand was at hand before, or was made**, at an earlier moment. -/
theorem exists_madeAt (h : HandedOn K moments L) (ha : moments[i]? = some a) {c : Closure}
    (hc : c ∈ a.functions) : c ∈ K ∨ ∃ j < i, MadeAt moments j c := by
  induction h generalizing i with
  | stop => simp at ha
  | @pass K L b rest hb _ _ ih =>
    cases i with
    | zero =>
      obtain rfl : b = a := by simpa using ha
      exact .inl (hb hc)
    | succ i =>
      rcases ih ha with hc | ⟨j, hj, hmade⟩
      · exact .inl (hb hc)
      · exact .inr ⟨1 + j, by omega, hmade.append [b]⟩
  | @make K L m scope name parameters body held rest hm _ ih =>
    have hmade := MadeAt.of_declaration m scope name parameters body held rest
    match i, ha with
    | 0, ha =>
      obtain rfl := Option.some.inj ha
      exact .inl (hm hc)
    | 1, ha =>
      obtain rfl := Option.some.inj ha
      rcases hc with hc | hc
      · exact .inl (hm (.inl hc))
      · rcases List.mem_cons.1 hc with hc | hc
        · obtain rfl := Value.closure.inj hc
          exact .inr ⟨0, by omega, hmade⟩
        · exact .inl (hm (.inr hc))
    | 2, ha =>
      obtain rfl := Option.some.inj ha
      rcases m.functions_declared scope name parameters body held hc with rfl | hc
      · exact .inr ⟨0, by omega, hmade⟩
      · exact .inl (hm hc)
    | i + 3, ha =>
      rcases ih ha with (rfl | hc) | ⟨j, hj, hj'⟩
      · exact .inr ⟨0, by omega, hmade⟩
      · exact .inl (hm hc)
      · have hlater := hj'.append (Moment.declaration m scope name parameters body held)
        exact .inr ⟨3 + j, by omega, hlater⟩

/-- **Every declaration makes a function value.** -/
theorem madeAt (h : HandedOn K moments L) (ha : moments[i]? = some a) {scope : ScopeId}
    {name : Token} {parameters : List Token} {body : Slots}
    (hphase : a.phase = .executing scope (.function name parameters body)) :
    MadeAt moments i (a.machine.closure name parameters body scope) := by
  induction h generalizing i with
  | stop => simp at ha
  | @pass K L b rest _ hb _ ih =>
    cases i with
    | zero =>
      obtain rfl : b = a := by simpa using ha
      exact absurd ⟨scope, name, parameters, body, hphase⟩ hb
    | succ i =>
      rw [Nat.add_comm]
      exact (ih ha).append [b]
  | @make K L m scope' name' parameters' body' held rest _ _ ih =>
    match i, ha with
    | 0, ha =>
      obtain rfl := Option.some.inj ha
      cases hphase
      exact MadeAt.of_declaration m scope name parameters body held rest
    | 1, ha | 2, ha =>
      obtain rfl := Option.some.inj ha
      cases hphase
    | i + 3, ha =>
      rw [Nat.add_comm]
      exact (ih ha).append (Moment.declaration m scope' name' parameters' body' held)

end HandedOn

/-! ## Runs that hand function values on -/

namespace Run

variable {α β : Type}

/-- A run and the list of its moments hand function values on. Where the run ends, no others are at
hand than at the last moment, those that its value gives included; and where it is halted, no others
are bound. -/
inductive Hands (give : α → List Value) (held : List Value) (x : Run α) (m : Machine)
    (moments : List Moment) : Prop
  | ended {a : α} {n : Machine} (hr : x m = .ok a n)
    (h : HandedOn (m.functions held) moments (n.functions (give a ++ held)))
  | halted {halt : Halt} {n : Machine} (hr : x m = .error halt n)
    (h : HandedOn (m.functions held) moments (n.functions []))

/-- The one value that a run gives. -/
def one (v : Value) : List Value := [v]

/-- A run gives no value. -/
def nothing (_ : α) : List Value := []

end Run

open Run

namespace Run.Hands

variable {α β : Type} {give : α → List Value} {give' : β → List Value} {held : List Value}
  {x : Run α} {k : α → Run β} {m n : Machine} {moments : List Moment} {scope : ScopeId}

/-- **One run after another.** What is held in between is among what was held before and what the
first run gives. -/
theorem bind {keep : α → List Value} {follow : α → Machine → List Moment}
    (hx : Hands give held x m moments) (hkeep : ∀ a, held ⊆ keep a ∧ keep a ⊆ give a ++ held)
    (hk : ∀ a n, x m = .ok a n → Hands give' (keep a) (k a) n (follow a n)) :
    Hands give' held (x >>= k) m (moments ++ x.next m follow) := by
  cases hx with
  | @ended a n hr h =>
    rw [next_of_ok hr]
    have hbind : (x >>= k) m = k a n := bind_of_ok hr k
    have hfirst := h.mono subset_rfl (Machine.functions_mono (hkeep a).2)
    cases hk a n hr with
    | @ended b n' hr' h' =>
      have hheld : give' b ++ held ⊆ give' b ++ keep a :=
        List.append_subset.2 ⟨List.subset_append_left _ _,
          List.Subset.trans (hkeep a).1 (List.subset_append_right _ _)⟩
      exact .ended (hbind.trans hr')
        (hfirst.append (h'.mono subset_rfl (Machine.functions_mono hheld)))
    | halted hr' h' => exact .halted (hbind.trans hr') (hfirst.append h')
  | halted hr h =>
    rw [next_of_error hr, List.append_nil]
    exact .halted (bind_of_error hr k) h

/-- One run after another, where all that the first one gives is held. -/
lemma bind_held {follow : α → Machine → List Moment} (hx : Hands give held x m moments)
    (hk : ∀ a n, x m = .ok a n → Hands give' (give a ++ held) (k a) n (follow a n)) :
    Hands give' held (x >>= k) m (moments ++ x.next m follow) :=
  hx.bind (fun _ => ⟨List.subset_append_right _ _, List.Subset.refl _⟩) hk

/-- One run after another, where nothing that the first one gives is held. -/
lemma bind_dropped {follow : α → Machine → List Moment} (hx : Hands give held x m moments)
    (hk : ∀ a n, x m = .ok a n → Hands give' held (k a) n (follow a n)) :
    Hands give' held (x >>= k) m (moments ++ x.next m follow) :=
  hx.bind (fun _ => ⟨List.Subset.refl _, List.subset_append_right _ _⟩) hk

/-- One run after another, where the second is noted nowhere. -/
lemma bind_quiet (hx : Hands give held x m moments)
    (hk : ∀ a n, x m = .ok a n → Hands give' (give a ++ held) (k a) n []) :
    Hands give' held (x >>= k) m moments := by
  have h := hx.bind_held hk
  rwa [next_nil, List.append_nil] at h

/-- One step and a run after it. -/
lemma step_bind {follow : α → Machine → List Moment} (hx : Hands give held x m [])
    (hk : ∀ a n, x m = .ok a n → Hands give' held (k a) n (follow a n)) :
    Hands give' held (x >>= k) m (x.next m follow) := by
  simpa using hx.bind_dropped hk

/-- A run whose value is only turned into another, with no other function values in it. -/
lemma map {f : α → β} (hx : Hands give held x m moments)
    (hf : ∀ a c, Value.closure c ∈ give' (f a) → Value.closure c ∈ give a) :
    Hands give' held (do let a ← x; return f a) m moments := by
  cases hx with
  | @ended a n hr h =>
    refine .ended (bind_of_ok hr _) (h.mono subset_rfl (Machine.functions_subset fun c hc => ?_))
    exact List.mem_append.2 ((List.mem_append.1 hc).imp_left (hf a c))
  | halted hr h => exact .halted (bind_of_error hr _) h

/-- The first moment of a run. -/
lemma cons {phase : Phase} (hx : Hands give held x m moments)
    (hphase : ¬ Moment.Declares ⟨phase, m, held⟩) :
    Hands give held x m (⟨phase, m, held⟩ :: moments) := by
  cases hx with
  | ended hr h => exact .ended hr (.pass subset_rfl hphase h)
  | halted hr h => exact .halted hr (.pass subset_rfl hphase h)

/-- **What begins, goes on and ends.** -/
lemma framed {begun ended : Phase} (hx : Hands give held x m moments)
    (hbegun : ¬ Moment.Declares ⟨begun, m, held⟩)
    (hended : ∀ n held, ¬ Moment.Declares ⟨ended, n, held⟩) :
    Hands give held x m (x.framed begun ended give moments m held) := by
  apply cons _ hbegun
  cases hx with
  | @ended a n hr h =>
    rw [next_of_ok hr]
    exact .ended hr (h.append (.pass subset_rfl (hended n _) (.stop subset_rfl)))
  | halted hr h =>
    rw [next_of_error hr, List.append_nil]
    exact .halted hr h

end Run.Hands

end LoxLang
