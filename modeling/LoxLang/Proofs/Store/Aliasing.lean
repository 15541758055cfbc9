import LoxLang.Proofs.Store.History

set_option autoImplicit false

/-!
# What is seen of a step from other scopes

Many scopes share those above them, so one write may be seen from any number of scopes, and a nearer
definition hides it from others. What a step changes is told by the steps before it: an assignment is
seen from the scopes with the same nearest definition, and a definition from the scopes that reach it
before they reach another one.

## Main definitions

* `Store.Rebound` — one binding is changed and nothing else.
* `ScopeHistory.Explains` — the steps so far tell what the next one does.

## Main results

* `ScopeHistory.nearest_define_of_reaches`, `ScopeHistory.nearest_define_iff` — what a definition
  hides, and what it leaves alone.
* `ScopeHistory.explains` — whatever the steps, they tell what the next one does.
-/

namespace LoxLang

/-- One binding of one scope is changed, and nothing else is. -/
structure Store.Rebound (s t : Store) (place : ScopeId) (name : String) (value : Value) : Prop where
  next_eq : t.next = s.next
  parent?_eq : ∀ i, t.parent? i = s.parent? i
  own?_eq : ∀ i n, t.own? i n = if i = place ∧ n = name then some value else s.own? i n

lemma Store.rebound_define {s : Store} {place : ScopeId} (hp : place < s.next) (name : String)
    (value : Value) : s.Rebound (s.define place name value) place name value :=
  ⟨next_define s place name value, parent?_define place name value, own?_define hp name value⟩

namespace ScopeHistory

variable {k : Nat} {h : ScopeHistory k} {name : String} {i j p : ScopeId}

/-! ## Nearest definitions before and after a step -/

/-- Where a name is found is reached. -/
lemma Nearest.reaches (hn : h.Nearest name i p) : h.Reaches name p i := by
  induction hn with
  | here => exact .here
  | up hd hp _ ih => exact .up hd hp ih

/-- Nearest definitions depend on parents and definitions only. -/
lemma Nearest.of_eq {h' : ScopeHistory k} (hn : h.Nearest name i p)
    (hparent : ∀ i, h'.parent? i = h.parent? i)
    (hdefines : ∀ i, h'.Defines name i ↔ h.Defines name i) : h'.Nearest name i p := by
  induction hn with
  | here hd => exact .here ((hdefines _).2 hd)
  | up hd hp _ ih => exact .up (mt (hdefines _).1 hd) ((hparent _).trans hp) ih

section Define

variable (scope : Fin k) (n : Token) (value : Value)

/-- **A definition is the nearest one** for every scope that reaches it before any other. -/
theorem nearest_define_of_reaches (hr : h.Reaches n.lexeme scope i) :
    (h.define scope n value).Nearest n.lexeme i scope := by
  induction hr with
  | here => exact .here (.inl ⟨rfl, rfl⟩)
  | @up i j hd hp _ ih =>
    by_cases hi : i = scope
    · subst hi
      exact .here (.inl ⟨rfl, rfl⟩)
    · exact .up (fun hd' => hd'.elim (fun heq => hi heq.1) hd) hp ih

/-- **A definition leaves the others the nearest ones** for every scope that does not reach it
first. -/
theorem nearest_define_iff (hr : ¬ (name = n.lexeme ∧ h.Reaches name scope i)) :
    (h.define scope n value).Nearest name i p ↔ h.Nearest name i p := by
  by_cases hname : name = n.lexeme
  · replace hr : ¬ h.Reaches name scope i := fun hreach => hr ⟨hname, hreach⟩
    constructor
    · intro hn
      induction hn with
      | @here i hd =>
        refine .here (hd.resolve_left fun heq => ?_)
        obtain rfl := heq.1
        exact hr .here
      | @up i j p hd hp _ ih =>
        have hd' : ¬ h.Defines name i := fun hi => hd (.inr hi)
        exact .up hd' hp (ih fun hreach => hr (.up hd' hp hreach))
    · intro hn
      induction hn with
      | here hd => exact .here (.inr hd)
      | @up i j p hd hp _ ih =>
        refine .up (fun hd' => ?_) hp (ih fun hreach => hr (.up hd hp hreach))
        rcases hd' with ⟨rfl, -⟩ | hd'
        · exact hr .here
        · exact hd hd'
  · have hdefines : ∀ i, (h.define scope n value).Defines name i ↔ h.Defines name i :=
      fun i => by simp [Defines, hname]
    exact ⟨fun hn => hn.of_eq (fun _ => rfl) fun i => (hdefines i).symm,
      fun hn => hn.of_eq (fun _ => rfl) hdefines⟩

end Define

/-! ## Values before and after a step -/

/-- A name is read alike if it is found in the same place and nothing was written there. -/
lemma Recalled.get?_congr {h' : ScopeHistory k} {s s' : Store} (hs : h.Recalled s)
    (hs' : h'.Recalled s') (hnearest : ∀ p, h'.Nearest name i p ↔ h.Nearest name i p)
    (hwritten : ∀ p v, h.Nearest name i p → (h'.LastWritten name p v ↔ h.LastWritten name p v)) :
    s'.get? i name = s.get? i name := by
  refine Option.ext fun v => ?_
  rw [hs.get?_eq_some_iff, hs'.get?_eq_some_iff]
  refine exists_congr fun p => ?_
  rw [hnearest]
  exact and_congr_right (hwritten p v)

/-- **The steps so far tell what the next one does** on a machine. -/
structure Explains (h : ScopeHistory k) (m : Machine) : Prop where
  /-- Reading a name succeeds if some scope on the chain defines it. -/
  lookUp_isOk_iff : ∀ (i : Fin k) (t : Token), (∃ v, Run.lookUp t i m = .ok v m) ↔
    ∃ p, h.OnChain i p ∧ h.Defines t.lexeme p
  /-- It gives the value last written in the nearest one. -/
  lookUp_eq_ok_iff : ∀ (i : Fin k) (t : Token) (v : Value), Run.lookUp t i m = .ok v m ↔
    ∃ p, h.Nearest t.lexeme i p ∧ h.LastWritten t.lexeme p v
  /-- Assigning succeeds if reading would. -/
  assign_isOk_iff : ∀ (i : Fin k) (t : Token) (v : Value), (∃ n, Run.assign t i v m = .ok () n) ↔
    ∃ w, Run.lookUp t i m = .ok w m
  /-- An assignment changes one binding, and is seen from the scopes with the same nearest one. -/
  assign_ok : ∀ (i : Fin k) (t : Token) (v : Value) (p : ScopeId), h.Nearest t.lexeme i p →
    ∃ s, Run.assign t i v m = .ok () { m with store := s } ∧ m.store.Rebound s p t.lexeme v ∧
      (∀ j, h.Nearest t.lexeme j p → s.get? j t.lexeme = some v) ∧
      ∀ j name, ¬ (name = t.lexeme ∧ h.Nearest name j p) → s.get? j name = m.store.get? j name
  /-- A definition changes one binding, and is seen from the scopes that reach it first. -/
  declare_ok : ∀ (i : Fin k) (t : Token) (v : Value),
    ∃ s, Run.declare t i v m = .ok () { m with store := s } ∧ m.store.Rebound s i t.lexeme v ∧
      (∀ j, h.Reaches t.lexeme i j → s.get? j t.lexeme = some v) ∧
      ∀ j name, ¬ (name = t.lexeme ∧ h.Reaches name i j) → s.get? j name = m.store.get? j name
  /-- Reading and assigning fail at the token that was given, and leave everything as it was. -/
  undefined : ∀ (i : Fin k) (t : Token), (¬ ∃ p, h.OnChain i p ∧ h.Defines t.lexeme p) →
    Run.lookUp t i m = .error (.fault ⟨.undefinedVariable t.lexeme, t⟩) m ∧
    ∀ v, Run.assign t i v m = .error (.fault ⟨.undefinedVariable t.lexeme, t⟩) m

namespace Recalled

variable {m : Machine} (hm : h.Recalled m.store) (i : Fin k) (t : Token) (v : Value)

include hm

lemma lookUp_eq_ok_iff :
    Run.lookUp t i m = .ok v m ↔ ∃ p, h.Nearest t.lexeme i p ∧ h.LastWritten t.lexeme p v := by
  rw [← hm.get?_eq_some_iff, Run.lookUp_apply]
  cases m.store.get? i t.lexeme <;> simp

lemma lookUp_isOk_iff :
    (∃ v, Run.lookUp t i m = .ok v m) ↔ ∃ p, h.Nearest t.lexeme i p := by
  simp only [hm.lookUp_eq_ok_iff]
  constructor
  · rintro ⟨v, p, hn, -⟩
    exact ⟨p, hn⟩
  · rintro ⟨p, hn⟩
    obtain ⟨v, hv⟩ := exists_lastWritten_iff.2 hn.defines
    exact ⟨v, p, hn, hv⟩

/-- An assignment that finds its name writes to that binding. -/
lemma assign_of_nearest (hn : h.Nearest t.lexeme i p) :
    Run.assign t i v m = .ok () { m with store := m.store.define p t.lexeme v } := by
  rw [Run.assign_apply, hm.resolve?_eq_some_iff.2 hn]

/-- Where a name is not found, reading it and assigning to it fail. -/
lemma undefined (hn : ¬ ∃ p, h.Nearest t.lexeme i p) :
    Run.lookUp t i m = .error (.fault ⟨.undefinedVariable t.lexeme, t⟩) m ∧
    ∀ v, Run.assign t i v m = .error (.fault ⟨.undefinedVariable t.lexeme, t⟩) m := by
  have hnone : m.store.resolve? t.lexeme i = none := by
    rw [Option.eq_none_iff_forall_ne_some]
    exact fun p hp => hn ⟨p, hm.resolve?_eq_some_iff.1 hp⟩
  have hget : m.store.get? i t.lexeme = none := by simp [Store.get?, hnone]
  exact ⟨by rw [Run.lookUp_apply, hget], fun v => by rw [Run.assign_apply, hnone]⟩

lemma assign_isOk_iff :
    (∃ n, Run.assign t i v m = .ok () n) ↔ ∃ p, h.Nearest t.lexeme i p := by
  constructor
  · rintro ⟨n, hok⟩
    by_contra hnone
    rw [(hm.undefined i t hnone).2 v] at hok
    contradiction
  · rintro ⟨p, hn⟩
    exact ⟨_, hm.assign_of_nearest i t v hn⟩

end Recalled

/-- What an assignment makes of reading a name, where it found its own. -/
lemma get?_assign (start : Machine) (scope : Fin k) (t : Token) (v : Value)
    (hn : h.Nearest t.lexeme scope p) :
    let s := (h.machine start).store.define p t.lexeme v
    (∀ j, h.Nearest t.lexeme j p → s.get? j t.lexeme = some v) ∧
      ∀ j name, ¬ (name = t.lexeme ∧ h.Nearest name j p) →
        s.get? j name = (h.machine start).store.get? j name := by
  have hm := h.recalled start
  have hs := (h.assign scope t v).recalled start
  have hleft : ((h.assign scope t v).machine start).store =
      (h.machine start).store.define p t.lexeme v := by
    rw [machine, Run.left_of_ok (hm.assign_of_nearest scope t v hn)]
  have hnearest : ∀ j name q, (h.assign scope t v).Nearest name j q ↔ h.Nearest name j q :=
    fun j name q => ⟨fun hn => hn.of_eq (fun _ => rfl) fun _ => Iff.rfl,
      fun hn => hn.of_eq (fun _ => rfl) fun _ => Iff.rfl⟩
  rw [hleft] at hs
  refine ⟨fun j hj => ?_, fun j name hj => ?_⟩
  · exact hs.get?_eq_some_iff.2 ⟨p, (hnearest j _ p).2 hj, .inl ⟨⟨hn, rfl⟩, rfl⟩⟩
  · refine hm.get?_congr hs (hnearest j name) fun q w hq => ?_
    -- the assignment wrote to where it found its name, which is somewhere else
    have hother : ¬ (h.Nearest name scope q ∧ name = t.lexeme) := by
      rintro ⟨hq', rfl⟩
      exact hj ⟨rfl, hn.unique hq' ▸ hq⟩
    simp only [LastWritten, hother, false_and, not_false_iff, true_and, false_or]

/-- What a definition makes of reading a name. -/
lemma get?_define (start : Machine) (scope : Fin k) (t : Token) (v : Value) :
    let s := (h.machine start).store.define scope t.lexeme v
    (∀ j, h.Reaches t.lexeme scope j → s.get? j t.lexeme = some v) ∧
      ∀ j name, ¬ (name = t.lexeme ∧ h.Reaches name scope j) →
        s.get? j name = (h.machine start).store.get? j name := by
  have hm := h.recalled start
  have hs : (h.define scope t v).Recalled ((h.machine start).store.define scope t.lexeme v) :=
    (h.define scope t v).recalled start
  refine ⟨fun j hj => ?_, fun j name hj => ?_⟩
  · exact hs.get?_eq_some_iff.2
      ⟨scope, nearest_define_of_reaches scope t v hj, .inl ⟨⟨rfl, rfl⟩, rfl⟩⟩
  · refine hm.get?_congr hs (fun q => nearest_define_iff scope t v hj) fun q w hq => ?_
    -- a name that is found in the scope itself is one that reaches it
    have hother : ¬ (q = scope ∧ name = t.lexeme) := by
      rintro ⟨rfl, rfl⟩
      exact hj ⟨rfl, hq.reaches⟩
    simp only [LastWritten, hother, false_and, not_false_iff, true_and, false_or]

/-- **Scope chains resolve to the nearest binding, with exact aliasing.** After any steps on scopes,
from a root by itself on, reading a name succeeds if some scope on the chain of parents defines it,
and then gives the value last written in the nearest of them. Assigning succeeds if reading would,
changes that one binding, and is seen from exactly the scopes with the same nearest definition. A
definition changes one binding of the scope itself, and is seen from exactly the scopes that reach
it before another definition. What fails does so at the token given and leaves all as it was. That
holds of every value, so a name that is defined as nil is defined.

**Proof sketch.** The store holds what was last written, and resolves a name to the nearest scope
that defines it. So what can be seen after one more step is told by the steps with that one. -/
theorem explains (h : ScopeHistory k) (start : Machine) : h.Explains (h.machine start) where
  lookUp_isOk_iff i t := ((h.recalled start).lookUp_isOk_iff i t).trans exists_nearest_iff
  lookUp_eq_ok_iff := (h.recalled start).lookUp_eq_ok_iff
  assign_isOk_iff i t v := by
    rw [(h.recalled start).assign_isOk_iff, (h.recalled start).lookUp_isOk_iff]
  assign_ok i t v p hn := by
    have hm := h.recalled start
    have hp : p < (h.machine start).store.next := by
      rw [hm.next_eq]
      exact hn.defines.lt
    exact ⟨_, hm.assign_of_nearest i t v hn, Store.rebound_define hp t.lexeme v,
      get?_assign start i t v hn⟩
  declare_ok i t v := by
    have hp : (i : Nat) < (h.machine start).store.next := by
      rw [(h.recalled start).next_eq]
      exact i.2
    exact ⟨_, rfl, Store.rebound_define hp t.lexeme v, get?_define start i t v⟩
  undefined i t hnone :=
    (h.recalled start).undefined i t (mt exists_nearest_iff.1 hnone)

/-- A name that is defined as nil is found, also from a scope below. -/
example (start : Machine) :
    let m := ((root.define 0 ⟨.identifier, "a", 1⟩ .nil).child 0).machine start
    Run.lookUp ⟨.identifier, "a", 2⟩ 1 m = .ok .nil m := by
  with_unfolding_all rfl

end ScopeHistory

end LoxLang
