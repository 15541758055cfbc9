import LoxLang.Proofs.Evaluation.Steps
import LoxLang.Proofs.Store.Shape

set_option autoImplicit false

/-!
# Scopes and the steps that made them

Scopes come about by steps: one is made under another, a name is defined in one, and names are read
and assigned to as seen from one. What can be seen from a scope is told by these steps alone, without
a look at what the scopes hold: from which scopes a name is defined, which of these is the nearest,
and which value was last written there.

## Main definitions

* `ScopeHistory` — any number of steps, each on scopes that are there.
* `ScopeHistory.machine` — what the steps leave behind.
* `ScopeHistory.parent?`, `ScopeHistory.Defines` — what the steps made and defined.
* `ScopeHistory.Nearest`, `ScopeHistory.LastWritten` — where a name is found, and its value there.
* `ScopeHistory.Recalled` — a store holds what was last written.

## Main results

* `ScopeHistory.recalled` — whatever the steps, what was last written is held.
* `ScopeHistory.Recalled.get?_eq_some_iff` — names are read in the nearest scope that defines them.
-/

namespace LoxLang

/-- Steps on scopes, beginning with a root by itself, after which there are so many scopes. A step
is about a scope that is there. Reading and assigning may fail, and are steps all the same. -/
inductive ScopeHistory : Nat → Type
  | root : ScopeHistory 1
  | child {k : Nat} (h : ScopeHistory k) (parent : Fin k) : ScopeHistory (k + 1)
  | define {k : Nat} (h : ScopeHistory k) (scope : Fin k) (name : Token) (value : Value) :
    ScopeHistory k
  | get {k : Nat} (h : ScopeHistory k) (scope : Fin k) (name : Token) : ScopeHistory k
  | assign {k : Nat} (h : ScopeHistory k) (scope : Fin k) (name : Token) (value : Value) :
    ScopeHistory k

namespace Store

/-- What a name is bound to in a scope itself. -/
def own? (s : Store) (place : ScopeId) (name : String) : Option Value :=
  s.scopes[place]?.bind (·.get? name)

variable {s : Store} {place : ScopeId}

/-- Binding a name changes that binding and no other. -/
lemma own?_define (hp : place < s.next) (n : String) (value : Value) (i : ScopeId) (name : String) :
    (s.define place n value).own? i name =
      if i = place ∧ name = n then some value else s.own? i name := by
  unfold own?
  rw [getElem?_define]
  by_cases hi : place = i
  · subst hi
    obtain ⟨a, ha⟩ := lt_next_iff.1 hp
    simp [ha, Scope.get?_define]
  · simp [hi, Ne.symm hi]

/-- Binding a name changes no parent. -/
lemma parent?_define (place : ScopeId) (n : String) (value : Value) (i : ScopeId) :
    (s.define place n value).parent? i = s.parent? i := by
  unfold parent?
  rw [getElem?_define]
  split
  · cases s.scopes[i]? <;> rfl
  · rfl

/-- A scope that was just made binds nothing. -/
lemma own?_child (parent i : ScopeId) (name : String) :
    (s.child parent).own? i name = s.own? i name := by
  unfold own?
  rw [getElem?_child]
  split
  · rename_i hi
    have hnone : s.scopes[i]? = none := by simp [hi, next]
    simp [hnone, Scope.get?]
  · rfl

/-- A scope that was just made has its parent, and the others keep theirs. -/
lemma parent?_child (parent i : ScopeId) :
    (s.child parent).parent? i = if i = s.next then some parent else s.parent? i := by
  unfold parent?
  rw [getElem?_child]
  split <;> rfl

end Store

namespace ScopeHistory

/-! ## What the steps tell -/

/-- The machine that steps leave behind, one after another and whether they fail or not. -/
def machine (start : Machine) : {k : Nat} → ScopeHistory k → Machine
  | _, .root => { start with store := .initial }
  | _, .child h parent => (Run.openScope parent).left (h.machine start)
  | _, .define h scope name value => (Run.declare name scope value).left (h.machine start)
  | _, .get h scope name => (Run.lookUp name scope).left (h.machine start)
  | _, .assign h scope name value => (Run.assign name scope value).left (h.machine start)

/-- The scope under which a scope was made. -/
def parent? : {k : Nat} → ScopeHistory k → ScopeId → Option ScopeId
  | _, .root, _ => none
  | _, @child k h parent, i => if i = k then some parent else h.parent? i
  | _, .define h _ _ _, i | _, .get h _ _, i | _, .assign h _ _ _, i => h.parent? i

/-- A name was defined in a scope, whatever as. -/
def Defines (name : String) : {k : Nat} → ScopeHistory k → ScopeId → Prop
  | _, .root, _ => False
  | _, .define h scope n _, i => (i = scope ∧ name = n.lexeme) ∨ h.Defines name i
  | _, .child h _, i | _, .get h _ _, i | _, .assign h _ _ _, i => h.Defines name i

variable {k : Nat}

/-- A scope is on the chain of parents that begins with another. -/
def OnChain (h : ScopeHistory k) : ScopeId → ScopeId → Prop :=
  Relation.ReflTransGen fun i j => h.parent? i = some j

/-- The first scope on a chain of parents that defines a name. -/
inductive Nearest (h : ScopeHistory k) (name : String) : ScopeId → ScopeId → Prop
  | here {i : ScopeId} (hd : h.Defines name i) : Nearest h name i i
  | up {i j p : ScopeId} (hd : ¬ h.Defines name i) (hp : h.parent? i = some j)
    (hn : Nearest h name j p) : Nearest h name i p

/-- A chain of parents leads to a scope, and no scope before it defines the name. -/
inductive Reaches (h : ScopeHistory k) (name : String) (target : ScopeId) : ScopeId → Prop
  | here : Reaches h name target target
  | up {i j : ScopeId} (hd : ¬ h.Defines name i) (hp : h.parent? i = some j)
    (hr : Reaches h name target j) : Reaches h name target i

/-- The value that was last written to a name in a scope: by a definition there, or by an assignment
that found the name there. -/
def LastWritten (name : String) : {k : Nat} → ScopeHistory k → ScopeId → Value → Prop
  | _, .root, _, _ => False
  | _, .define h scope n value, p, v =>
    (p = scope ∧ name = n.lexeme) ∧ v = value ∨
      ¬ (p = scope ∧ name = n.lexeme) ∧ h.LastWritten name p v
  | _, .assign h scope n value, p, v =>
    (h.Nearest name scope p ∧ name = n.lexeme) ∧ v = value ∨
      ¬ (h.Nearest name scope p ∧ name = n.lexeme) ∧ h.LastWritten name p v
  | _, .child h _, p, v | _, .get h _ _, p, v => h.LastWritten name p v

/-! ## Laws of the steps -/

variable {h : ScopeHistory k} {name : String} {i j p q : ScopeId} {v w : Value}

/-- A scope was made after its parent. -/
lemma lt_of_parent? (hp : h.parent? i = some j) : j < i := by
  induction h with
  | root => simp [parent?] at hp
  | child h parent ih =>
    simp only [parent?] at hp
    split at hp
    · obtain rfl := Option.some.inj hp
      rename_i hi
      exact hi ▸ parent.2
    · exact ih hp
  | define _ _ _ _ ih | get _ _ _ ih | assign _ _ _ _ ih => exact ih hp

/-- Names are defined in scopes that are there. -/
lemma Defines.lt (hd : h.Defines name i) : i < k := by
  induction h with
  | root => exact hd.elim
  | define h scope n value ih =>
    rcases hd with ⟨rfl, -⟩ | hd
    · exact scope.2
    · exact ih hd
  | child h parent ih => exact Nat.lt_succ_of_lt (ih hd)
  | get _ _ _ ih | assign _ _ _ _ ih => exact ih hd

/-- A name is defined where it is found. -/
lemma Nearest.defines (hn : h.Nearest name i p) : h.Defines name p := by
  induction hn with
  | here hd => exact hd
  | up _ _ _ ih => exact ih

/-- Only one scope is the nearest. -/
lemma Nearest.unique (hn : h.Nearest name i p) (hn' : h.Nearest name i q) : p = q := by
  induction hn with
  | here hd =>
    cases hn' with
    | here => rfl
    | up hd' => exact absurd hd hd'
  | up hd hp _ ih =>
    cases hn' with
    | here hd' => exact absurd hd' hd
    | up _ hp' hn' =>
      obtain rfl := Option.some.inj (hp.symm.trans hp')
      exact ih hn'

/-- **A name is found if some scope on the chain defines it.** -/
theorem exists_nearest_iff :
    (∃ p, h.Nearest name i p) ↔ ∃ p, h.OnChain i p ∧ h.Defines name p := by
  constructor
  · rintro ⟨p, hn⟩
    refine ⟨p, ?_, hn.defines⟩
    induction hn with
    | here => exact .refl
    | up _ hp _ ih => exact .head hp ih
  · rintro ⟨p, hchain, hd⟩
    induction hchain using Relation.ReflTransGen.head_induction_on with
    | refl => exact ⟨p, .here hd⟩
    | @head i j hij _ ih =>
      by_cases hi : h.Defines name i
      · exact ⟨i, .here hi⟩
      · obtain ⟨q, hn⟩ := ih
        exact ⟨q, .up hi hij hn⟩

/-- **What is defined has a value**, and only that: the one last written. -/
theorem exists_lastWritten_iff : (∃ v, h.LastWritten name p v) ↔ h.Defines name p := by
  induction h with
  | root => simp [LastWritten, Defines]
  | child _ _ ih | get _ _ _ ih => exact ih
  | define h scope n value ih =>
    by_cases hp : p = scope ∧ name = n.lexeme
    · simp [LastWritten, Defines, hp]
    · simpa [LastWritten, Defines, hp] using ih
  | assign h scope n value ih =>
    by_cases hp : h.Nearest name scope p ∧ name = n.lexeme
    · have hd : h.Defines name p := hp.1.defines
      exact iff_of_true ⟨value, .inl ⟨hp, rfl⟩⟩ hd
    · simpa [LastWritten, Defines, hp] using ih

/-! ## What the store holds -/

/-- A store holds what was last written, in scopes under the parents that the steps gave them. -/
structure Recalled (h : ScopeHistory k) (s : Store) : Prop where
  next_eq : s.next = k
  parent?_eq : ∀ i, s.parent? i = h.parent? i
  own?_iff : ∀ name p v, s.own? p name = some v ↔ h.LastWritten name p v

namespace Recalled

variable {s : Store}

/-- A name is bound where it was defined. -/
lemma isSome_own?_iff (hs : h.Recalled s) : (s.own? p name).isSome ↔ h.Defines name p := by
  rw [Option.isSome_iff_exists, ← exists_lastWritten_iff]
  exact exists_congr fun v => hs.own?_iff name p v

/-- **A name is found in the nearest scope that defines it.**

**Proof sketch.** A scope was made after its parent, so the walk may be followed by induction on
scopes. -/
theorem resolve?_eq_some_iff (hs : h.Recalled s) :
    s.resolve? name i = some p ↔ h.Nearest name i p := by
  induction i using Nat.strongRecOn with
  | ind i ih =>
    rw [Store.resolve?]
    cases ha : s.scopes[i]? with
    | none =>
      -- neither is the scope there nor does it have a parent
      have hown : s.own? i name = none := by simp [Store.own?, ha]
      have hparent : h.parent? i = none := by rw [← hs.parent?_eq, Store.parent?, ha]; rfl
      refine ⟨fun hp => by simp at hp, fun hn => ?_⟩
      cases hn with
      | here hd => simp [← hs.isSome_own?_iff, hown] at hd
      | up _ hp => simp [hparent] at hp
    | some a =>
      have hbinds : a.binds name = true ↔ h.Defines name i := by
        rw [← hs.isSome_own?_iff, Scope.binds_iff]
        simp [Store.own?, ha]
      have hparent : a.parent = h.parent? i := by rw [← hs.parent?_eq, Store.parent?, ha]; rfl
      dsimp only
      by_cases hd : h.Defines name i
      · rw [if_pos (hbinds.2 hd), Option.some.injEq]
        exact ⟨fun heq => heq ▸ .here hd, fun hn => (Nearest.here hd).unique hn⟩
      · rw [if_neg (mt hbinds.1 hd), hparent]
        cases hj : h.parent? i with
        | none =>
          refine ⟨fun hp => by simp at hp, fun hn => ?_⟩
          cases hn with
          | here hd' => exact absurd hd' hd
          | up _ hp => simp [hj] at hp
        | some j =>
          have hlt := lt_of_parent? hj
          simp only [hlt, if_true]
          rw [ih j hlt]
          refine ⟨.up hd hj, fun hn => ?_⟩
          cases hn with
          | here hd' => exact absurd hd' hd
          | up _ hp hn =>
            obtain rfl := Option.some.inj (hj.symm.trans hp)
            exact hn

/-- **A name is read where it is found**, as what was last written there. -/
theorem get?_eq_some_iff (hs : h.Recalled s) :
    s.get? i name = some v ↔ ∃ p, h.Nearest name i p ∧ h.LastWritten name p v := by
  have hown : ∀ p, (s.scopes[p]?.bind fun a => a.get? name) = some v ↔ h.LastWritten name p v :=
    fun p => hs.own?_iff name p v
  simp only [← hs.resolve?_eq_some_iff, ← hown]
  cases hr : s.resolve? name i with
  | none => simp [Store.get?, hr]
  | some p => simp [Store.get?, hr, Option.bind_eq_some_iff]

/-- A store goes on to hold what was last written if a step writes to one binding. -/
lemma write {h' : ScopeHistory k} {place : ScopeId} {n : String} {value : Value}
    (hs : h.Recalled s) (hp : place < k) (hparent : ∀ i, h'.parent? i = h.parent? i)
    (hwritten : ∀ name p v, h'.LastWritten name p v ↔ (p = place ∧ name = n) ∧ v = value ∨
      ¬ (p = place ∧ name = n) ∧ h.LastWritten name p v) :
    h'.Recalled (s.define place n value) := by
  refine ⟨?_, fun i => ?_, fun name p v => ?_⟩
  · rw [Store.next_define, hs.next_eq]
  · rw [Store.parent?_define, hs.parent?_eq, hparent]
  · rw [Store.own?_define (hs.next_eq ▸ hp), hwritten]
    split
    · rename_i hhere
      simp [hhere, eq_comm]
    · rename_i helsewhere
      simpa [helsewhere] using hs.own?_iff name p v

end Recalled

/-- **Whatever the steps, what was last written is held.**

**Proof sketch.** Induction on the steps. An assignment writes to the nearest scope that defines its
name since that is the one the name resolves to, and where there is none nothing is written. -/
theorem recalled (h : ScopeHistory k) (start : Machine) : h.Recalled (h.machine start).store := by
  induction h with
  | root =>
    have hscope : ∀ i, Store.initial.scopes[i]? = if i = 0 then some ⟨none, []⟩ else none := by
      intro i
      cases i <;> rfl
    refine ⟨rfl, fun i => ?_, fun name p v => ?_⟩
    · show Store.initial.parent? i = none
      unfold Store.parent?
      rw [hscope]
      split <;> rfl
    · show Store.initial.own? p name = some v ↔ False
      unfold Store.own?
      rw [hscope]
      split <;> simp [Scope.get?]
  | @child k h parent ih =>
    refine ⟨?_, fun i => ?_, fun name p v => ?_⟩
    · show (Store.child _ _).next = _
      rw [Store.next_child, ih.next_eq]
    · show (Store.child _ _).parent? i = _
      rw [Store.parent?_child, ih.next_eq, ih.parent?_eq]
      rfl
    · show (Store.child _ _).own? p name = some v ↔ _
      rw [Store.own?_child]
      exact ih.own?_iff name p v
  | get h scope name ih =>
    have hleft : (ScopeHistory.get h scope name).machine start = h.machine start := by
      cases hv : (h.machine start).store.get? scope name.lexeme <;>
        simp [machine, Run.left, Run.lookUp_apply, hv]
    rw [hleft]
    exact ⟨ih.next_eq, ih.parent?_eq, ih.own?_iff⟩
  | define h scope n value ih =>
    exact ih.write scope.2 (fun _ => rfl) fun _ _ _ => Iff.rfl
  | assign h scope n value ih =>
    cases hr : (h.machine start).store.resolve? n.lexeme scope with
    | none =>
      have hnone : ∀ p, ¬ h.Nearest n.lexeme scope p := by
        intro p hn
        rw [← ih.resolve?_eq_some_iff, hr] at hn
        contradiction
      have hleft : (ScopeHistory.assign h scope n value).machine start = h.machine start := by
        simp [machine, Run.left, Run.assign_apply, hr]
      rw [hleft]
      refine ⟨ih.next_eq, ih.parent?_eq, fun name p v => ?_⟩
      have hkept : ¬ (h.Nearest name scope p ∧ name = n.lexeme) := by
        rintro ⟨hn, rfl⟩
        exact hnone p hn
      simpa [LastWritten, hkept] using ih.own?_iff name p v
    | some place =>
      have hplace := ih.resolve?_eq_some_iff.1 hr
      have hleft : ((ScopeHistory.assign h scope n value).machine start).store =
          (h.machine start).store.define place n.lexeme value := by
        simp [machine, Run.left, Run.assign_apply, hr]
      rw [hleft]
      refine ih.write hplace.defines.lt (fun _ => rfl) fun name p v => ?_
      have hfound : (h.Nearest name scope p ∧ name = n.lexeme) ↔ p = place ∧ name = n.lexeme := by
        refine and_congr_left ?_
        rintro rfl
        exact ⟨fun hn => hn.unique hplace, fun heq => heq ▸ hplace⟩
      simp only [LastWritten, hfound]

end ScopeHistory

end LoxLang
