import Mathlib.Logic.Relation
import Mathlib.Tactic.Common
import LoxLang.Machine

set_option autoImplicit false

/-!
# The shape of the store

The scopes of a store make up a tree: the root is the only one without a parent, and the parent of
any other was made before it. So every walk along parents ends, at the root, and looking a name up
is such a walk.

## Main definitions

* `Closure.Sound`, `Value.Sound` — the scope of a function value is there.
* `Store.Sound` — the scopes make up a tree, and all values in them are sound.
* `Store.Extends` — a later store: no scope is gone, no parent changed and no name unbound.
* `Store.Walk` — looking a name up as a walk along parents.

## Main results

* `Store.sound_define`, `Store.sound_child` — binding a name and making a scope keep the shape.
* `Store.extends_define`, `Store.extends_child` — both only add.
* `Store.walk_resolve?` — every walk ends, and it finds what the store resolves a name to.
* `Store.Extends.isSome_resolve?` — a name that resolves goes on to resolve.
-/

namespace LoxLang

/-- The scope of a function value is there, and it takes as many arguments as it has parameters. -/
structure Closure.Sound (s : Store) (c : Closure) : Prop where
  scope_lt : c.scope < s.next
  arity_eq : c.arity = c.parameters.length

/-- A value is sound if it is no function value or a sound one. -/
def Value.Sound (s : Store) (v : Value) : Prop := ∀ c, v = .closure c → c.Sound s

namespace Store

/-- The parent of a scope. -/
def parent? (s : Store) (scope : ScopeId) : Option ScopeId := s.scopes[scope]?.bind Scope.parent

/-- A scope is right below another. -/
def IsBelow (s : Store) (scope parent : ScopeId) : Prop := s.parent? scope = some parent

/-- The root is the only scope without a parent, the parent of any other was made before it, and all
values that are bound are sound. -/
structure Sound (s : Store) : Prop where
  root_lt : root < s.next
  root_parent : s.parent? root = none
  parent_lt : ∀ scope < s.next, scope ≠ root → ∃ parent < scope, s.parent? scope = some parent
  value : ∀ (scope : ScopeId) a, s.scopes[scope]? = some a → ∀ b ∈ a.bindings, b.2.Sound s

/-- A later store has every scope of an earlier one, under the same parent and with all its names
bound. -/
structure Extends (s t : Store) : Prop where
  kept : ∀ (scope : ScopeId) a, s.scopes[scope]? = some a →
    ∃ b, t.scopes[scope]? = some b ∧ b.parent = a.parent ∧
      ∀ name, a.binds name = true → b.binds name = true

variable {s t u : Store} {scope : ScopeId} {name : String} {v : Value}

lemma lt_next_iff : scope < s.next ↔ ∃ a, s.scopes[scope]? = some a := by
  constructor
  · intro h
    exact ⟨s.scopes[scope], Array.getElem?_eq_getElem h⟩
  · rintro ⟨a, h⟩
    exact (Array.getElem?_eq_some_iff.1 h).1

namespace Extends

lemma refl (s : Store) : s.Extends s := ⟨fun _ a h => ⟨a, h, rfl, fun _ hn => hn⟩⟩

lemma trans (h : s.Extends t) (h' : t.Extends u) : s.Extends u := by
  constructor
  intro scope a ha
  obtain ⟨b, hb, hparent, hnames⟩ := h.kept scope a ha
  obtain ⟨c, hc, hparent', hnames'⟩ := h'.kept scope b hb
  exact ⟨c, hc, hparent'.trans hparent, fun name hn => hnames' name (hnames name hn)⟩

/-- No scope is gone. -/
lemma lt_next (h : s.Extends t) (hs : scope < s.next) : scope < t.next := by
  obtain ⟨a, ha⟩ := lt_next_iff.1 hs
  obtain ⟨b, hb, -⟩ := h.kept scope a ha
  exact lt_next_iff.2 ⟨b, hb⟩

/-- Scopes only become more. -/
lemma next_le (h : s.Extends t) : s.next ≤ t.next := by
  by_contra hlt
  exact Nat.lt_irrefl _ (h.lt_next (Nat.not_le.1 hlt))

/-- No parent has changed. -/
lemma parent?_eq (h : s.Extends t) (hs : scope < s.next) : t.parent? scope = s.parent? scope := by
  obtain ⟨a, ha⟩ := lt_next_iff.1 hs
  obtain ⟨b, hb, hparent, -⟩ := h.kept scope a ha
  simp [parent?, ha, hb, hparent]

/-- Sound values stay sound. -/
lemma value_sound (h : s.Extends t) (hv : v.Sound s) : v.Sound t :=
  fun c hc => ⟨h.lt_next (hv c hc).scope_lt, rfl⟩

end Extends

/-! ## Binding a name and making a scope -/

/-- The scopes after a name was bound. -/
lemma getElem?_define (s : Store) (place : ScopeId) (name : String) (v : Value) (scope : ScopeId) :
    (s.define place name v).scopes[scope]? =
      if place = scope then s.scopes[scope]?.map (·.define name v) else s.scopes[scope]? := by
  simp [define, Array.getElem?_modify]

/-- The scopes after one was made. -/
lemma getElem?_child (s : Store) (parent scope : ScopeId) :
    (s.child parent).scopes[scope]? =
      if scope = s.next then some ⟨some parent, []⟩ else s.scopes[scope]? :=
  Array.getElem?_push

@[simp] lemma next_define (s : Store) (place : ScopeId) (name : String) (v : Value) :
    (s.define place name v).next = s.next := by
  simp [define, next]

@[simp] lemma next_child (s : Store) (parent : ScopeId) : (s.child parent).next = s.next + 1 := by
  simp [child, next]

/-- What is bound after a name was bound anew is its value or was bound before. -/
lemma mem_bind {bindings : List (String × Value)} {b : String × Value}
    (h : b ∈ Scope.bind name v bindings) : b.2 = v ∨ b ∈ bindings := by
  induction bindings with
  | nil =>
    obtain rfl : b = (name, v) := by simpa [Scope.bind] using h
    exact .inl rfl
  | cons c rest ih =>
    obtain ⟨n, w⟩ := c
    unfold Scope.bind at h
    split at h
    · rcases List.mem_cons.1 h with rfl | h
      · exact .inl rfl
      · exact .inr (List.mem_cons_of_mem _ h)
    · rcases List.mem_cons.1 h with rfl | h
      · exact .inr (by simp)
      · exact (ih h).imp_right (List.mem_cons_of_mem _)

/-- Binding a name unbinds none. -/
lemma binds_define {a : Scope} {n : String} (h : a.binds n = true) :
    (a.define name v).binds n = true := by
  rw [Scope.binds_iff] at h ⊢
  rw [Scope.get?_define]
  split
  · rfl
  · exact h

/-- Binding a name only adds. -/
theorem extends_define (s : Store) (place : ScopeId) (name : String) (v : Value) :
    s.Extends (s.define place name v) := by
  constructor
  intro scope a ha
  rw [getElem?_define, ha]
  split
  · exact ⟨_, rfl, rfl, fun _ hn => binds_define hn⟩
  · exact ⟨a, rfl, rfl, fun _ hn => hn⟩

/-- Making a scope only adds. -/
theorem extends_child (s : Store) (parent : ScopeId) : s.Extends (s.child parent) := by
  constructor
  intro scope a ha
  have hlt : scope < s.next := lt_next_iff.2 ⟨a, ha⟩
  rw [getElem?_child, if_neg (Nat.ne_of_lt hlt)]
  exact ⟨a, ha, rfl, fun _ hn => hn⟩

/-- **Binding a sound value keeps the shape.** -/
theorem sound_define (hs : s.Sound) (hv : v.Sound s) (place : ScopeId) (name : String) :
    (s.define place name v).Sound := by
  have hext := extends_define s place name v
  have hparent : ∀ scope < s.next, (s.define place name v).parent? scope = s.parent? scope :=
    fun scope h => hext.parent?_eq h
  refine ⟨?_, ?_, ?_, ?_⟩
  · simpa using hs.root_lt
  · rw [hparent _ hs.root_lt]
    exact hs.root_parent
  · intro scope hlt hne
    rw [next_define] at hlt
    rw [hparent scope hlt]
    exact hs.parent_lt scope hlt hne
  · intro scope a ha b hb
    apply hext.value_sound
    rw [getElem?_define] at ha
    split at ha
    · obtain ⟨a', ha', rfl⟩ := Option.map_eq_some_iff.1 ha
      rcases mem_bind hb with hb | hb
      · exact hb ▸ hv
      · exact hs.value scope a' ha' b hb
    · exact hs.value scope a ha b hb

/-- **Making a scope under another keeps the shape.** -/
theorem sound_child (hs : s.Sound) {parent : ScopeId} (hp : parent < s.next) :
    (s.child parent).Sound := by
  have hext := extends_child s parent
  have hparent : ∀ scope < s.next, (s.child parent).parent? scope = s.parent? scope :=
    fun scope h => hext.parent?_eq h
  have hroot := hs.root_lt
  refine ⟨?_, ?_, ?_, ?_⟩
  · rw [next_child]
    exact Nat.lt_succ_of_lt hroot
  · rw [hparent _ hroot]
    exact hs.root_parent
  · intro scope hlt hne
    rw [next_child] at hlt
    by_cases hnew : scope = s.next
    · refine ⟨parent, hnew ▸ hp, ?_⟩
      simp [parent?, getElem?_child, hnew]
    · have hold : scope < s.next := Nat.lt_of_le_of_ne (Nat.le_of_lt_succ hlt) hnew
      rw [hparent scope hold]
      exact hs.parent_lt scope hold hne
  · intro scope a ha b hb
    apply hext.value_sound
    rw [getElem?_child] at ha
    split at ha
    · obtain rfl : Scope.mk (some parent) [] = a := by simpa using ha
      simp at hb
    · exact hs.value scope a ha b hb

/-! ## Looking names up -/

/-- A name resolves to a scope that is there and binds it. -/
lemma binds_of_resolve? {place : ScopeId} (h : s.resolve? name scope = some place) :
    ∃ a, s.scopes[place]? = some a ∧ a.binds name = true := by
  fun_induction s.resolve? name scope with
  | case1 => contradiction
  | case2 scope here hs hb =>
    obtain rfl : scope = place := by simpa using h
    exact ⟨here, hs, hb⟩
  | case3 => contradiction
  | case4 scope here hs hb parent hp hlt ih => exact ih h
  | case5 => contradiction

/-- A name that resolves has a value. -/
lemma get?_of_resolve? {place : ScopeId} (h : s.resolve? name scope = some place) :
    ∃ v, s.scopes[place]?.bind (·.get? name) = some v ∧ s.get? scope name = some v := by
  obtain ⟨a, ha, hb⟩ := binds_of_resolve? h
  obtain ⟨v, hv⟩ := Option.isSome_iff_exists.1 ((a.binds_iff name).symm.trans hb)
  exact ⟨v, by simpa [ha] using hv, by simpa [get?, h, ha] using hv⟩

/-- A value that is looked up is bound where its name is found. -/
lemma mem_of_get? (h : s.get? scope name = some v) :
    ∃ (place : ScopeId) (a : Scope), s.resolve? name scope = some place ∧ s.scopes[place]? = some a ∧
      (name, v) ∈ a.bindings := by
  unfold Store.get? at h
  cases hr : s.resolve? name scope with
  | none => simp [hr] at h
  | some place =>
    cases ha : s.scopes[place]? with
    | none => simp [hr, ha] at h
    | some a =>
      have hv : a.bindings.lookup name = some v := by simpa [hr, ha, Scope.get?] using h
      obtain ⟨before, after, hmem, -⟩ := List.lookup_eq_some_iff.1 hv
      exact ⟨place, a, rfl, ha, by rw [hmem]; simp⟩

/-- What is looked up in a store with sound values is sound. -/
lemma Sound.get? (hs : s.Sound) (h : s.get? scope name = some v) : v.Sound s := by
  obtain ⟨place, a, -, ha, hmem⟩ := mem_of_get? h
  exact hs.value place a ha (name, v) hmem

/-- Looking a name up as a walk from a scope along parents, to the first scope that binds it. Nothing
bounds this walk; that there is one means that it ends. -/
inductive Walk (s : Store) (name : String) : ScopeId → Option ScopeId → Prop
  | here {scope : ScopeId} {a : Scope} (h : s.scopes[scope]? = some a)
    (hb : a.binds name = true) : Walk s name scope (some scope)
  | top {scope : ScopeId} {a : Scope} (h : s.scopes[scope]? = some a) (hb : a.binds name = false)
    (hp : a.parent = none) : Walk s name scope none
  | up {scope parent : ScopeId} {a : Scope} {found : Option ScopeId}
    (h : s.scopes[scope]? = some a) (hb : a.binds name = false) (hp : a.parent = some parent)
    (hw : Walk s name parent found) : Walk s name scope found

/-- **Every walk ends**, and finds what the store resolves a name to.

**Proof sketch.** The parent of a scope was made before it, so the walk may be followed by induction
on scopes. -/
theorem walk_resolve? (hs : s.Sound) (name : String) (hlt : scope < s.next) :
    s.Walk name scope (s.resolve? name scope) := by
  induction scope using Nat.strongRecOn with
  | ind scope ih =>
    obtain ⟨a, ha⟩ := lt_next_iff.1 hlt
    rw [resolve?, ha]
    cases hb : a.binds name with
    | true => simpa [hb] using Walk.here ha hb
    | false =>
      have hparent : s.parent? scope = a.parent := by simp [parent?, ha]
      cases hp : a.parent with
      | none => simpa [hb, hp] using Walk.top ha hb hp
      | some parent =>
        have hne : scope ≠ root := by
          rintro rfl
          rw [hs.root_parent, hp] at hparent
          contradiction
        obtain ⟨q, hq, hqs⟩ := hs.parent_lt scope hlt hne
        obtain rfl : q = parent := by
          rw [hqs, hp] at hparent
          exact Option.some.inj hparent
        have hwalk := Walk.up ha hb hp (ih q hq (Nat.lt_trans hq hlt))
        simpa [hb, hp, hq] using hwalk

/-- A walk finds one thing at most. -/
theorem Walk.unique {found found' : Option ScopeId} (h : s.Walk name scope found)
    (h' : s.Walk name scope found') : found = found' := by
  induction h with
  | here ha hb =>
    cases h' with
    | here => rfl
    | top ha' hb' | up ha' hb' => simp_all
  | top ha hb hp =>
    cases h' with
    | here ha' hb' => simp_all
    | top => rfl
    | up ha' hb' hp' => simp_all
  | up ha hb hp _ ih =>
    cases h' with
    | here ha' hb' => simp_all
    | top ha' hb' hp' => simp_all
    | up ha' hb' hp' hw' =>
      simp_all

/-- A walk begins at a scope that is there. -/
lemma Walk.lt_next {found : Option ScopeId} (h : s.Walk name scope found) : scope < s.next := by
  cases h with
  | here h | top h | up h => exact lt_next_iff.2 ⟨_, h⟩

/-- **A name that resolves goes on to resolve.** -/
theorem Extends.isSome_resolve? (h : s.Extends t) (hr : (s.resolve? name scope).isSome) :
    (t.resolve? name scope).isSome := by
  fun_induction s.resolve? name scope with
  | case1 | case3 | case5 => contradiction
  | case2 scope here hs hb =>
    obtain ⟨b, hb', -, hnames⟩ := h.kept scope here hs
    rw [resolve?, hb']
    simp [hnames name hb]
  | case4 scope here hs hb parent hp hlt ih =>
    obtain ⟨b, hb', hparent, -⟩ := h.kept scope here hs
    rw [resolve?, hb']
    simp only [hparent, hp, hlt, if_true]
    split
    · rfl
    · exact ih hr

/-- Every chain of parents ends at the root. -/
theorem Sound.reaches_root (hs : s.Sound) (hlt : scope < s.next) :
    Relation.ReflTransGen s.IsBelow scope root := by
  induction scope using Nat.strongRecOn with
  | ind scope ih =>
    by_cases hroot : scope = root
    · rw [hroot]
    · obtain ⟨parent, hp, hparent⟩ := hs.parent_lt scope hlt hroot
      exact .head hparent (ih parent hp (Nat.lt_trans hp hlt))

/-- A chain of parents leads to scopes that were made before. -/
theorem Sound.lt_of_parents (hs : s.Sound) {i j : ScopeId}
    (h : Relation.TransGen s.IsBelow i j) : j < i := by
  have hstep : ∀ {i j : ScopeId}, s.IsBelow i j → j < i := by
    intro i j hij
    unfold IsBelow at hij
    have hlt : i < s.next := by
      cases ha : s.scopes[i]? with
      | none => simp [parent?, ha] at hij
      | some a => exact lt_next_iff.2 ⟨a, ha⟩
    have hne : i ≠ root := by
      rintro rfl
      rw [hs.root_parent] at hij
      contradiction
    obtain ⟨parent, hp, hparent⟩ := hs.parent_lt i hlt hne
    rw [hij] at hparent
    exact Option.some.inj hparent ▸ hp
  induction h with
  | single h => exact hstep h
  | tail _ h ih => exact Nat.lt_trans (hstep h) ih

end Store

end LoxLang
