import LoxLang.Proofs.Store.Shape

set_option autoImplicit false

/-!
# What a scope can reach

A scope leads to its parent, and to the scopes of the function values that it binds. What can be
reached along such links is all that code in the scope may read or change; the rest of the store is
out of its reach. Binding a name and making a scope add no link but to the value bound and to the
parent.

## Main definitions

* `Value.scope?` — the scope of a function value.
* `Store.captured` — the scopes of the function values that a scope binds.
* `Store.Links`, `Store.Reaches` — one link, and any number of them.
* `Store.ReachedFrom` — what can be reached from some scopes.

## Main results

* `Store.below_of_resolve?` — names are found along parents.
* `Store.links_define`, `Store.links_child` — the links that binding a name and making a scope add.
* `Store.Sound.lt_of_links` — links lead to scopes that are there.
* `Store.Sound.captured_of_reaches` — scopes under one parent reach each other through function
  values only.
-/

namespace LoxLang

/-- The scope of a function value. -/
def Value.scope? : Value → Option ScopeId
  | .closure f => some f.scope
  | _ => none

namespace Store

/-- The scopes of the function values that a scope binds. -/
def captured (s : Store) (scope : ScopeId) : List ScopeId :=
  match s.scopes[scope]? with
  | some a => a.bindings.filterMap fun b => b.2.scope?
  | none => []

/-- A scope leads to its parent, and to the scope of every function value that it binds. -/
inductive Links (s : Store) (scope : ScopeId) : ScopeId → Prop
  | parent {parent : ScopeId} (h : s.IsBelow scope parent) : Links s scope parent
  | captured {captured : ScopeId} (h : captured ∈ s.captured scope) : Links s scope captured

/-- What can be reached from a scope: the least set of scopes that holds it and goes on along
links. -/
def Reaches (s : Store) : ScopeId → ScopeId → Prop := Relation.ReflTransGen s.Links

/-- What can be reached from some scopes. -/
def ReachedFrom (s : Store) (roots : List ScopeId) (scope : ScopeId) : Prop :=
  ∃ root ∈ roots, s.Reaches root scope

variable {s : Store} {scope place target : ScopeId} {name : String} {v : Value}
  {roots : List ScopeId}

lemma mem_captured_iff : target ∈ s.captured scope ↔
    ∃ a, s.scopes[scope]? = some a ∧ ∃ b ∈ a.bindings, b.2.scope? = some target := by
  unfold captured
  cases s.scopes[scope]? <;> simp

/-- What links lead to from what is reached is reached. -/
lemma ReachedFrom.links (h : s.ReachedFrom roots scope) (hl : s.Links scope target) :
    s.ReachedFrom roots target := by
  obtain ⟨root, hroot, hreach⟩ := h
  exact ⟨root, hroot, hreach.tail hl⟩

/-- What holds of some scopes and goes on along links holds of all that can be reached. -/
lemma ReachedFrom.invariant {P : ScopeId → Prop} (h : s.ReachedFrom roots scope)
    (hroots : ∀ root ∈ roots, P root) (hlinks : ∀ i j, P i → s.Links i j → P j) : P scope := by
  obtain ⟨root, hroot, hreach⟩ := h
  induction hreach with
  | refl => exact hroots root hroot
  | tail _ hl ih => exact hlinks _ _ ih hl

/-- **A name is found along parents.** -/
lemma below_of_resolve? (h : s.resolve? name scope = some place) :
    Relation.ReflTransGen s.IsBelow scope place := by
  fun_induction s.resolve? name scope with
  | case1 | case3 | case5 => contradiction
  | case2 scope here hs hb =>
    obtain rfl : scope = place := by simpa using h
    exact .refl
  | case4 scope here hs hb parent hp hlt ih =>
    have hbelow : s.IsBelow scope parent := by simp [IsBelow, parent?, hs, hp]
    exact .head hbelow (ih h)

/-- **Binding a name adds a link to the scope of its value** and no other. -/
theorem links_define (h : (s.define place name v).Links scope target) :
    s.Links scope target ∨ scope = place ∧ v.scope? = some target := by
  cases h with
  | parent h =>
    refine .inl (.parent ?_)
    unfold IsBelow parent? at h ⊢
    rw [getElem?_define] at h
    split at h
    · cases ha : s.scopes[scope]? <;> simp_all [Scope.define]
    · exact h
  | captured h =>
    obtain ⟨a, ha, b, hb, hv⟩ := mem_captured_iff.1 h
    rw [getElem?_define] at ha
    split at ha
    · rename_i hplace
      obtain ⟨a', ha', rfl⟩ := Option.map_eq_some_iff.1 ha
      rcases mem_bind hb with hnew | hold
      · exact .inr ⟨hplace.symm, hnew ▸ hv⟩
      · exact .inl (.captured (mem_captured_iff.2 ⟨a', ha', b, hold, hv⟩))
    · exact .inl (.captured (mem_captured_iff.2 ⟨a, ha, b, hb, hv⟩))

/-- **Making a scope adds a link to its parent** and no other. -/
theorem links_child {parent : ScopeId} (h : (s.child parent).Links scope target) :
    s.Links scope target ∨ scope = s.next ∧ target = parent := by
  cases h with
  | parent h =>
    unfold IsBelow parent? at h
    rw [getElem?_child] at h
    split at h
    · rename_i hnew
      exact .inr ⟨hnew, by simpa using h.symm⟩
    · exact .inl (.parent h)
  | captured h =>
    obtain ⟨a, ha, b, hb, hv⟩ := mem_captured_iff.1 h
    rw [getElem?_child] at ha
    split at ha
    · obtain rfl : Scope.mk (some parent) [] = a := by simpa using ha
      simp at hb
    · exact .inl (.captured (mem_captured_iff.2 ⟨a, ha, b, hb, hv⟩))

/-- Links begin at scopes that are there. -/
lemma Links.lt_next (h : s.Links scope target) : scope < s.next := by
  cases h with
  | parent h =>
    cases ha : s.scopes[scope]? with
    | none => simp [IsBelow, parent?, ha] at h
    | some a => exact lt_next_iff.2 ⟨a, ha⟩
  | captured h =>
    obtain ⟨a, ha, -⟩ := mem_captured_iff.1 h
    exact lt_next_iff.2 ⟨a, ha⟩

/-- Links lead to scopes that are there. -/
lemma Sound.lt_of_links (hs : s.Sound) (h : s.Links scope target) : target < s.next := by
  have hscope := h.lt_next
  cases h with
  | parent h => exact Nat.lt_trans (hs.lt_of_parents (.single h)) hscope
  | captured h =>
    obtain ⟨a, ha, ⟨name, v⟩, hb, hv⟩ := mem_captured_iff.1 h
    cases v with
    | closure f =>
      obtain rfl : f.scope = target := by simpa [Value.scope?] using hv
      exact (hs.value scope a ha _ hb f rfl).scope_lt
    | nil | bool | number | string | native => simp [Value.scope?] at hv

/-- What is reached lies on the way to the root, unless a function value leads off it. -/
lemma Reaches.below_or_captured (h : s.Reaches scope target) :
    Relation.ReflTransGen s.IsBelow scope target ∨
      ∃ i, s.Reaches scope i ∧ ∃ captured ∈ s.captured i,
        Relation.ReflTransGen s.IsBelow captured target := by
  induction h with
  | refl => exact .inl .refl
  | @tail j k hj hl ih =>
    cases hl with
    | parent hp =>
      rcases ih with hbelow | ⟨i, hi, captured, hc, hbelow⟩
      · exact .inl (hbelow.tail hp)
      · exact .inr ⟨i, hi, captured, hc, hbelow.tail hp⟩
    | captured hc => exact .inr ⟨j, hj, k, hc, .refl⟩

/-- **Scopes under one parent reach each other through function values only.** -/
theorem Sound.captured_of_reaches (hs : s.Sound) {parent : ScopeId} (hne : scope ≠ target)
    (hscope : s.IsBelow scope parent) (htarget : s.IsBelow target parent)
    (h : s.Reaches scope target) :
    ∃ i, s.Reaches scope i ∧ ∃ captured ∈ s.captured i,
      Relation.ReflTransGen s.IsBelow captured target := by
  refine h.below_or_captured.resolve_left fun hbelow => ?_
  rcases hbelow.cases_head with heq | ⟨i, hi, hrest⟩
  · exact hne heq
  · -- The walk would have to come back to where the parent of its target is already passed.
    obtain rfl : parent = i := Option.some.inj (hscope.symm.trans hi)
    exact Nat.lt_irrefl parent (hs.lt_of_parents (.tail' hrest htarget))

end Store

end LoxLang
