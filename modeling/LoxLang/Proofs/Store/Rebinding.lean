import LoxLang.Proofs.Evaluation.Names
import LoxLang.Proofs.Store.Reach

set_option autoImplicit false

/-!
# Bindings that come in between

A name is found in the nearest scope that binds it, and scopes come to bind more names as time goes
on. So a name that is found in one scope may later be found in another, but only in one that is
nearer and came to bind it in the meantime. Scopes that bind other names only may be passed over.

## Main definitions

* `Store.Gains` — scopes come to bind no names but some.
* `Store.Way` — nothing but some names is bound on the way from a scope up to another.
* `Store.Nearer` — a scope on the way from a scope up to another.

## Main results

* `Store.Way.resolve?_eq` — other names are found from where the way leads.
* `Store.resolve?_later` — where a name is found later.
-/

namespace LoxLang

namespace Store

/-- No scope is gone, and none comes to bind a name that is not among some. -/
structure Gains (names : Set String) (s t : Store) : Prop where
  next_le : s.next ≤ t.next
  subset : ∀ scope < s.next, t.names scope ⊆ s.names scope ∪ names

/-- On the way from a scope up to another, scopes before the latter bind no names but some. -/
inductive Way (s : Store) (names : Set String) (outer : ScopeId) : ScopeId → Prop
  | here : Way s names outer outer
  | up {scope parent : ScopeId} (hp : s.IsBelow scope parent) (hn : s.names scope ⊆ names)
    (h : Way s names outer parent) : Way s names outer scope

/-- A scope is on the way from a scope up to another, and before the latter. -/
structure Nearer (s : Store) (scope place q : ScopeId) : Prop where
  below : Relation.ReflTransGen s.IsBelow scope q
  above : Relation.TransGen s.IsBelow q place

variable {s t u : Store} {names more : Set String} {scope parent place outer : ScopeId}
  {name : String}

namespace Gains

lemma trans (h : s.Gains names t) (h' : t.Gains names u) : s.Gains names u := by
  refine ⟨Nat.le_trans h.next_le h'.next_le, fun scope hlt => ?_⟩
  calc u.names scope
    _ ⊆ t.names scope ∪ names := h'.subset scope (Nat.lt_of_lt_of_le hlt h.next_le)
    _ ⊆ s.names scope ∪ names := Set.union_subset (h.subset scope hlt) Set.subset_union_right

lemma mono (h : s.Gains names t) (hsub : names ⊆ more) : s.Gains more t :=
  ⟨h.next_le, fun scope hlt => (h.subset scope hlt).trans (Set.union_subset_union_right _ hsub)⟩

end Gains

/-- Where names are kept no name is gained. -/
lemma KeepsNames.gains (h : s.KeepsNames ∅ t) (names : Set String) : s.Gains names t := by
  refine ⟨h.next_le, fun scope hlt => ?_⟩
  rw [h.names_eq scope hlt (Set.notMem_empty scope)]
  exact Set.subset_union_left

/-- Making a scope keeps the names in the others. -/
lemma KeepsNames.child (s : Store) (parent : ScopeId) : s.KeepsNames ∅ (s.child parent) :=
  .opened (.refl _ _)

/-- Binding a name gains that name at most. -/
lemma gains_define (place : ScopeId) (name : String) (v : Value) :
    s.Gains {name} (s.define place name v) := by
  refine ⟨(next_define s place name v).ge, fun scope hlt => ?_⟩
  by_cases h : place = scope
  · rw [h, names_define_self hlt, Set.union_singleton]
  · rw [names_define_of_ne h]
    exact Set.subset_union_left

/-- A new scope binds nothing. -/
lemma names_child_next (s : Store) (parent : ScopeId) : (s.child parent).names s.next = ∅ := by
  ext name
  simp [names, getElem?_child, Scope.binds]

/-! ## One scope at a time -/

/-- A name is found in a scope that binds it. -/
lemma resolve?_of_mem_names (h : name ∈ s.names scope) : s.resolve? name scope = some scope := by
  obtain ⟨a, ha, hb⟩ := h
  rw [resolve?, ha]
  simp [hb]

/-- A name that a scope does not bind is found from its parent. -/
lemma Sound.resolve?_of_isBelow (hs : s.Sound) (hp : s.IsBelow scope parent)
    (h : name ∉ s.names scope) : s.resolve? name scope = s.resolve? name parent := by
  obtain ⟨a, ha⟩ := lt_next_iff.1 (Links.parent hp).lt_next
  have hparent : a.parent = some parent := by
    unfold IsBelow parent? at hp
    rwa [ha, Option.bind_some] at hp
  have hlt : parent < scope := hs.lt_of_parents (.single hp)
  have hb : ¬ a.binds name = true := fun hb => h ⟨a, ha, hb⟩
  conv_lhs => rw [resolve?, ha]
  simp [hb, hparent, hlt]

/-- Parents are kept. -/
lemma Extends.isBelow (h : s.Extends t) (hp : s.IsBelow scope parent) : t.IsBelow scope parent :=
  (h.parent?_eq (Links.parent hp).lt_next).trans hp

/-! ## Scopes that are passed over -/

namespace Way

/-- The way goes on to bind no names but some if none but these are gained. -/
lemma later (h : s.Way names outer scope) (hext : s.Extends t) (hgains : s.Gains names t) :
    t.Way names outer scope := by
  induction h with
  | here => exact .here
  | up hp hn _ ih =>
    have hsub := hgains.subset _ (Links.parent hp).lt_next
    exact .up (hext.isBelow hp) (hsub.trans (Set.union_subset hn Set.Subset.rfl)) ih

/-- A new scope lengthens the way. -/
lemma child (h : s.Way names outer scope) : (s.child scope).Way names outer s.next := by
  refine .up ?_ ?_ (h.later (extends_child s scope) ((KeepsNames.child s scope).gains names))
  · simp [IsBelow, parent?, getElem?_child]
  · rw [names_child_next]
    exact Set.empty_subset names

/-- **Other names are found from where the way leads.** -/
theorem resolve?_eq (h : s.Way names outer scope) (hs : s.Sound) (hname : name ∉ names) :
    s.resolve? name scope = s.resolve? name outer := by
  induction h with
  | here => rfl
  | up hp hn _ ih => rw [hs.resolve?_of_isBelow hp fun hmem => hname (hn hmem), ih]

end Way

/-! ## Where a name is found later -/

/-- A scope on the way stays on it if the way begins earlier. -/
lemma Nearer.head {q : ScopeId} (hp : s.IsBelow scope parent) (h : s.Nearer parent place q) :
    s.Nearer scope place q := ⟨.head hp h.below, h.above⟩

/-- A scope on the way is where it begins or on the way from the parent. -/
lemma Nearer.cases_head {q : ScopeId} (h : s.Nearer scope place q)
    (hp : s.IsBelow scope parent) : q = scope ∨ s.Nearer parent place q := by
  rcases h.below.cases_head with rfl | ⟨i, hi, hrest⟩
  · exact .inl rfl
  · obtain rfl : parent = i := Option.some.inj (hp.symm.trans hi)
    exact .inr ⟨hrest, h.above⟩

/-- No scope is on the way from a scope to itself. -/
lemma Sound.not_nearer_self {q : ScopeId} (hs : s.Sound) : ¬ s.Nearer scope scope q := by
  intro h
  exact Nat.lt_irrefl scope (hs.lt_of_parents (h.above.trans_right h.below))

/-- **Where a name is found later.** Let a name be found, and let some scopes come to bind it. Later it
is found in the same scope, or on the way there in one of those that came to bind it; and in none of
these that would be nearer still.

**Proof sketch.** The first scope on the way binds the name later if it came to bind it, and then the
name is found there. If not, the name is found from its parent, as before. -/
theorem resolve?_later {Came : ScopeId → Prop} (hs : s.Sound) (ht : t.Sound) (hext : s.Extends t)
    (hnames : ∀ i < s.next, name ∈ t.names i ↔ name ∈ s.names i ∨ Came i)
    (h : s.resolve? name scope = some place) :
    ∃ found, t.resolve? name scope = some found ∧
      (found = place ∨ s.Nearer scope place found ∧ Came found) ∧
      ∀ q, s.Nearer scope found q → ¬ Came q := by
  fun_induction s.resolve? name scope with
  | case1 | case3 | case5 => contradiction
  | case2 scope here ha hb =>
    obtain rfl : scope = place := Option.some.inj h
    have hmem : name ∈ t.names scope := (hnames scope (lt_next_iff.2 ⟨here, ha⟩)).2 (.inl ⟨_, ha, hb⟩)
    exact ⟨scope, resolve?_of_mem_names hmem, .inl rfl, fun q hq => absurd hq hs.not_nearer_self⟩
  | case4 scope here ha hb parent hparent hlt ih =>
    have hp : s.IsBelow scope parent := by simp [IsBelow, parent?, ha, hparent]
    have hold : name ∉ s.names scope := by
      rintro ⟨a, ha', hb'⟩
      obtain rfl := Option.some.inj (ha.symm.trans ha')
      exact hb hb'
    have hiff := hnames scope (Links.parent hp).lt_next
    by_cases hcame : Came scope
    · have hnearer : s.Nearer scope place scope := ⟨.refl, .head' hp (below_of_resolve? h)⟩
      exact ⟨scope, resolve?_of_mem_names (hiff.2 (.inr hcame)), .inr ⟨hnearer, hcame⟩,
        fun q hq => absurd hq hs.not_nearer_self⟩
    · have hnot : name ∉ t.names scope := fun hmem => (hiff.1 hmem).elim hold hcame
      obtain ⟨found, hfound, hplace, hnone⟩ := ih h
      refine ⟨found, ?_, ?_, fun q hq => ?_⟩
      · rw [ht.resolve?_of_isBelow (hext.isBelow hp) hnot, hfound]
      · exact hplace.imp_right fun hnearer => ⟨hnearer.1.head hp, hnearer.2⟩
      · rcases hq.cases_head hp with rfl | hq
        · exact hcame
        · exact hnone q hq

end Store

end LoxLang
