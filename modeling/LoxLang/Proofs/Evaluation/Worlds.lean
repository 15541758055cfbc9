import LoxLang.Proofs.Evaluation.Correspondence
import LoxLang.Proofs.Store.Shape

set_option autoImplicit false

/-!
# Stores that correspond

The runs of two corresponding programs make scopes in the same order, but for those that come from
braces on one side only. A *world* tells for every scope of the second store which scope of the first
one it stands for. It is *thin* if it comes from such braces: then it binds nothing, and it stands
for the same scope as its parent. Any other scope binds what the scope that it stands for binds, name
by name, and no two of these stand for the same scope.

Worlds only grow, so what corresponds in a world does so in later ones.

## Main definitions

* `World` — what the scopes of a second store stand for.
* `Correspondence.Values` — values that correspond in a world.
* `Correspondence.Stores`, `Correspondence.Machines` — stores and machines that correspond.
* `Correspondence.Finer` — one correspondence allows less than another.

## Main results

* `Correspondence.Stores.resolve?` — names resolve to scopes that correspond.
* `Correspondence.Stores.define`, `Correspondence.Stores.child` — binding a name and making a scope
  on both sides keep the correspondence.
* `Correspondence.Stores.thin` — so does making a scope for braces on the second side only.
-/

namespace LoxLang

/-! ## Worlds -/

/-- What a scope of a second store stands for. -/
structure Standing where
  scope : ScopeId
  /-- It binds nothing, and stands for the same scope as its parent. -/
  thin : Bool

/-- What the scopes of a second store stand for, in the order of their places. -/
abbrev World := List Standing

namespace World

variable {ρ ρ' : World} {σ σ' : ScopeId}

/-- A scope of the second store stands for a scope of the first one. -/
def Stands (ρ : World) (σ σ' : ScopeId) : Prop := ∃ thin, ρ[σ']? = some ⟨σ, thin⟩

/-- A scope of the second store stands for a scope of the first one and binds the same names. -/
def Solid (ρ : World) (σ σ' : ScopeId) : Prop := ρ[σ']? = some ⟨σ, false⟩

lemma Solid.stands (h : ρ.Solid σ σ') : ρ.Stands σ σ' := ⟨false, h⟩

/-- What a scope stands for does not change. -/
lemma getElem?_of_prefix {st : Standing} (h : ρ[σ']? = some st) (hρ : ρ <+: ρ') :
    ρ'[σ']? = some st := by
  obtain ⟨more, rfl⟩ := hρ
  rw [List.getElem?_append_left (List.getElem?_eq_some_iff.1 h).1, h]

lemma Stands.mono (h : ρ.Stands σ σ') (hρ : ρ <+: ρ') : ρ'.Stands σ σ' := by
  obtain ⟨thin, h⟩ := h
  exact ⟨thin, getElem?_of_prefix h hρ⟩

lemma Solid.mono (h : ρ.Solid σ σ') (hρ : ρ <+: ρ') : ρ'.Solid σ σ' := getElem?_of_prefix h hρ

/-- The scope that was made last is the only one that an earlier world does not know. -/
lemma getElem?_concat {i : Nat} {st st' : Standing} (h : (ρ ++ [st])[i]? = some st') :
    ρ[i]? = some st' ∨ i = ρ.length ∧ st' = st := by
  rcases Nat.lt_trichotomy i ρ.length with hlt | rfl | hgt
  · left
    rwa [List.getElem?_append_left hlt] at h
  · right
    simpa [eq_comm] using h
  · rw [List.getElem?_eq_none (by simp; omega)] at h
    contradiction

lemma getElem?_concat_length (ρ : World) (st : Standing) : (ρ ++ [st])[ρ.length]? = some st := by
  simp

end World

namespace Correspondence

variable (κ : Correspondence)

/-- Values that correspond, wherever their scopes are. -/
def Similar (v v' : Value) : Prop := v.Similar κ.Name κ.Bodies v'

/-- Values that correspond in a world: the scopes of function values do. -/
inductive Values (ρ : World) : Value → Value → Prop
  | plain {v : Value} (h : ∀ f, v ≠ .closure f) : Values ρ v v
  | closure {f g : Closure} (h : κ.Similar (.closure f) (.closure g))
    (hs : ρ.Stands f.scope g.scope) : Values ρ (.closure f) (.closure g)

variable {κ}

lemma Values.similar {ρ : World} {v v' : Value} (h : κ.Values ρ v v') : κ.Similar v v' := by
  cases h with
  | plain hv => exact .plain hv
  | closure h => exact h

lemma Values.mono {ρ ρ' : World} {v v' : Value} (h : κ.Values ρ v v') (hρ : ρ <+: ρ') :
    κ.Values ρ' v v' := by
  cases h with
  | plain hv => exact .plain hv
  | closure h hs => exact .closure h (hs.mono hρ)

/-! ## Bindings -/

/-- Bindings that correspond: the same names with corresponding values, in the same order. -/
def Bindings (κ : Correspondence) (ρ : World) : List (String × Value) → List (String × Value) → Prop :=
  List.Forall₂ fun b b' => b'.1 = κ.rename b.1 ∧ κ.Values ρ b.2 b'.2

namespace Bindings

variable {ρ ρ' : World} {bs bs' : List (String × Value)}

lemma mono (h : κ.Bindings ρ bs bs') (hρ : ρ <+: ρ') : κ.Bindings ρ' bs bs' :=
  List.Forall₂.imp (fun _ _ hb => ⟨hb.1, hb.2.mono hρ⟩) h

/-- Names are told apart on the second side as they are on the first. -/
lemma rename_beq (κ : Correspondence) (n m : String) :
    (κ.rename n == κ.rename m) = (n == m) := by
  rw [Bool.eq_iff_iff, beq_iff_eq, beq_iff_eq]
  exact κ.rename_injective.eq_iff

lemma lookup (h : κ.Bindings ρ bs bs') (name : String) :
    Option.Rel (κ.Values ρ) (bs.lookup name) (bs'.lookup (κ.rename name)) := by
  induction h with
  | nil => exact .none
  | @cons b b' bs bs' hb _ ih =>
    obtain ⟨n, v⟩ := b
    obtain ⟨n', v'⟩ := b'
    obtain ⟨rfl, hv⟩ := hb
    rw [List.lookup_cons, List.lookup_cons, rename_beq]
    cases name == n with
    | true => exact .some hv
    | false => exact ih

lemma bind (h : κ.Bindings ρ bs bs') (name : String) {v v' : Value} (hv : κ.Values ρ v v') :
    κ.Bindings ρ (Scope.bind name v bs) (Scope.bind (κ.rename name) v' bs') := by
  induction h with
  | nil => exact .cons ⟨rfl, hv⟩ .nil
  | @cons b b' bs bs' hb hbs ih =>
    obtain ⟨n, w⟩ := b
    obtain ⟨n', w'⟩ := b'
    obtain ⟨rfl, hw⟩ := hb
    rw [Scope.bind, Scope.bind, rename_beq]
    cases n == name with
    | true => exact .cons ⟨rfl, hv⟩ hbs
    | false => exact .cons ⟨rfl, hw⟩ ih

end Bindings

/-! ## Stores -/

/-- The parents of two scopes are both missing, or they were made before and correspond. -/
inductive Parents (ρ : World) (σ σ' : ScopeId) : Option ScopeId → Option ScopeId → Prop
  | top : Parents ρ σ σ' none none
  | up {p p' : ScopeId} (h : p < σ) (h' : p' < σ') (hp : ρ.Stands p p') :
    Parents ρ σ σ' (some p) (some p')

lemma Parents.mono {ρ ρ' : World} {σ σ' : ScopeId} {p p' : Option ScopeId}
    (h : Parents ρ σ σ' p p') (hρ : ρ <+: ρ') : Parents ρ' σ σ' p p' := by
  cases h with
  | top => exact .top
  | up h h' hp => exact .up h h' (hp.mono hρ)

/-- Stores that correspond in a world. -/
structure Stores (κ : Correspondence) (ρ : World) (s s' : Store) : Prop where
  length_eq : ρ.length = s'.next
  root : ρ.Solid Store.root Store.root
  solid : ∀ σ σ', ρ.Solid σ σ' → ∃ a a', s.scopes[σ]? = some a ∧ s'.scopes[σ']? = some a' ∧
    κ.Bindings ρ a.bindings a'.bindings ∧ Parents ρ σ σ' a.parent a'.parent
  hollow : ∀ σ σ', ρ[σ']? = some ⟨σ, true⟩ →
    κ.braces ∧ ∃ p' < σ', s'.scopes[σ']? = some ⟨some p', []⟩ ∧ ρ.Stands σ p'
  unique : ∀ σ i j, ρ.Solid σ i → ρ.Solid σ j → i = j

namespace Stores

variable {ρ : World} {s s' : Store} {σ σ' : ScopeId}

/-- A scope stands for one that is there. -/
lemma lt_next (h : κ.Stores ρ s s') (hσ : ρ.Stands σ σ') : σ < s.next := by
  induction σ' using Nat.strongRecOn with
  | ind σ' ih =>
    obtain ⟨thin, hσ⟩ := hσ
    cases thin with
    | false =>
      obtain ⟨a, -, ha, -⟩ := h.solid σ σ' hσ
      exact Store.lt_next_iff.2 ⟨a, ha⟩
    | true =>
      obtain ⟨-, p', hlt, -, hp⟩ := h.hollow σ σ' hσ
      exact ih p' hlt hp

/-- Without braces every scope binds what the scope that it stands for binds. -/
lemma solid_of_not_braces (h : κ.Stores ρ s s') (hb : ¬ κ.braces) (hσ : ρ.Stands σ σ') :
    ρ.Solid σ σ' := by
  obtain ⟨thin, hσ⟩ := hσ
  cases thin with
  | false => exact hσ
  | true => exact absurd (h.hollow σ σ' hσ).1 hb

/-- **Names resolve to scopes that correspond**, and these bind them.

**Proof sketch.** Induction on the scope of the second store. From a thin scope the walk goes on to
its parent, on the second side only; otherwise the names that are bound are the same, and both walks
go on to the parents. -/
theorem resolve? (h : κ.Stores ρ s s') (hσ : ρ.Stands σ σ') (name : String) :
    Option.Rel ρ.Solid (s.resolve? name σ) (s'.resolve? (κ.rename name) σ') := by
  induction σ' using Nat.strongRecOn generalizing σ with
  | ind σ' ih =>
    obtain ⟨thin, hstands⟩ := hσ
    cases thin with
    | true =>
      obtain ⟨-, p', hlt, ha', hp⟩ := h.hollow σ σ' hstands
      rw [Store.resolve?.eq_def s', ha']
      simpa [Scope.binds, hlt] using ih p' hlt hp
    | false =>
      obtain ⟨a, a', ha, ha', hbindings, hparents⟩ := h.solid σ σ' hstands
      have hbinds : a'.binds (κ.rename name) = a.binds name := by
        have hvalues := hbindings.lookup name
        rw [Scope.binds_iff, Scope.binds_iff, Scope.get?, Scope.get?]
        generalize a.bindings.lookup name = v at hvalues
        generalize a'.bindings.lookup (κ.rename name) = v' at hvalues
        cases hvalues <;> rfl
      rw [Store.resolve?.eq_def s, Store.resolve?.eq_def s', ha, ha']
      simp only [hbinds]
      cases a.binds name with
      | true => exact .some hstands
      | false =>
        generalize a.parent = p at hparents
        generalize a'.parent = p' at hparents
        cases hparents with
        | top => exact .none
        | up hlt hlt' hp => simpa [hlt, hlt'] using ih _ hlt' hp

/-- **Names have values that correspond.** -/
theorem get? (h : κ.Stores ρ s s') (hσ : ρ.Stands σ σ') (name : String) :
    Option.Rel (κ.Values ρ) (s.get? σ name) (s'.get? σ' (κ.rename name)) := by
  have hplaces := h.resolve? hσ name
  unfold Store.get?
  generalize s.resolve? name σ = place at hplaces
  generalize s'.resolve? (κ.rename name) σ' = place' at hplaces
  cases hplaces with
  | none => exact .none
  | some hsolid =>
    obtain ⟨a, a', ha, ha', hbindings, -⟩ := h.solid _ _ hsolid
    simpa [ha, ha', Scope.get?] using hbindings.lookup name

/-- **Binding a name on both sides** keeps the correspondence. -/
theorem define (h : κ.Stores ρ s s') (hσ : ρ.Solid σ σ') (name : String) {v v' : Value}
    (hv : κ.Values ρ v v') :
    κ.Stores ρ (s.define σ name v) (s'.define σ' (κ.rename name) v') := by
  refine ⟨by simpa using h.length_eq, h.root, fun τ τ' hτ => ?_, fun τ τ' hτ => ?_, h.unique⟩
  · obtain ⟨a, a', ha, ha', hbindings, hparents⟩ := h.solid τ τ' hτ
    rw [Store.getElem?_define, Store.getElem?_define, ha, ha']
    by_cases hsame : σ = τ
    · subst hsame
      obtain rfl := h.unique _ _ _ hσ hτ
      rw [if_pos rfl, if_pos rfl]
      exact ⟨_, _, rfl, rfl, hbindings.bind name hv, hparents⟩
    · have hsame' : σ' ≠ τ' := by
        rintro rfl
        rw [World.Solid, hσ] at hτ
        exact hsame (congrArg Standing.scope (Option.some.inj hτ))
      rw [if_neg hsame, if_neg hsame']
      exact ⟨a, a', rfl, rfl, hbindings, hparents⟩
  · obtain ⟨hb, p', hlt, ha', hp⟩ := h.hollow τ τ' hτ
    have hsame' : σ' ≠ τ' := by
      rintro rfl
      have hthin := Option.some.inj (Eq.trans hσ.symm hτ)
      simp at hthin
    refine ⟨hb, p', hlt, ?_, hp⟩
    rw [Store.getElem?_define, if_neg hsame', ha']

/-- A scope that is made later changes nothing about those that are there. -/
lemma getElem?_child_of_some {scope parent : ScopeId} {a : Scope} (ha : s.scopes[scope]? = some a) :
    (s.child parent).scopes[scope]? = some a := by
  rw [Store.getElem?_child, if_neg (Nat.ne_of_lt (Store.lt_next_iff.2 ⟨a, ha⟩)), ha]

/-- **Making a scope on both sides** keeps the correspondence. -/
theorem child (h : κ.Stores ρ s s') (hσ : ρ.Stands σ σ') :
    κ.Stores (ρ ++ [⟨s.next, false⟩]) (s.child σ) (s'.child σ') := by
  have hρ : ρ <+: ρ ++ [⟨s.next, false⟩] := List.prefix_append _ _
  have hσ' : σ' < s'.next := by
    obtain ⟨thin, hstands⟩ := hσ
    rw [← h.length_eq]
    exact (List.getElem?_eq_some_iff.1 hstands).1
  refine ⟨by simp [h.length_eq], h.root.mono hρ, fun τ τ' hτ => ?_, fun τ τ' hτ => ?_,
    fun τ i j hi hj => ?_⟩
  · rcases World.getElem?_concat hτ with hold | ⟨hτ', hnew⟩
    · obtain ⟨a, a', ha, ha', hbindings, hparents⟩ := h.solid τ τ' hold
      exact ⟨a, a', getElem?_child_of_some ha, getElem?_child_of_some ha', hbindings.mono hρ,
        hparents.mono hρ⟩
    · obtain rfl : τ = s.next := congrArg Standing.scope hnew
      rw [h.length_eq] at hτ'
      refine ⟨⟨some σ, []⟩, ⟨some σ', []⟩, ?_, ?_, .nil, ?_⟩
      · rw [Store.getElem?_child, if_pos rfl]
      · rw [Store.getElem?_child, if_pos hτ']
      · exact .up (h.lt_next hσ) (hτ' ▸ hσ') (hσ.mono hρ)
  · rcases World.getElem?_concat hτ with hold | ⟨-, hnew⟩
    · obtain ⟨hb, p', hlt, ha', hp⟩ := h.hollow τ τ' hold
      exact ⟨hb, p', hlt, getElem?_child_of_some ha', hp.mono hρ⟩
    · simp at hnew
  · have hfresh : ∀ k, ρ.Solid s.next k → False := fun k hk =>
      Nat.lt_irrefl _ (h.lt_next hk.stands)
    rcases World.getElem?_concat hi with hold | ⟨hlast, hnew⟩
    · rcases World.getElem?_concat hj with hold' | ⟨-, hnew'⟩
      · exact h.unique τ i j hold hold'
      · obtain rfl : τ = s.next := congrArg Standing.scope hnew'
        exact (hfresh i hold).elim
    · obtain rfl : τ = s.next := congrArg Standing.scope hnew
      rcases World.getElem?_concat hj with hold' | ⟨hlast', -⟩
      · exact (hfresh j hold').elim
      · exact hlast.trans hlast'.symm

/-- **Making a scope for braces on the second side** keeps the correspondence. It stands for the
scope in which the braces stand. -/
theorem thin (h : κ.Stores ρ s s') (hb : κ.braces) (hσ : ρ.Stands σ σ') :
    κ.Stores (ρ ++ [⟨σ, true⟩]) s (s'.child σ') := by
  have hρ : ρ <+: ρ ++ [⟨σ, true⟩] := List.prefix_append _ _
  have hσ' : σ' < s'.next := by
    obtain ⟨thin, hstands⟩ := hσ
    rw [← h.length_eq]
    exact (List.getElem?_eq_some_iff.1 hstands).1
  have hsolid : ∀ {τ τ'}, (ρ ++ [⟨σ, true⟩] : World).Solid τ τ' → ρ.Solid τ τ' := by
    intro τ τ' hτ
    rcases World.getElem?_concat hτ with hold | ⟨-, hnew⟩
    · exact hold
    · simp at hnew
  refine ⟨by simp [h.length_eq], h.root.mono hρ, fun τ τ' hτ => ?_, fun τ τ' hτ => ?_,
    fun τ i j hi hj => h.unique τ i j (hsolid hi) (hsolid hj)⟩
  · obtain ⟨a, a', ha, ha', hbindings, hparents⟩ := h.solid τ τ' (hsolid hτ)
    exact ⟨a, a', ha, getElem?_child_of_some ha', hbindings.mono hρ, hparents.mono hρ⟩
  · rcases World.getElem?_concat hτ with hold | ⟨hτ', hnew⟩
    · obtain ⟨hb, p', hlt, ha', hp⟩ := h.hollow τ τ' hold
      exact ⟨hb, p', hlt, getElem?_child_of_some ha', hp.mono hρ⟩
    · obtain rfl : τ = σ := congrArg Standing.scope hnew
      rw [h.length_eq] at hτ'
      refine ⟨hb, σ', hτ' ▸ hσ', ?_, hσ.mono hρ⟩
      rw [Store.getElem?_child, if_pos hτ']

end Stores

/-! ## Machines -/

/-- Entries of output that correspond: they show values that do. -/
def Shown (κ : Correspondence) (text text' : String) : Prop :=
  ∃ v v', κ.Similar v v' ∧ text = v.display ∧ text' = v'.display

/-- Machines that correspond in a world. -/
structure Machines (κ : Correspondence) (ρ : World) (m m' : Machine) : Prop where
  stores : κ.Stores ρ m.store m'.store
  identity : m'.nextIdentity = m.nextIdentity
  output : List.Forall₂ κ.Shown m.output.toList m'.output.toList
  clock : m'.clock = m.clock

/-- Corresponding machines have corresponding globals. -/
lemma Machines.globals {ρ : World} {m m' : Machine} (h : κ.Machines ρ m m') :
    κ.Bindings ρ m.globals m'.globals := by
  obtain ⟨a, a', ha, ha', hbindings, -⟩ := h.stores.solid _ _ h.stores.root
  simpa [Machine.globals, ha, ha'] using hbindings

/-! ## Finer correspondences -/

/-- Declarations that correspond by one correspondence do so by another one. -/
structure Finer (κ κ' : Correspondence) : Prop where
  rename_eq : κ'.rename = κ.rename
  name : ∀ t u, κ.Name t u → κ'.Name t u
  bodies : ∀ b b', κ.Bodies b b' → κ'.Bodies b b'
  braces : κ.braces → κ'.braces

namespace Finer

variable {κ' : Correspondence} {ρ : World}

lemma similar (h : κ.Finer κ') {v v' : Value} (hv : κ.Similar v v') : κ'.Similar v v' :=
  Value.Similar.mono hv h.name h.bodies

lemma values (h : κ.Finer κ') {v v' : Value} (hv : κ.Values ρ v v') : κ'.Values ρ v v' := by
  cases hv with
  | plain hplain => exact .plain hplain
  | closure hsimilar hs => exact .closure (h.similar hsimilar) hs

lemma stores (h : κ.Finer κ') {s s' : Store} (hs : κ.Stores ρ s s') : κ'.Stores ρ s s' := by
  refine ⟨hs.length_eq, hs.root, fun σ σ' hσ => ?_, fun σ σ' hσ => ?_, hs.unique⟩
  · obtain ⟨a, a', ha, ha', hbindings, hparents⟩ := hs.solid σ σ' hσ
    refine ⟨a, a', ha, ha', List.Forall₂.imp (fun b b' hb => ?_) hbindings, hparents⟩
    exact ⟨by rw [h.rename_eq, hb.1], h.values hb.2⟩
  · obtain ⟨hb, hhollow⟩ := hs.hollow σ σ' hσ
    exact ⟨h.braces hb, hhollow⟩

/-- **Machines that correspond** do so by any correspondence that is less fine. -/
theorem machines (h : κ.Finer κ') {m m' : Machine} (hm : κ.Machines ρ m m') :
    κ'.Machines ρ m m' := by
  refine ⟨h.stores hm.stores, hm.identity, hm.output.imp fun text text' hshown => ?_, hm.clock⟩
  obtain ⟨v, v', hv, htext, htext'⟩ := hshown
  exact ⟨v, v', h.similar hv, htext, htext'⟩

end Finer

end Correspondence

/-- The world in which there is only the root. -/
def World.initial : World := [⟨Store.root, false⟩]

namespace Correspondence

/-- In the initial world the root is the only scope. -/
lemma eq_root_of_initial {σ' : Nat} {st : Standing} (h : World.initial[σ']? = some st) :
    σ' = Store.root ∧ st = ⟨Store.root, false⟩ := by
  cases σ' with
  | zero => exact ⟨rfl, (Option.some.inj h).symm⟩
  | succ n => simp [World.initial] at h

/-- A store that has only an empty root corresponds to itself. -/
lemma stores_initial (κ : Correspondence) : κ.Stores World.initial Store.initial Store.initial := by
  refine ⟨rfl, rfl, fun σ σ' h => ?_, fun σ σ' h => ?_, fun σ i j hi hj => ?_⟩
  · obtain ⟨rfl, hst⟩ := eq_root_of_initial h
    obtain rfl : σ = Store.root := congrArg Standing.scope hst
    exact ⟨⟨none, []⟩, ⟨none, []⟩, rfl, rfl, .nil, .top⟩
  · simpa using (eq_root_of_initial h).2
  · exact (eq_root_of_initial hi).1.trans (eq_root_of_initial hj).1.symm

/-- **A machine that has run nothing yet corresponds to itself**: the native functions keep their
names. -/
theorem machines_initial (κ : Correspondence) (clock : Clock) :
    κ.Machines World.initial (Machine.initial clock) (Machine.initial clock) := by
  have hnatives : ∀ (fs : List Native) (s s' : Store), κ.Stores World.initial s s' →
      κ.Stores World.initial (fs.foldl (fun s f => s.define Store.root f.name (.native f)) s)
        (fs.foldl (fun s f => s.define Store.root f.name (.native f)) s') := by
    intro fs
    induction fs with
    | nil => exact fun _ _ h => h
    | cons f fs ih =>
      intro s s' h
      have hdefine := h.define h.root f.name (.plain (v := .native f) (by simp))
      rw [κ.rename_native] at hdefine
      exact ih _ _ hdefine
  exact ⟨hnatives _ _ _ κ.stores_initial, rfl, .nil, rfl⟩

end Correspondence

end LoxLang
