import LoxLang.Proofs.Evaluation.Limits
import LoxLang.Proofs.Evaluation.Returns
import LoxLang.Proofs.Evaluation.Worlds

set_option autoImplicit false

/-!
# Runs of programs that correspond

Corresponding programs that run on corresponding machines do the same: they print corresponding
entries, their calls return corresponding values, they end in the same way, and the machines that
they leave behind correspond in a later world. A run that is cut short by its limits is excepted.

## Main definitions

* `Room.Deep`, `Room.Long` — how the limits of two runs relate.
* `Correspondence.Faults`, `Correspondence.Completions` — faults and completions that correspond.
* `Correspondence.Outcomes` — what two runs come to corresponds.
* `Correspondence.Runs` — two runs correspond in every later world.

## Main results

* `Correspondence.Runs.bind` — runs one after the other correspond.
* `Correspondence.evaluates_executes` — evaluation of corresponding trees corresponds.
* `Correspondence.interpret` — corresponding programs run alike.
-/

namespace LoxLang

/-! ## Runs that are cut short -/

/-- A run is cut short by a limit. -/
def Run.Cut {α : Type} : EStateM.Result Halt Machine α → Prop
  | .error halt _ => halt.IsLimit
  | .ok _ _ => False

/-- The run of a program is cut short by a limit. -/
def Ending.Cut : Ending → Prop
  | .finished | .faulted _ => False
  | .tooDeep | .tooLong => True

instance : DecidablePred Ending.Cut
  | .finished | .faulted _ => isFalse id
  | .tooDeep | .tooLong => isTrue trivial

namespace Room

variable {room : Room} {a b : Nat} {first second : Prop}

/-- How the depths of two runs relate. -/
def Deep : Room → Nat → Nat → Prop
  | .either, _, _ => True
  | .first, depth, depth' => 2 * depth ≤ depth'
  | .second, depth, depth' => depth' ≤ depth
  | .same, depth, depth' => depth' = depth

/-- How the rounds of two runs relate. -/
def Long : Room → Nat → Nat → Prop
  | .either, _, _ => True
  | .first, rounds, rounds' => rounds ≤ rounds'
  | .second, rounds, rounds' => rounds' ≤ rounds
  | .same, rounds, rounds' => rounds' = rounds

/-- Nothing needs to hold of two runs of which one is cut short that may be. -/
def Spares : Room → (first second : Prop) → Prop
  | .either, first, second => first ∨ second
  | .first, first, _ => first
  | .second, _, second => second
  | .same, _, _ => False

lemma Deep.long (h : room.Deep a b) : room.Long a b := by
  cases room <;> simp only [Deep, Long] at h ⊢
  all_goals omega

lemma Deep.pred (h : room.Deep (a + 1) (b + 1)) : room.Deep a b := by
  cases room <;> simp only [Deep] at h ⊢
  all_goals omega

/-- The second run may nest one deeper for a pair of braces. -/
lemma Deep.braces (h : room.Deep (a + 1) (b + 2)) (hroom : room ≠ .same) : room.Deep a b := by
  cases room <;> simp only [Deep] at h ⊢
  case same => exact absurd rfl hroom
  all_goals omega

/-- Braces may use up the depth of the second run. -/
lemma Deep.spares (h : room.Deep (a + 1) 1) (hroom : room ≠ .same) (hsecond : second) :
    room.Spares first second := by
  cases room with
  | either => exact .inr hsecond
  | first =>
    simp only [Deep] at h
    omega
  | second => exact hsecond
  | same => exact absurd rfl hroom

lemma Long.pred (h : room.Long (a + 1) (b + 1)) : room.Long a b := by
  cases room <;> simp only [Long] at h ⊢
  all_goals omega

lemma Spares.imp {first' second' : Prop} (h : room.Spares first second) (hf : first → first')
    (hs : second → second') : room.Spares first' second' := by
  cases room with
  | either => exact Or.imp hf hs h
  | first => exact hf h
  | second => exact hs h
  | same => exact h

end Room

namespace Correspondence

variable (κ : Correspondence)

/-! ## What runs come to -/

/-- Faults that correspond. -/
inductive Faults : RuntimeFault → RuntimeFault → Prop
  | undefined {t t' : Token} (h : κ.Name t t') :
    Faults ⟨.undefinedVariable t.lexeme, t⟩ ⟨.undefinedVariable t'.lexeme, t'⟩
  | other {cause : RuntimeFault.Cause} {t t' : Token} (h : κ.Mark t t') :
    Faults ⟨cause, t⟩ ⟨cause, t'⟩

/-- Completions that correspond in a world. -/
inductive Completions (ρ : World) : Completion → Completion → Prop
  | normal : Completions ρ .normal .normal
  | returned {v v' : Value} {k k' : Token} (hv : κ.Values ρ v v') (hk : κ.Mark k k') :
    Completions ρ (.returned v k) (.returned v' k')

/-- What two runs come to corresponds in a later world, and so do the values that calls returned,
unless a run is cut short that may be. Runs that are cut short together leave machines that
correspond. -/
inductive Outcomes {α β : Type} (ρ : World) (Q : World → α → β → Prop) :
    EStateM.Result Halt Machine α → List Value → EStateM.Result Halt Machine β → List Value → Prop
  | spared {x : EStateM.Result Halt Machine α} {y : EStateM.Result Halt Machine β}
    {l l' : List Value} (h : κ.room.Spares (Run.Cut x) (Run.Cut y)) : Outcomes ρ Q x l y l'
  | ended {ρ' : World} {m m' : Machine} {a : α} {b : β} {l l' : List Value} (hρ : ρ <+: ρ')
    (hm : κ.Machines ρ' m m') (hq : Q ρ' a b) (hl : List.Forall₂ κ.Similar l l') :
    Outcomes ρ Q (.ok a m) l (.ok b m') l'
  | faulted {ρ' : World} {m m' : Machine} {f f' : RuntimeFault} {l l' : List Value} (hρ : ρ <+: ρ')
    (hm : κ.Machines ρ' m m') (hf : κ.Faults f f') (hl : List.Forall₂ κ.Similar l l') :
    Outcomes ρ Q (.error (.fault f) m) l (.error (.fault f') m') l'
  | halted {ρ' : World} {m m' : Machine} {halt : Halt} {l l' : List Value} (hroom : κ.room = .same)
    (hρ : ρ <+: ρ') (hm : κ.Machines ρ' m m') (hlimit : halt.IsLimit) :
    Outcomes ρ Q (.error halt m) l (.error halt m') l'

/-- Two runs, each with the values that its calls return, correspond in every later world. -/
def Runs {α β : Type} (ρ : World) (Q : World → α → β → Prop) (x : Run α)
    (returns : Machine → List Value) (y : Run β) (returns' : Machine → List Value) : Prop :=
  ∀ (ρ' : World) m m', ρ <+: ρ' → κ.Machines ρ' m m' →
    κ.Outcomes ρ' Q (x m) (returns m) (y m') (returns' m')

variable {κ} {α β γ δ : Type} {ρ : World} {P : World → α → β → Prop} {Q : World → γ → δ → Prop}

/-- What corresponds after some values were returned does so with these values in front. -/
lemma Outcomes.after {ρ' : World} {x : EStateM.Result Halt Machine α}
    {y : EStateM.Result Halt Machine β} {l l' r r' : List Value} (h : κ.Outcomes ρ' P x r y r')
    (hρ : ρ <+: ρ') (hl : List.Forall₂ κ.Similar l l') :
    κ.Outcomes ρ P x (l ++ r) y (l' ++ r') := by
  cases h with
  | spared h => exact .spared h
  | ended hρ' hm hq hr => exact .ended (hρ.trans hρ') hm hq (List.rel_append hl hr)
  | faulted hρ' hm hf hr => exact .faulted (hρ.trans hρ') hm hf (List.rel_append hl hr)
  | halted hroom hρ' hm hlimit => exact .halted hroom (hρ.trans hρ') hm hlimit

/-! ## The steps -/

/-- Nothing is returned by calls. -/
abbrev silent : Machine → List Value := fun _ => []

namespace Runs

variable {x : Run α} {y : Run β} {lx ly : Machine → List Value}

lemma mono {ρ' : World} (h : κ.Runs ρ P x lx y ly) (hρ : ρ <+: ρ') : κ.Runs ρ' P x lx y ly :=
  fun ρ₁ m m' hρ₁ hm => h ρ₁ m m' (hρ.trans hρ₁) hm

lemma pure {a : α} {b : β} (h : ∀ ρ' : World, ρ <+: ρ' → P ρ' a b) :
    κ.Runs ρ P (pure a) silent (pure b) silent :=
  fun ρ' _ _ hρ hm => .ended List.prefix_rfl hm (h ρ' hρ) .nil

lemma fault {t t' : Token} {cause cause' : RuntimeFault.Cause}
    (h : κ.Faults ⟨cause, t⟩ ⟨cause', t'⟩) :
    κ.Runs ρ P (Run.fault t cause) silent (Run.fault t' cause') silent :=
  fun _ _ _ _ hm => .faulted List.prefix_rfl hm h .nil

/-- **Runs one after the other correspond**, if the second ones do in every later world. -/
theorem bind {k : α → Run γ} {k' : β → Run δ} {lk : α → Machine → List Value}
    {lk' : β → Machine → List Value} (h : κ.Runs ρ P x lx y ly)
    (hk : ∀ (ρ' : World) a b, ρ <+: ρ' → P ρ' a b → κ.Runs ρ' Q (k a) (lk a) (k' b) (lk' b)) :
    κ.Runs ρ Q (x >>= k) (x.listing lx lk) (y >>= k') (y.listing ly lk') := by
  intro ρ' m m' hρ hm
  have hfirst := h ρ' m m' hρ hm
  simp only [Run.bind_apply, Run.listing]
  generalize x m = xm at hfirst
  generalize y m' = ym at hfirst
  generalize lx m = l at hfirst
  generalize ly m' = l' at hfirst
  cases hfirst with
  | spared hcut =>
    refine .spared (hcut.imp (fun hx => ?_) fun hy => ?_)
    · cases xm with
      | ok => exact absurd hx id
      | error => exact hx
    · cases ym with
      | ok => exact absurd hy id
      | error => exact hy
  | ended hρ' hm' hp hl =>
    exact (hk _ _ _ (hρ.trans hρ') hp _ _ _ List.prefix_rfl hm').after hρ' hl
  | faulted hρ' hm' hf hl =>
    exact .faulted hρ' hm' hf (by simpa using hl)
  | halted hroom hρ' hm' hlimit => exact .halted hroom hρ' hm' hlimit

/-- What comes after runs without a call adds nothing to what calls return. -/
lemma andThen {k : α → Run γ} {k' : β → Run δ} (h : κ.Runs ρ P x lx y ly)
    (hk : ∀ (ρ' : World) a b, ρ <+: ρ' → P ρ' a b → κ.Runs ρ' Q (k a) silent (k' b) silent) :
    κ.Runs ρ Q (x >>= k) lx (y >>= k') ly := by
  have hbind := h.bind hk
  rwa [Run.listing_nil, Run.listing_nil] at hbind

/-- The values of two calls are returned behind those from within. -/
lemma noting {x y : Run Value} (h : κ.Runs ρ κ.Values x lx y ly) :
    κ.Runs ρ κ.Values x (x.listing lx fun v _ => [v]) y (y.listing ly fun v _ => [v]) := by
  intro ρ' m m' hρ hm
  have hrun := h ρ' m m' hρ hm
  simp only [Run.listing]
  generalize x m = xm at hrun
  generalize y m' = ym at hrun
  generalize lx m = l at hrun
  generalize ly m' = l' at hrun
  cases hrun with
  | spared hcut => exact .spared hcut
  | ended hρ' hm' hv hl =>
    exact .ended hρ' hm' hv (List.rel_append hl (.cons hv.similar .nil))
  | faulted hρ' hm' hf hl => exact .faulted hρ' hm' hf (by simpa using hl)
  | halted hroom hρ' hm' hlimit => exact .halted hroom hρ' hm' hlimit

/-- A run without any room left is cut short: it is spared, or both are cut short together. -/
lemma cut {rounds rounds' : Nat} {halt : Halt} (h : κ.room.Long rounds rounds')
    (hzero : rounds = 0 ∨ rounds' = 0) (hlimit : halt.IsLimit) (hx : rounds = 0 → x = throw halt)
    (hy : rounds' = 0 → y = throw halt) : κ.Runs ρ P x lx y ly := by
  intro ρ' m m' hρ hm
  have hcut : rounds = 0 → Run.Cut (x m) := fun h => by rw [hx h]; exact hlimit
  have hcut' : rounds' = 0 → Run.Cut (y m') := fun h => by rw [hy h]; exact hlimit
  cases hroom : κ.room <;> rw [hroom] at h <;> simp only [Room.Long] at h
  case either => exact .spared (hroom ▸ hzero.imp hcut hcut')
  case first => exact .spared (hroom ▸ hcut (by omega))
  case second => exact .spared (hroom ▸ hcut' (by omega))
  case same =>
    rw [hx (by omega), hy (by omega)]
    exact .halted hroom List.prefix_rfl hm hlimit

variable {σ σ' : ScopeId} {n n' t t' : Token} {v v' : Value}

/-- What goes on with a value that is no function value, or gives up. -/
lemma ofExcept {result result' : Except RuntimeFault.Cause Value} (ht : κ.Mark t t')
    (heq : result' = result) (hplain : ∀ v, result = .ok v → ∀ f, v ≠ .closure f) :
    κ.Runs ρ κ.Values (Run.ofExcept t result) silent (Run.ofExcept t' result') silent := by
  subst heq
  cases result' with
  | ok v => exact .pure fun _ _ => .plain (hplain v rfl)
  | error cause => exact .fault (.other ht)

lemma lookUp (hσ : ρ.Stands σ σ') (hn : κ.Name n n') :
    κ.Runs ρ κ.Values (Run.lookUp n σ) silent (Run.lookUp n' σ') silent := by
  intro ρ' m m' hρ hm
  have hget := hm.stores.get? (hσ.mono hρ) n.lexeme
  rw [Run.lookUp_apply, Run.lookUp_apply, κ.lexeme_name n n' hn]
  generalize m.store.get? σ n.lexeme = v at hget
  generalize m'.store.get? σ' (κ.rename n.lexeme) = v' at hget
  cases hget with
  | none =>
    rw [← κ.lexeme_name n n' hn]
    exact .faulted List.prefix_rfl hm (.undefined hn) .nil
  | some hv => exact .ended List.prefix_rfl hm hv .nil

/-- Binding a name in corresponding scopes, which must not be thin. -/
lemma declare (hσ : ρ.Stands σ σ') (hsolid : κ.braces → ρ.Solid σ σ') (hn : κ.Name n n')
    (hv : κ.Values ρ v v') : κ.Runs ρ (fun _ _ _ => True) (Run.declare n σ v) silent
      (Run.declare n' σ' v') silent := by
  intro ρ' m m' hρ hm
  have hplace : ρ'.Solid σ σ' := by
    by_cases hb : κ.braces
    · exact (hsolid hb).mono hρ
    · exact hm.stores.solid_of_not_braces hb (hσ.mono hρ)
  have hstores := hm.stores.define hplace n.lexeme (hv.mono hρ)
  rw [← κ.lexeme_name n n' hn] at hstores
  exact .ended List.prefix_rfl ⟨hstores, hm.identity, hm.output, hm.clock⟩ trivial .nil

lemma assign (hσ : ρ.Stands σ σ') (hn : κ.Name n n') (hv : κ.Values ρ v v') :
    κ.Runs ρ (fun _ _ _ => True) (Run.assign n σ v) silent (Run.assign n' σ' v') silent := by
  intro ρ' m m' hρ hm
  have hplaces := hm.stores.resolve? (hσ.mono hρ) n.lexeme
  rw [Run.assign_apply, Run.assign_apply, κ.lexeme_name n n' hn]
  generalize m.store.resolve? n.lexeme σ = place at hplaces
  generalize m'.store.resolve? (κ.rename n.lexeme) σ' = place' at hplaces
  cases hplaces with
  | none =>
    rw [← κ.lexeme_name n n' hn]
    exact .faulted List.prefix_rfl hm (.undefined hn) .nil
  | some hplace =>
    have hstores := hm.stores.define hplace n.lexeme (hv.mono hρ)
    exact .ended List.prefix_rfl ⟨hstores, hm.identity, hm.output, hm.clock⟩ trivial .nil

/-- Parameters are bound one by one. -/
lemma declareAll {ns ns' : List Token} {vs vs' : List Value} (hσ : ρ.Solid σ σ')
    (hns : List.Forall₂ κ.Name ns ns') (hvs : List.Forall₂ (κ.Values ρ) vs vs') :
    κ.Runs ρ (fun _ _ _ => True) (Run.declareAll σ ns vs) silent (Run.declareAll σ' ns' vs')
      silent := by
  induction hns generalizing ρ vs vs' with
  | nil => exact .pure fun _ _ => trivial
  | cons hn _ ih =>
    cases hvs with
    | nil => exact .pure fun _ _ => trivial
    | cons hv hvs =>
      refine (declare hσ.stands (fun _ => hσ) hn hv).andThen fun ρ' _ _ hρ _ => ?_
      exact ih (hσ.mono hρ) (hvs.imp fun _ _ h => h.mono hρ)

/-- A scope that is made on both sides binds the same names on both. -/
lemma openScope (hσ : ρ.Stands σ σ') :
    κ.Runs ρ World.Solid (Run.openScope σ) silent (Run.openScope σ') silent := by
  intro ρ' m m' hρ hm
  have hstores := hm.stores.child (hσ.mono hρ)
  refine .ended (List.prefix_append _ _) ⟨hstores, hm.identity, hm.output, hm.clock⟩ ?_ .nil
  rw [World.Solid, ← hm.stores.length_eq]
  exact World.getElem?_concat_length ρ' _

/-- A scope may be made for braces on the second side only. -/
lemma openThin {k : ScopeId → Run δ} {lk : ScopeId → Machine → List Value} {x : Run γ}
    (hb : κ.braces) (hσ : ρ.Stands σ σ')
    (hk : ∀ (ρ' : World) inner, ρ <+: ρ' → ρ'.Stands σ inner → κ.Runs ρ' Q x lx (k inner) (lk inner)) :
    κ.Runs ρ Q x lx (Run.openScope σ' >>= k) ((Run.openScope σ').listing silent lk) := by
  intro ρ' m m' hρ hm
  have hstores := hm.stores.thin hb (hσ.mono hρ)
  have hgrown : ρ' <+: ρ' ++ [⟨σ, true⟩] := List.prefix_append _ _
  have hstands : World.Stands (ρ' ++ [⟨σ, true⟩]) σ m'.store.next := by
    refine ⟨true, ?_⟩
    rw [← hm.stores.length_eq]
    exact World.getElem?_concat_length ρ' _
  have hrest := hk _ _ (hρ.trans hgrown) hstands _ m { m' with store := m'.store.child σ' }
    List.prefix_rfl ⟨hstores, hm.identity, hm.output, hm.clock⟩
  exact hrest.after hgrown .nil

lemma print (hv : κ.Similar v v') : κ.Runs ρ (fun _ _ _ => True) (Run.print v.display) silent
    (Run.print v'.display) silent := by
  intro ρ' m m' hρ hm
  refine .ended List.prefix_rfl ⟨hm.stores, hm.identity, ?_, hm.clock⟩ trivial .nil
  simp only [Array.toList_push]
  exact List.rel_append hm.output (.cons ⟨v, v', hv, rfl, rfl⟩ .nil)

lemma close {ps ps' : List Token} {b b' : Slots} (hσ : ρ.Stands σ σ') (hn : κ.Name n n')
    (hps : List.Forall₂ κ.Name ps ps') (hb : κ.Bodies b b') :
    κ.Runs ρ κ.Values (Run.close n ps b σ) silent (Run.close n' ps' b' σ') silent := by
  intro ρ' m m' hρ hm
  have hsimilar : κ.Similar (.closure ⟨m.nextIdentity, n, ps, b, σ⟩)
      (.closure ⟨m'.nextIdentity, n', ps', b', σ'⟩) := .closure hm.identity.symm hn hps hb
  exact .ended List.prefix_rfl ⟨hm.stores, congrArg (· + 1) hm.identity, hm.output, hm.clock⟩
    (.closure hsimilar (hσ.mono hρ)) .nil

lemma callNative (f : Native) :
    κ.Runs ρ κ.Values (Run.callNative f) silent (Run.callNative f) silent := by
  intro ρ' m m' _ hm
  cases f with
  | clock =>
    have hclock : m'.clock = m.clock := hm.clock
    have hreading : κ.Values ρ' (.number (m.clock 0)) (.number (m'.clock 0)) :=
      hclock ▸ .plain (by simp)
    exact .ended List.prefix_rfl ⟨hm.stores, hm.identity, hm.output, congrArg Clock.later hclock⟩
      hreading .nil

/-! ## Loops and calls -/

/-- Expressions are evaluated alike if each of them is. -/
lemma all {x y : Expr → Run Value} {lx ly : Expr → Machine → List Value} {es es' : List Expr}
    (hes : List.Forall₂ κ.Exprs es es')
    (h : ∀ (ρ' : World) e e', ρ <+: ρ' → κ.Exprs e e' →
      κ.Runs ρ' κ.Values (x e) (lx e) (y e') (ly e')) :
    κ.Runs ρ (fun ρ => List.Forall₂ (κ.Values ρ)) (Run.all x es) (Run.listAll x lx es)
      (Run.all y es') (Run.listAll y ly es') := by
  suffices honto : ∀ (ρ' : World) vs vs', ρ <+: ρ' → List.Forall₂ (κ.Values ρ') vs vs' →
      κ.Runs ρ' (fun ρ => List.Forall₂ (κ.Values ρ)) (Run.allOnto x vs es)
        (Run.listAll x lx es) (Run.allOnto y vs' es') (Run.listAll y ly es') from
    honto ρ [] [] List.prefix_rfl .nil
  induction hes with
  | nil =>
    intro ρ' vs vs' hρ hvs
    exact .pure fun ρ₁ hρ₁ => (List.rel_reverse hvs).imp fun _ _ hv => hv.mono hρ₁
  | cons he _ ih =>
    intro ρ' vs vs' hρ hvs
    refine (h ρ' _ _ hρ he).bind fun ρ₁ v v' hρ₁ hv => ?_
    exact ih ρ₁ _ _ (hρ.trans hρ₁) (.cons hv (hvs.imp fun _ _ hw => hw.mono hρ₁))

/-- A loop goes round alike if its condition and its body do. -/
lemma iterate {x y : Run Value} {z w : Run Completion} {lx ly lz lw : Machine → List Value}
    (hx : κ.Runs ρ κ.Values x lx y ly) (hz : κ.Runs ρ κ.Completions z lz w lw)
    {rounds rounds' : Nat} (hr : κ.room.Long rounds rounds') :
    κ.Runs ρ κ.Completions (Run.iterate x z rounds) (Run.listIterate x z lx lz rounds)
      (Run.iterate y w rounds') (Run.listIterate y w ly lw rounds') := by
  induction rounds generalizing rounds' with
  | zero =>
    refine cut hr (.inl rfl) (show Halt.tooLong.IsLimit from trivial) (fun _ => rfl) ?_
    rintro rfl
    rfl
  | succ rounds ih =>
    cases rounds' with
    | zero => exact cut hr (.inr rfl) (show Halt.tooLong.IsLimit from trivial) nofun fun _ => rfl
    | succ rounds' =>
      refine hx.bind fun ρ₁ v v' hρ hv => ?_
      rw [hv.similar.truthy_eq]
      split
      · refine (hz.mono hρ).bind fun ρ₂ c c' hρ' hc => ?_
        cases hc with
        | normal => exact (ih hr.pred).mono (hρ.trans hρ')
        | returned hw hk => exact .pure fun ρ₃ hρ'' => .returned (hw.mono hρ'') hk
      · exact .pure fun _ _ => .normal

end Runs

/-! ## Evaluation -/

section Evaluation

/-- Corresponding expressions are evaluated alike at two depths. -/
def EvaluatesAt (κ : Correspondence) (rounds rounds' depth depth' : Nat) : Prop :=
  ∀ (ρ : World) σ σ' e e', ρ.Stands σ σ' → κ.Exprs e e' →
    κ.Runs ρ κ.Values (evaluate rounds depth σ e) (e.returns rounds depth σ)
      (evaluate rounds' depth' σ' e') (e'.returns rounds' depth' σ')

/-- Corresponding statements are executed alike at two depths; declarations in scopes that are not
thin. -/
def ExecutesAt (κ : Correspondence) (rounds rounds' depth depth' : Nat) : Prop :=
  ∀ (ρ : World) σ σ' s s', ρ.Stands σ σ' →
    (κ.braces → s.isDeclaration = true → ρ.Solid σ σ') → κ.Stmts s s' →
    κ.Runs ρ κ.Completions (execute rounds depth σ s) (s.returns rounds depth σ)
      (execute rounds' depth' σ' s') (s'.returns rounds' depth' σ')

variable {rounds rounds' depth depth' : Nat} {σ σ' : ScopeId}

/-- Statements are executed alike in scopes that bind the same names.

**Proof sketch.** Induction on the number of slots on both sides, by what they begin with. After a
return nothing is executed on either side, whatever comes behind it. -/
lemma ExecutesAt.sequence (h : κ.ExecutesAt rounds rounds' depth depth') (hσ : ρ.Solid σ σ')
    {b b' : Slots} (hb : κ.Bodies b b') :
    κ.Runs ρ κ.Completions (Run.sequence (execute rounds depth σ) b)
      (Run.listSequence (execute rounds depth σ) (Stmt.returns rounds depth σ) b)
      (Run.sequence (execute rounds' depth' σ') b')
      (Run.listSequence (execute rounds' depth' σ') (Stmt.returns rounds' depth' σ') b') := by
  induction hn : b.length + b'.length using Nat.strongRecOn generalizing ρ b b' with
  | ind n ih =>
    subst hn
    cases κ.unfold_bodies b b' hb with
    | nil => exact .pure fun _ _ => .normal
    | gaps hrest | gapLeft hrest | gapRight hrest =>
      have hskipped := ih _ (by simp only [List.length_cons]; omega) hσ hrest rfl
      exact hskipped
    | ended hs =>
      have hrun := execute_return_ne_normal rounds depth σ
      have hrun' := execute_return_ne_normal rounds' depth' σ'
      rw [Run.sequence_of_ne_normal (hrun _ _), Run.sequence_of_ne_normal (hrun' _ _),
        Run.listSequence_of_ne_normal (hrun _ _), Run.listSequence_of_ne_normal (hrun' _ _)]
      exact h ρ σ σ' _ _ hσ.stands (fun _ _ => hσ) hs
    | cons hs hrest =>
      refine (h ρ σ σ' _ _ hσ.stands (fun _ _ => hσ) hs).bind fun ρ₁ c c' hρ hc => ?_
      cases hc with
      | normal => exact ih _ (by simp; omega) (hσ.mono hρ) hrest rfl
      | returned hv hk => exact .pure fun ρ₂ hρ' => .returned (hv.mono hρ') hk

/-- Corresponding values are called alike. -/
lemma ExecutesAt.call (h : κ.ExecutesAt rounds rounds' depth depth') {v v' : Value} {p p' : Token}
    {vs vs' : List Value} (hv : κ.Values ρ v v') (hp : κ.Mark p p')
    (hvs : List.Forall₂ (κ.Values ρ) vs vs') :
    κ.Runs ρ κ.Values (Run.call (execute rounds depth) v p vs)
      (Run.returnsBody (execute rounds depth) (Stmt.returns rounds depth) v vs)
      (Run.call (execute rounds' depth') v' p' vs')
      (Run.returnsBody (execute rounds' depth') (Stmt.returns rounds' depth') v' vs') := by
  have hlength : vs'.length = vs.length := hvs.length_eq.symm
  cases hv with
  | plain hplain =>
    cases v with
    | closure f => exact absurd rfl (hplain f)
    | native f =>
      rw [Run.call_native, Run.call_native, hlength]
      split
      · exact .callNative f
      · exact .fault (.other hp)
    | nil | bool | number | string => exact .fault (.other hp)
  | @closure f g hfg hs =>
    cases hfg with
    | plain hplain => exact absurd rfl (hplain f)
    | closure _ _ hparameters hbody =>
      have harity : g.arity = f.arity := hparameters.length_eq.symm
      rw [Run.call_closure, Run.call_closure, Run.returnsBody, Run.returnsBody, hlength, harity]
      split
      · refine (Runs.openScope hs).bind fun ρ₁ σ σ' hρ hσ => ?_
        refine (Runs.declareAll hσ hparameters (hvs.imp fun _ _ hw => hw.mono hρ)).bind
          fun ρ₂ _ _ hρ' _ => ?_
        refine (h.sequence (hσ.mono hρ') hbody).andThen fun ρ₃ c c' _ hc => ?_
        refine .pure fun ρ₄ hρ'' => ?_
        cases hc with
        | normal => exact .plain (by simp [Completion.value])
        | returned hw _ => exact hw.mono hρ''
      · exact .fault (.other hp)

/-- Expressions of one form are evaluated alike if their parts are. -/
lemma evaluates_congruent (he : κ.EvaluatesAt rounds rounds' depth depth')
    (hs : κ.ExecutesAt rounds rounds' depth depth') (hσ : ρ.Stands σ σ') {e e' : Expr}
    (h : Expr.Congruent κ.Name κ.Mark κ.Exprs e e') :
    κ.Runs ρ κ.Values (evaluate rounds (depth + 1) σ e) (e.returns rounds (depth + 1) σ)
      (evaluate rounds' (depth' + 1) σ' e') (e'.returns rounds' (depth' + 1) σ') := by
  cases h with
  | literal value =>
    refine .pure fun _ _ => .plain fun f => ?_
    cases value <;> exact nofun
  | grouping h => exact he ρ σ σ' _ _ hσ h
  | «variable» hn => exact .lookUp hσ hn
  | assign hn h =>
    refine (he ρ σ σ' _ _ hσ h).andThen fun ρ₁ v v' hρ hv => ?_
    refine (Runs.assign (hσ.mono hρ) hn hv).andThen fun ρ₂ _ _ hρ' _ => ?_
    exact .pure fun ρ₃ hρ'' => hv.mono (hρ'.trans hρ'')
  | unary ho h =>
    refine (he ρ σ σ' _ _ hσ h).andThen fun ρ₁ v v' hρ hv => ?_
    exact .ofExcept ho (hv.similar.unary_eq (κ.kind_mark _ _ ho)) fun w hw f =>
      Value.unary_ne_closure hw f
  | binary hl ho hr =>
    refine (he ρ σ σ' _ _ hσ hl).bind fun ρ₁ v v' hρ hv => ?_
    refine (he ρ₁ σ σ' _ _ (hσ.mono hρ) hr).andThen fun ρ₂ w w' hρ' hw => ?_
    exact .ofExcept ho (hv.similar.binary_eq hw.similar (κ.kind_mark _ _ ho)
      (κ.lexeme_mark _ _ ho)) fun u hu f => Value.binary_ne_closure hu f
  | logical hl ho hr =>
    refine (he ρ σ σ' _ _ hσ hl).bind fun ρ₁ v v' hρ hv => ?_
    rw [hv.similar.settles_eq (κ.kind_mark _ _ ho)]
    split
    · exact .pure fun ρ₂ hρ' => hv.mono hρ'
    · exact he ρ₁ σ σ' _ _ (hσ.mono hρ) hr
  | call h hp hes =>
    refine (he ρ σ σ' _ _ hσ h).bind fun ρ₁ v v' hρ hv => ?_
    refine (Runs.all hes fun ρ₂ e e' hρ' he' =>
      he ρ₂ σ σ' e e' (hσ.mono (hρ.trans hρ')) he').bind fun ρ₂ vs vs' hρ' hvs => ?_
    exact (hs.call (hv.mono hρ') hp hvs).noting

/-- Statements of one form are executed alike if their parts are. -/
lemma executes_congruent (hr : κ.room.Long rounds rounds')
    (he : κ.EvaluatesAt rounds rounds' depth depth')
    (hs : κ.ExecutesAt rounds rounds' depth depth') (hσ : ρ.Stands σ σ') {s s' : Stmt}
    (hsolid : κ.braces → s.isDeclaration = true → ρ.Solid σ σ')
    (h : Stmt.Congruent κ.Name κ.Mark κ.Exprs κ.Stmts κ.Bodies κ.braces s s') :
    κ.Runs ρ κ.Completions (execute rounds (depth + 1) σ s) (s.returns rounds (depth + 1) σ)
      (execute rounds' (depth' + 1) σ' s') (s'.returns rounds' (depth' + 1) σ') := by
  cases h with
  | expression h =>
    exact (he ρ σ σ' _ _ hσ h).andThen fun _ _ _ _ _ => .pure fun _ _ => .normal
  | print h =>
    refine (he ρ σ σ' _ _ hσ h).andThen fun ρ₁ v v' hρ hv => ?_
    exact (Runs.print hv.similar).andThen fun _ _ _ _ _ => .pure fun _ _ => .normal
  | var hn h =>
    cases h with
    | none =>
      refine (Runs.declare hσ (fun hb => hsolid hb rfl) hn (.plain (by simp))).andThen
        fun _ _ _ _ _ => ?_
      exact .pure fun _ _ => .normal
    | some h =>
      refine (he ρ σ σ' _ _ hσ h).andThen fun ρ₁ v v' hρ hv => ?_
      refine (Runs.declare (hσ.mono hρ) (fun hb => (hsolid hb rfl).mono hρ) hn hv).andThen
        fun _ _ _ _ _ => ?_
      exact .pure fun _ _ => .normal
  | block hb => exact (Runs.openScope hσ).bind fun ρ₁ σ₁ σ₁' hρ hσ₁ => hs.sequence hσ₁ hb
  | branch h ht hf hdt hdf =>
    refine (he ρ σ σ' _ _ hσ h).bind fun ρ₁ v v' hρ hv => ?_
    rw [hv.similar.truthy_eq]
    split
    · refine hs ρ₁ σ σ' _ _ (hσ.mono hρ) (fun hb hd => ?_) ht
      simp [hdt hb] at hd
    · cases hf with
      | none => exact .pure fun _ _ => .normal
      | some hf =>
        refine hs ρ₁ σ σ' _ _ (hσ.mono hρ) (fun hb hd => ?_) hf
        simp [hdf hb _ rfl] at hd
  | loop h hb hdb =>
    refine .iterate (he ρ σ σ' _ _ hσ h) (hs ρ σ σ' _ _ hσ (fun hbr hd => ?_) hb) hr
    simp [hdb hbr] at hd
  | function hn hps hb =>
    refine (Runs.close hσ hn hps hb).andThen fun ρ₁ v v' hρ hv => ?_
    refine (Runs.declare (hσ.mono hρ) (fun hbr => (hsolid hbr rfl).mono hρ) hn hv).andThen
      fun _ _ _ _ _ => ?_
    exact .pure fun _ _ => .normal
  | «return» hk h =>
    cases h with
    | none => exact .pure fun _ _ => .returned (.plain (by simp)) hk
    | some h =>
      refine (he ρ σ σ' _ _ hσ h).andThen fun ρ₁ v v' hρ hv => ?_
      exact .pure fun ρ₂ hρ' => .returned (hv.mono hρ') hk

/-- **Corresponding trees are evaluated alike.**

**Proof sketch.** Induction on the sum of both depths. If one of them is used up, the run is cut short
that may be. Otherwise both trees have one form and related parts, which are evaluated alike at
smaller depths; or one side has parentheses or braces in front, which take one from the depth of that
side only. Braces make a thin scope, in which the statement does what it does without them. -/
theorem evaluates_executes (hr : κ.room.Long rounds rounds') (n : Nat) :
    ∀ depth depth', depth + depth' ≤ n → κ.room.Deep depth depth' →
      κ.EvaluatesAt rounds rounds' depth depth' ∧ κ.ExecutesAt rounds rounds' depth depth' := by
  have hspared : ∀ {depth depth'}, κ.room.Deep depth depth' → depth = 0 ∨ depth' = 0 →
      κ.EvaluatesAt rounds rounds' depth depth' ∧ κ.ExecutesAt rounds rounds' depth depth' := by
    intro depth depth' hd hzero
    constructor
    · refine fun ρ σ σ' e e' _ _ => .cut hd.long hzero (show Halt.tooDeep.IsLimit from trivial) ?_ ?_
      all_goals
        rintro rfl
        rfl
    · refine fun ρ σ σ' s s' _ _ _ =>
        .cut hd.long hzero (show Halt.tooDeep.IsLimit from trivial) ?_ ?_
      all_goals
        rintro rfl
        rfl
  induction n with
  | zero => exact fun depth depth' hsum hd => hspared hd (.inl (by omega))
  | succ n ih =>
    intro depth depth' hsum hd
    cases depth with
    | zero => exact hspared hd (.inl rfl)
    | succ a =>
      cases depth' with
      | zero => exact hspared hd (.inr rfl)
      | succ b =>
        obtain ⟨he, hs⟩ := ih a b (by omega) hd.pred
        refine ⟨fun ρ σ σ' e e' hσ h => ?_, fun ρ σ σ' s s' hσ hsolid h => ?_⟩
        · rcases κ.unfold_expr e e' h with hc | ⟨hroom, ⟨inner, rfl, hi⟩ | ⟨inner, rfl, hi⟩⟩
          · exact evaluates_congruent he hs hσ hc
          · have hdeep : κ.room.Deep a (b + 1) := hroom ▸ trivial
            exact (ih a (b + 1) (by omega) hdeep).1 ρ σ σ' _ _ hσ hi
          · have hdeep : κ.room.Deep (a + 1) b := hroom ▸ trivial
            exact (ih (a + 1) b (by omega) hdeep).1 ρ σ σ' _ _ hσ hi
        · rcases κ.unfold_stmt s s' h with hc | ⟨⟨hb, hroom⟩, hplain, t, rfl, hc⟩
          · exact executes_congruent hr he hs hσ hsolid hc
          · show κ.Runs ρ κ.Completions (execute rounds (a + 1) σ s) (s.returns rounds (a + 1) σ)
              (Run.openScope σ' >>= fun inner => Run.sequence (execute rounds' b inner) [some t])
              ((Run.openScope σ').listing silent fun inner =>
                Run.listSequence (execute rounds' b inner) (Stmt.returns rounds' b inner) [some t])
            refine Runs.openThin hb hσ fun ρ₁ inner hρ hinner => ?_
            rw [Run.sequence_singleton, Run.listSequence_singleton]
            cases b with
            | zero => exact fun _ _ _ _ _ => .spared (hd.spares hroom trivial)
            | succ c =>
              obtain ⟨he, hs⟩ := ih a c (by omega) (hd.braces hroom)
              refine executes_congruent hr he hs hinner (fun _ hdecl => ?_) hc
              simp [hplain] at hdecl

end Evaluation

/-! ## Programs -/

/-- Endings that correspond. -/
inductive Endings (κ : Correspondence) : Ending → Ending → Prop
  | finished : Endings κ .finished .finished
  | faulted {f f' : RuntimeFault} (h : κ.Faults f f') : Endings κ (.faulted f) (.faulted f')

/-- Endings that correspond are not those of runs that are cut short. -/
lemma Endings.not_cut {ending ending' : Ending} (h : κ.Endings ending ending') :
    ¬ ending.Cut ∧ ¬ ending'.Cut := by
  cases h <;> exact ⟨id, id⟩

/-- What the runs of two programs come to corresponds in some world. -/
structure Agree (κ : Correspondence) (run run' : Machine × Ending) (returned returned' : List Value) :
    Prop where
  machines : ∃ ρ : World, κ.Machines ρ run.1 run'.1
  endings : κ.Endings run.2 run'.2
  returned : List.Forall₂ κ.Similar returned returned'

/-- Where no name is changed, corresponding values are shown alike. -/
lemma display_eq (hid : κ.rename = id) {v v' : Value} (h : κ.Similar v v') :
    v'.display = v.display := by
  cases h with
  | plain => rfl
  | closure _ hname =>
    have hlexeme := κ.lexeme_name _ _ hname
    rw [hid] at hlexeme
    simp only [Value.display, hlexeme, id]

/-- Where no name is changed, corresponding programs print the same. -/
lemma Agree.output_eq {run run' : Machine × Ending} {l l' : List Value}
    (h : κ.Agree run run' l l') (hid : κ.rename = id) : run.1.output = run'.1.output := by
  obtain ⟨ρ, hm⟩ := h.machines
  refine Array.toList_inj.1 (List.forall₂_eq_eq_eq ▸ hm.output.imp ?_)
  rintro text text' ⟨v, v', hv, rfl, rfl⟩
  exact (display_eq hid hv).symm

/-- Where no name is changed, corresponding programs leave globals of the same names with similar
values. -/
lemma Agree.globals {run run' : Machine × Ending} {l l' : List Value}
    (h : κ.Agree run run' l l') (hid : κ.rename = id) :
    List.Forall₂ (fun b b' => b'.1 = b.1 ∧ κ.Similar b.2 b'.2) run.1.globals run'.1.globals := by
  obtain ⟨ρ, hm⟩ := h.machines
  refine List.Forall₂.imp (fun b b' hb => ⟨?_, hb.2.similar⟩) hm.globals
  rw [hb.1, hid, id]

/-- **Corresponding programs run alike**, unless a run is cut short that may be. Where runs are cut
short together, they leave machines that correspond even then.

**Proof sketch.** Programs are executed at the root, which is not thin. -/
theorem interpret {limits limits' : Limits} (hd : κ.room.Deep limits.depth limits'.depth)
    (hr : κ.room.Long limits.rounds limits'.rounds) {p p' : Slots} (hp : κ.Bodies p p')
    {m m' : Machine} (hm : κ.Machines ρ m m') :
    κ.room.Spares (m.interpret limits p).2.Cut (m'.interpret limits' p').2.Cut ∨
      κ.Agree (m.interpret limits p) (m'.interpret limits' p') (m.returns limits p)
        (m'.returns limits' p') ∨
      κ.room = .same ∧
        ∃ ρ : World, κ.Machines ρ (m.interpret limits p).1 (m'.interpret limits' p').1 := by
  have hexecutes := (evaluates_executes hr _ _ _ (Nat.le_refl _) hd).2
  have hrun := hexecutes.sequence hm.stores.root hp ρ m m' List.prefix_rfl hm
  unfold Machine.interpret Machine.returns
  generalize Run.sequence (execute limits.rounds limits.depth Store.root) p m = x at hrun
  generalize Run.sequence (execute limits'.rounds limits'.depth Store.root) p' m' = y at hrun
  cases hrun with
  | spared hcut =>
    refine .inl (hcut.imp (fun hx => ?_) fun hy => ?_)
    · cases x with
      | ok => exact absurd hx id
      | error halt => cases halt <;> exact hx
    · cases y with
      | ok => exact absurd hy id
      | error halt => cases halt <;> exact hy
  | ended _ hm hc hl =>
    cases hc with
    | normal => exact .inr (.inl ⟨⟨_, hm⟩, .finished, hl⟩)
    | returned hv hk => exact .inr (.inl ⟨⟨_, hm⟩, .faulted (.other hk), hl⟩)
  | faulted _ hm hf hl => exact .inr (.inl ⟨⟨_, hm⟩, .faulted hf, hl⟩)
  | @halted ρ' _ _ halt _ _ hroom _ hm hlimit =>
    refine .inr (.inr ⟨hroom, ρ', ?_⟩)
    cases halt with
    | fault => exact absurd hlimit id
    | tooDeep | tooLong => exact hm

end Correspondence

end LoxLang
