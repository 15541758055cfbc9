import LoxLang.Proofs.Console.Scopes
import LoxLang.Proofs.Evaluation.Declared
import LoxLang.Proofs.Evaluation.Events

set_option autoImplicit false

/-!
# What events tell

The events of a run tell which names scopes come to bind: those that are declared there, and no
others. They tell it in order, so it is known of any two of them what came about in between. And what
is at work in the body of a function value is known to be in a scope from which the way leads up to
the scope of the function value, with nothing but names of the function's own bound on the way.

## Main definitions

* `Store.Hosts` — a scope in which the body of a function value may be at work.
* `Story` — how events lead from one store to another.
* `Run.ToldBy` — the events of a run lead to where the run ends.

## Main results

* `Story.mem_names_iff` — names are bound by being declared.
* `Run.story_call` — a call is told by its events.
* `toldAt` — so are expressions and statements, whatever the machine and however they end.
* `Machine.story_events` — and programs.
-/

namespace LoxLang

/-- Some names are among those of the function's own whose body is at work, if any is. -/
def OwnedBy (owner : Option Closure) (names : List String) : Prop := ∀ f ∈ owner, names ⊆ f.ownNames

lemma OwnedBy.mono {owner : Option Closure} {names more : List String} (h : OwnedBy owner more)
    (hsub : names ⊆ more) : OwnedBy owner names := fun f hf => List.Subset.trans hsub (h f hf)

/-- In this scope the body of a function value may be at work: the way leads up to the scope of the
function value, with nothing but names of the function's own on it. -/
structure Store.Hosts (s : Store) (owner : Option Closure) (scope : ScopeId) : Prop where
  sound : s.Sound
  scope_lt : scope < s.next
  way : ∀ f ∈ owner, s.Way { name | name ∈ f.ownNames } f.scope scope

/-- How events lead from one store to another. In between, scopes may be made and bindings may be
changed, but scopes that are there come to bind a name only by its being declared. -/
inductive Story : Store → List Event → Store → Prop
  | nil (s : Store) : Story s [] s
  /-- Scopes are made, with what they bind at first, or bindings are changed. -/
  | quiet {s t u : Store} {events : List Event} (hext : s.Extends t) (hkept : s.KeepsNames ∅ t)
    (h : Story t events u) : Story s events u
  | uses {s t : Store} {u : Use} {events : List Event} (hu : u.store = s)
    (hhosts : s.Hosts u.owner u.scope) (h : Story s events t) : Story s (.uses u :: events) t
  | declares {s t : Store} {scope : ScopeId} {name : String} {v : Value} {events : List Event}
    (hlt : scope < s.next) (h : Story (s.define scope name v) events t) :
    Story s (.declares scope name :: events) t

namespace Story

variable {s t u : Store} {events more : List Event}

lemma append (h : Story s events t) (h' : Story t more u) : Story s (events ++ more) u := by
  induction h with
  | nil => exact h'
  | quiet hext hkept _ ih => exact .quiet hext hkept (ih h')
  | uses hu hhosts _ ih => exact .uses hu hhosts (ih h')
  | declares hlt _ ih => exact .declares hlt (ih h')

/-- A story goes from the store before some events to the one after them. -/
lemma split (h : Story s (events ++ more) u) : ∃ t, Story s events t ∧ Story t more u := by
  generalize hall : events ++ more = all at h
  induction h generalizing events with
  | nil t =>
    obtain ⟨rfl, rfl⟩ := List.append_eq_nil_iff.1 hall
    exact ⟨t, .nil t, .nil t⟩
  | quiet hext hkept _ ih =>
    obtain ⟨t, h, h'⟩ := ih hall
    exact ⟨t, .quiet hext hkept h, h'⟩
  | @uses s t u rest hu hhosts h ih =>
    rcases List.append_eq_cons_iff.1 hall with ⟨rfl, rfl⟩ | ⟨events, rfl, hrest⟩
    · exact ⟨s, .nil s, .uses hu hhosts h⟩
    · obtain ⟨t, h, h'⟩ := ih hrest.symm
      exact ⟨t, .uses hu hhosts h, h'⟩
  | @declares s t scope name v rest hlt h ih =>
    rcases List.append_eq_cons_iff.1 hall with ⟨rfl, rfl⟩ | ⟨events, rfl, hrest⟩
    · exact ⟨s, .nil s, .declares hlt h⟩
    · obtain ⟨t, h, h'⟩ := ih hrest.symm
      exact ⟨t, .declares hlt h, h'⟩

/-- A use is told where it takes place, and nothing but quiet steps lead there. -/
lemma of_uses {v : Use} (h : Story s (.uses v :: events) t) :
    Story s [] v.store ∧ v.store.Hosts v.owner v.scope ∧ Story v.store events t := by
  generalize hall : Event.uses v :: events = all at h
  induction h with
  | nil => contradiction
  | quiet hext hkept _ ih =>
    obtain ⟨hquiet, hhosts, hrest⟩ := ih hall
    exact ⟨.quiet hext hkept hquiet, hhosts, hrest⟩
  | uses hv hhosts h =>
    obtain ⟨⟨⟩, rfl⟩ := List.cons.inj hall
    subst hv
    exact ⟨.nil _, hhosts, h⟩
  | declares => cases (List.cons.inj hall).1

/-- A later store has all scopes of an earlier one. -/
lemma store_extends (h : Story s events t) : s.Extends t := by
  induction h with
  | nil s => exact .refl s
  | quiet hext _ _ ih => exact hext.trans ih
  | uses _ _ _ ih => exact ih
  | declares _ _ ih => exact (Store.extends_define _ _ _ _).trans ih

/-- **Names are bound by being declared.**

**Proof sketch.** Induction on the story. Only a declaration binds a name in a scope that is there. -/
theorem mem_names_iff (h : Story s events t) {scope : ScopeId} (hlt : scope < s.next)
    (name : String) :
    name ∈ t.names scope ↔ name ∈ s.names scope ∨ .declares scope name ∈ events := by
  induction h with
  | nil => simp
  | quiet hext hkept _ ih =>
    rw [ih (hext.lt_next hlt), hkept.names_eq scope hlt (Set.notMem_empty scope)]
  | uses _ _ _ ih => simpa using ih hlt
  | @declares s t place n v events hp _ ih =>
    rw [ih (by rwa [Store.next_define])]
    by_cases hplace : place = scope
    · subst hplace
      rw [Store.names_define_self hp]
      simp [or_assoc, or_left_comm, or_comm]
    · rw [Store.names_define_of_ne hplace]
      simp [Ne.symm hplace]

end Story

/-! ## Runs and their events -/

namespace Store.Hosts

variable {m n : Machine} {s t : Store} {owner : Option Closure} {scope : ScopeId}

/-- A scope goes on to host a function value if no names but its own are gained. -/
lemma later (h : s.Hosts owner scope) (ht : t.Sound) (hext : s.Extends t)
    (hgains : ∀ f ∈ owner, s.Gains { name | name ∈ f.ownNames } t) : t.Hosts owner scope :=
  ⟨ht, hext.lt_next h.scope_lt, fun f hf => (h.way f hf).later hext (hgains f hf)⟩

/-- A new scope hosts what the scope does under which it is made. -/
lemma child (h : s.Hosts owner scope) : (s.child scope).Hosts owner s.next := by
  refine ⟨sound_child h.sound h.scope_lt, ?_, fun f hf => (h.way f hf).child⟩
  rw [next_child]
  exact Nat.lt_succ_self _

lemma ready (h : m.store.Hosts owner scope) : Discipline.scopes.Ready m scope [] :=
  ⟨h.sound, h.scope_lt, by simp⟩

variable {rounds depth : Nat}

/-- What an expression leaves behind, with its value. -/
lemma evaluate (h : m.store.Hosts owner scope) {e : Expr} {v : Value}
    (hr : LoxLang.evaluate rounds depth scope e m = .ok v n) :
    n.store.Hosts owner scope ∧ m.store.Extends n.store ∧ v.Sound n.store := by
  obtain ⟨hn, hext, hv⟩ :=
    ((Discipline.scopes.evaluates_executes rounds depth).1 scope e m [] h.ready).of_ok hr
  have hkept := (keepsNamesAt rounds depth).1 scope e m
  rw [Run.left_of_ok hr] at hkept
  exact ⟨h.later hn hext fun f _ => hkept.gains _, hext, hv⟩

/-- What expressions leave behind, with their values. -/
lemma all (h : m.store.Hosts owner scope) {es : List Expr} {vs : List Value}
    (hr : Run.all (LoxLang.evaluate rounds depth scope) es m = .ok vs n) :
    n.store.Hosts owner scope ∧ m.store.Extends n.store ∧ ∀ v ∈ vs, v.Sound n.store := by
  have he := (Discipline.scopes.evaluates_executes rounds depth).1 scope
  have hnone : ∀ v ∈ ([] : List Value), Discipline.scopes.Sound m v := by simp
  obtain ⟨hn, hext, hvs⟩ := (Discipline.tracks_allOnto he h.ready hnone).of_ok hr
  have hkept := Run.keepsNames_all ((keepsNamesAt rounds depth).1 scope) es m
  rw [Run.left_of_ok hr] at hkept
  exact ⟨h.later hn hext fun f _ => hkept.gains _, hext, hvs⟩

/-- What a statement leaves behind that declares names of the function's own. -/
lemma execute (h : m.store.Hosts owner scope) {st : Stmt} (hown : OwnedBy owner st.declared)
    {completion : Completion}
    (hr : LoxLang.execute rounds depth scope st m = .ok completion n) :
    n.store.Hosts owner scope := by
  obtain ⟨hn, hext, -⟩ :=
    ((Discipline.scopes.evaluates_executes rounds depth).2 scope st m [] h.ready).of_ok hr
  have hgains := gains_execute rounds depth scope st m
  rw [Run.left_of_ok hr] at hgains
  exact h.later hn hext fun f hf => hgains.mono (hown f hf)

end Store.Hosts

namespace Run

variable {α β : Type} {owner : Option Closure} {scope : ScopeId} {x : Run α}
  {events : Machine → List Event} {m : Machine}

/-- The events of a run lead to where it ends, halted or not. -/
def ToldBy (owner : Option Closure) (scope : ScopeId) (events : Machine → List Event)
    (x : Run α) : Prop :=
  ∀ m : Machine, m.store.Hosts owner scope → Story m.store (events m) (x.left m).store

/-- The scope goes on to host the function value, unless the run is halted. -/
def Stays (owner : Option Closure) (scope : ScopeId) (x : Run α) : Prop :=
  ∀ (m : Machine) (a : α) (n : Machine), m.store.Hosts owner scope → x m = .ok a n →
    n.store.Hosts owner scope

/-- One run after another, on one machine. -/
lemma story_bind {k : α → Run β} {follow : α → Machine → List Event}
    (hx : Story m.store (events m) (x.left m).store)
    (hk : ∀ a n, x m = .ok a n → Story n.store (follow a n) ((k a).left n).store) :
    Story m.store (x.listing events follow m) ((x >>= k).left m).store := by
  rw [left_bind, listing]
  cases hr : x m with
  | ok a n =>
    rw [left_of_ok hr] at hx
    exact hx.append (hk a n hr)
  | error halt n =>
    rw [left_of_error hr] at hx
    simpa using hx

namespace ToldBy

/-- One run after another. -/
lemma bind {k : α → Run β} {follow : α → Machine → List Event} (hx : x.ToldBy owner scope events)
    (hstays : x.Stays owner scope) (hk : ∀ a, (k a).ToldBy owner scope (follow a)) :
    (x >>= k).ToldBy owner scope (x.listing events follow) :=
  fun m hm => story_bind (hx m hm) fun a n hr => hk a n (hstays m a n hm hr)

/-- What leaves the store alone adds no events. -/
lemma then_nothing {k : α → Run β} (hx : x.ToldBy owner scope events)
    (hk : ∀ a m, ((k a).left m).store = m.store) : (x >>= k).ToldBy owner scope events := by
  intro m hm
  have hnil : ∀ a n, x m = .ok a n → Story n.store [] ((k a).left n).store := by
    intro a n _
    rw [hk a n]
    exact .nil _
  have h : Story m.store (x.listing events (fun _ _ => []) m) ((x >>= k).left m).store :=
    story_bind (hx m hm) hnil
  rwa [listing_nil] at h

end ToldBy

/-- A run that leaves the store alone has no events. -/
lemma toldBy_of_store_eq (h : ∀ m, (x.left m).store = m.store) :
    x.ToldBy owner scope fun _ => [] := by
  intro m _
  rw [h m]
  exact .nil _

lemma toldBy_pure (a : α) : (pure a : Run α).ToldBy owner scope fun _ => [] :=
  toldBy_of_store_eq fun _ => rfl

lemma toldBy_throw (halt : Halt) : (throw halt : Run α).ToldBy owner scope fun _ => [] :=
  toldBy_of_store_eq fun _ => rfl

lemma store_left_ofExcept (token : Token) (result : Except RuntimeFault.Cause α) (m : Machine) :
    ((ofExcept token result).left m).store = m.store := by
  cases result <;> rfl

/-- A declaration is an event. -/
lemma toldBy_declare (name : Token) (v : Value) :
    (declare name scope v).ToldBy owner scope fun _ => [.declares scope name.lexeme] :=
  fun _ hm => .declares hm.scope_lt (.nil _)

/-- Reading a variable is an event. -/
lemma toldBy_lookUp (name : Token) :
    (lookUp name scope).ToldBy owner scope fun m => [.uses ⟨owner, name, scope, m.store⟩] := by
  intro m hm
  have hleft : ((lookUp name scope).left m).store = m.store := by
    unfold left
    rw [lookUp_apply]
    cases m.store.get? scope name.lexeme <;> rfl
  rw [hleft]
  exact .uses rfl hm (.nil _)

/-- Assigning to a variable is an event. -/
lemma toldBy_assign (name : Token) (v : Value) :
    (assign name scope v).ToldBy owner scope fun m => [.uses ⟨owner, name, scope, m.store⟩] := by
  intro m hm
  refine .uses rfl hm (.quiet ?_ (keepsNames_assign ∅ name scope v m) (.nil _))
  unfold left
  rw [assign_apply]
  cases m.store.resolve? name.lexeme scope with
  | none => exact .refl _
  | some place => exact Store.extends_define _ _ _ _

/-! ### Loops -/

lemma toldBy_all {evaluate : Expr → Run Value} {events : Expr → Machine → List Event}
    (he : ∀ e, (evaluate e).ToldBy owner scope (events e))
    (hstays : ∀ e, (evaluate e).Stays owner scope) (es : List Expr) :
    (all evaluate es).ToldBy owner scope (listAll evaluate events es) := by
  suffices honto : ∀ values,
      (allOnto evaluate values es).ToldBy owner scope (listAll evaluate events es) from honto []
  induction es with
  | nil => exact fun values => toldBy_pure _
  | cons e es ih => exact fun values => (he e).bind (hstays e) fun v => ih (v :: values)

/-- One completion, and what follows it if it is normal. -/
lemma ToldBy.followed {x next : Run Completion} {follow : Machine → List Event}
    (hx : x.ToldBy owner scope events) (hstays : x.Stays owner scope)
    (hnext : next.ToldBy owner scope follow) :
    ToldBy owner scope
      (x.listing events fun completion =>
        match completion with
        | .normal => follow
        | .returned _ _ => fun _ => [])
      (do
        match ← x with
        | .normal => next
        | .returned v keyword => return .returned v keyword) := by
  refine hx.bind hstays fun completion => ?_
  cases completion with
  | normal => exact hnext
  | returned v keyword => exact toldBy_pure _

lemma toldBy_sequence {execute : Stmt → Run Completion} {events : Stmt → Machine → List Event}
    (hs : ∀ s, OwnedBy owner s.declared → (execute s).ToldBy owner scope (events s))
    (hstays : ∀ s, OwnedBy owner s.declared → (execute s).Stays owner scope) {slots : Slots}
    (hown : OwnedBy owner (Stmt.declaredIn slots)) :
    (sequence execute slots).ToldBy owner scope (listSequence execute events slots) := by
  induction slots with
  | nil => exact toldBy_pure _
  | cons slot rest ih =>
    cases slot with
    | none => exact ih hown
    | some s =>
      have hfirst : OwnedBy owner s.declared := hown.mono (List.subset_append_left _ _)
      have hrest : OwnedBy owner (Stmt.declaredIn rest) := hown.mono (List.subset_append_right _ _)
      exact (hs s hfirst).followed (hstays s hfirst) (ih hrest)

lemma toldBy_iterate {condition : Run Value} {body : Run Completion}
    {inCondition inBody : Machine → List Event}
    (hcondition : condition.ToldBy owner scope inCondition) (hstays : condition.Stays owner scope)
    (hbody : body.ToldBy owner scope inBody) (hstays' : body.Stays owner scope) (rounds : Nat) :
    (iterate condition body rounds).ToldBy owner scope
      (listIterate condition body inCondition inBody rounds) := by
  induction rounds with
  | zero => exact toldBy_throw _
  | succ rounds ih =>
    refine hcondition.bind hstays fun v => ?_
    split
    · exact hbody.followed hstays' ih
    · exact toldBy_pure _

/-! ### Calls -/

/-- Parameters are always bound. -/
lemma declareAll_ok (scope : ScopeId) (names : List Token) (values : List Value) (m : Machine) :
    ∃ n, declareAll scope names values m = .ok () n := by
  induction names generalizing values m with
  | nil => exact ⟨m, rfl⟩
  | cons name names ih =>
    cases values with
    | nil => exact ⟨m, rfl⟩
    | cons v values => exact ih values { m with store := m.store.define scope name.lexeme v }

/-- The scope of a call hosts the function value that is called. -/
lemma enter_hosts {f : Closure} {arguments : List Value} (hm : m.store.Sound)
    (hf : (Value.closure f).Sound m.store) (hvs : ∀ v ∈ arguments, v.Sound m.store) :
    ∃ inner n, enter f arguments m = .ok inner n ∧ m.store.Extends n.store ∧
      m.store.KeepsNames ∅ n.store ∧ n.store.Hosts (some f) inner := by
  have houter : m.store.Hosts (some f) f.scope := by
    refine ⟨hm, (hf f rfl).scope_lt, ?_⟩
    rintro _ ⟨⟩
    exact .here
  let k : Machine := { m with store := m.store.child f.scope }
  have hopened : m.store.Extends k.store := Store.extends_child m.store f.scope
  have hhosts : k.store.Hosts (some f) m.store.next := houter.child
  have hvs' : ∀ v ∈ arguments, v.Sound k.store := fun v hv => hopened.value_sound (hvs v hv)
  obtain ⟨n, hbound⟩ := declareAll_ok m.store.next f.parameters arguments k
  obtain ⟨hn, hext, -⟩ := (Discipline.tracks_declareAll hhosts.ready hvs').of_ok hbound
  have hkept := keepsNames_declareAll m.store.next f.parameters arguments k
  have hgains := gains_declareAll m.store.next f.parameters arguments k
  rw [left_of_ok hbound] at hkept hgains
  refine ⟨m.store.next, n, ?_, hopened.trans hext, .opened hkept, hhosts.later hn hext ?_⟩
  · unfold enter
    rw [bind_apply, openScope_apply]
    dsimp only
    rw [bind_apply, hbound]
    rfl
  · rintro _ ⟨⟩
    exact hgains.mono fun name hname => List.mem_append_left _ hname

/-- **A call is told by its events**, with the function value that is called at work. -/
lemma story_call {execute : ScopeId → Stmt → Run Completion}
    {events : Closure → ScopeId → Stmt → Machine → List Event}
    (hs : ∀ f inner s, OwnedBy (some f) s.declared →
      (execute inner s).ToldBy (some f) inner (events f inner s))
    (hstays : ∀ f inner s, OwnedBy (some f) s.declared → (execute inner s).Stays (some f) inner)
    (hm : m.store.Sound) {callee : Value} {arguments : List Value} (hcallee : callee.Sound m.store)
    (hvs : ∀ v ∈ arguments, v.Sound m.store) (paren : Token) :
    Story m.store (eventsCall execute events callee arguments m)
      ((call execute callee paren arguments).left m).store := by
  cases callee with
  | closure f =>
    by_cases harity : arguments.length = f.arity
    · rw [call_closure_enter execute f paren harity, eventsCall, if_pos harity]
      obtain ⟨inner, n, hr, hext, hkept, hhosts⟩ := enter_hosts hm hcallee hvs
      have hbody : OwnedBy (some f) (Stmt.declaredIn f.body) := by
        rintro _ ⟨⟩
        exact List.subset_append_right _ _
      have hrun := (toldBy_sequence (hs f inner) (hstays f inner) hbody).then_nothing
        (fun completion _ => (rfl : ((pure completion.value : Run Value).left _).store = _))
      rw [listing, hr, left_bind, hr]
      exact .quiet hext hkept (hrun n hhosts)
    · rw [call_closure, if_neg harity, eventsCall, if_neg harity]
      exact .nil _
  | native f =>
    rw [call_native]
    split
    · cases f
      exact .nil _
    · exact .nil _
  | nil | bool | number | string => exact .nil _

end Run

/-! ## Evaluation -/

open Run

variable {rounds depth : Nat}

/-- Expressions and statements are told by their events at a depth, in whatever body they are. -/
def ToldAt (rounds depth : Nat) : Prop :=
  (∀ owner scope e,
    (evaluate rounds depth scope e).ToldBy owner scope (Expr.events rounds depth owner scope e)) ∧
  ∀ owner scope s, OwnedBy owner s.declared →
    (execute rounds depth scope s).ToldBy owner scope (Stmt.events rounds depth owner scope s)

lemma stays_evaluate (rounds depth : Nat) (owner : Option Closure) (scope : ScopeId) (e : Expr) :
    (evaluate rounds depth scope e).Stays owner scope := fun _ _ _ hm hr => (hm.evaluate hr).1

lemma stays_execute (rounds depth : Nat) {owner : Option Closure} (scope : ScopeId) (s : Stmt)
    (hown : OwnedBy owner s.declared) : (execute rounds depth scope s).Stays owner scope :=
  fun _ _ _ hm hr => hm.execute hown hr

/-- An expression is told by its events if all that is nested in it is. -/
lemma toldBy_evaluate_succ (h : ToldAt rounds depth) (owner : Option Closure) (scope : ScopeId)
    (e : Expr) : (evaluate rounds (depth + 1) scope e).ToldBy owner scope
      (Expr.events rounds (depth + 1) owner scope e) := by
  have he := h.1 owner scope
  have hstays := stays_evaluate rounds depth owner scope
  cases e with
  | literal value => exact toldBy_pure _
  | grouping inner => exact he inner
  | «variable» name => exact toldBy_lookUp name
  | assign name value =>
    refine (he value).bind (hstays value) fun v => ?_
    exact (toldBy_assign name v).then_nothing fun _ _ => rfl
  | unary operator operand =>
    exact (he operand).then_nothing fun v m => store_left_ofExcept operator _ m
  | binary left operator right =>
    refine (he left).bind (hstays left) fun v => ?_
    exact (he right).then_nothing fun w m => store_left_ofExcept operator _ m
  | logical left operator right =>
    refine (he left).bind (hstays left) fun v => ?_
    split
    · exact toldBy_pure _
    · exact he right
  | call callee paren arguments =>
    -- what is called must be known to be sound, so the machines are followed here
    intro m hm
    refine story_bind (he callee m hm) fun f n hf => ?_
    obtain ⟨hn, -, hfsound⟩ := hm.evaluate hf
    refine story_bind (toldBy_all he hstays arguments n hn) fun vs k hvs => ?_
    obtain ⟨hk, hext, hvsound⟩ := hn.all hvs
    refine story_call (fun g inner s => h.2 (some g) inner s) ?_ hk.sound
      (hext.value_sound hfsound) hvsound paren
    exact fun g inner s hown => stays_execute rounds depth inner s hown

/-- A statement is told by its events if all that is nested in it is. -/
lemma toldBy_execute_succ (h : ToldAt rounds depth) (owner : Option Closure) (scope : ScopeId)
    (s : Stmt) (hown : OwnedBy owner s.declared) :
    (execute rounds (depth + 1) scope s).ToldBy owner scope
      (Stmt.events rounds (depth + 1) owner scope s) := by
  have he := h.1 owner scope
  have hs := h.2 owner
  have hstays := stays_evaluate rounds depth owner scope
  cases s with
  | expression value => exact (he value).then_nothing fun _ _ => rfl
  | print value => exact (he value).then_nothing fun _ _ => rfl
  | var name initial =>
    cases initial with
    | none => exact (toldBy_declare name .nil).then_nothing fun _ _ => rfl
    | some initial =>
      refine (he initial).bind (hstays initial) fun v => ?_
      exact (toldBy_declare name v).then_nothing fun _ _ => rfl
  | block body =>
    intro m hm
    have hinner := toldBy_sequence (hs m.store.next)
      (fun s hs => stays_execute rounds depth m.store.next s hs) hown
    refine .quiet (Store.extends_child m.store scope) (.child m.store scope) ?_
    exact hinner { m with store := m.store.child scope } hm.child
  | branch condition whenTrue whenFalse =>
    refine (he condition).bind (hstays condition) fun v => ?_
    cases whenFalse with
    | none =>
      split
      · exact hs scope whenTrue hown
      · exact toldBy_pure _
    | some whenFalse =>
      split
      · exact hs scope whenTrue (hown.mono (List.subset_append_left _ _))
      · exact hs scope whenFalse (hown.mono (List.subset_append_right _ _))
  | loop condition body =>
    exact toldBy_iterate (he condition) (hstays condition) (hs scope body hown)
      (stays_execute rounds depth scope body hown) rounds
  | function name parameters body =>
    intro m hm
    exact .declares hm.scope_lt (.nil _)
  | «return» keyword value =>
    cases value with
    | none => exact toldBy_pure _
    | some value => exact (he value).then_nothing fun _ _ => rfl

/-- **Expressions and statements are told by their events**, whatever the machine and however the run
ends.

**Proof sketch.** Induction on the depth. A scope that is made hosts the function value at work if the
scope under which it is made does, and a call hosts the function value that is called. -/
theorem toldAt (rounds depth : Nat) : ToldAt rounds depth := by
  induction depth with
  | zero => exact ⟨fun _ _ _ => toldBy_throw _, fun _ _ _ _ => toldBy_throw _⟩
  | succ depth ih => exact ⟨toldBy_evaluate_succ ih, toldBy_execute_succ ih⟩

/-- **A program is told by its events**, however it ends. -/
theorem Machine.story_events (limits : Limits) (program : Slots) {m : Machine}
    (hm : m.store.Sound) :
    Story m.store (m.events limits program) (m.interpret limits program).1.store := by
  have hhosts : m.store.Hosts none Store.root := ⟨hm, hm.root_lt, by simp⟩
  have hown : ∀ names, OwnedBy none names := fun names f hf => by cases hf
  have hrun := toldBy_sequence ((toldAt limits.rounds limits.depth).2 none Store.root)
    (stays_execute limits.rounds limits.depth Store.root) (hown (Stmt.declaredIn program)) m hhosts
  rw [interpret_fst]
  exact hrun

end LoxLang
