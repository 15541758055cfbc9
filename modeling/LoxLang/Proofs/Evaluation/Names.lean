import Mathlib.Data.Set.Insert
import LoxLang.Proofs.Evaluation.Steps
import LoxLang.Proofs.Grammar.WellFormed
import LoxLang.Proofs.Store.Shape
import LoxLang.Scan

set_option autoImplicit false

/-!
# The names in scopes

Only declarations bind names, and they do so in the scope at hand. Assignments change what is bound
already, and everything else that binds something does so in a scope that it made itself. So of the
scopes that were there before a statement, the one at hand is the only one that may bind more names
after it.

## Main definitions

* `Store.names` — the names that a scope binds itself.
* `Store.KeepsNames`, `Run.KeepsNames` — scopes bind no more and no fewer names than before.
* `Stmt.StandsIn` — the statements of a program, at any place in it.

## Main results

* `Run.KeepsNames.opened` — what goes on in a new scope binds no name in the others.
* `keepsNames_execute` — a statement binds names in the scope at hand only.
* `Stmt.IsBranch.keepsNames` — a statement that is no declaration binds no names there either.
* `Grammar.names_execute` — the names in scopes after a statement of a program.
-/

namespace LoxLang

/-! ## Names in a store -/

namespace Store

/-- The names that a scope binds itself. -/
def names (s : Store) (scope : ScopeId) : Set String :=
  { name | ∃ a, s.scopes[scope]? = some a ∧ a.binds name = true }

/-- No scope is gone, and all but some bind the names that they bound before. -/
structure KeepsNames (own : Set ScopeId) (s t : Store) : Prop where
  next_le : s.next ≤ t.next
  names_eq : ∀ scope < s.next, scope ∉ own → t.names scope = s.names scope

variable {s t u : Store} {own more : Set ScopeId} {scope place : ScopeId} {name : String}

/-- Binding a name in a scope adds it there. -/
lemma names_define_self (hlt : scope < s.next) (name : String) (v : Value) :
    (s.define scope name v).names scope = insert name (s.names scope) := by
  obtain ⟨a, ha⟩ := lt_next_iff.1 hlt
  ext n
  simp only [names, getElem?_define, ha, Set.mem_ofPred_eq, Set.mem_insert_iff, if_true,
    Option.map_some, Option.some.injEq, exists_eq_left', Scope.binds_iff, Scope.get?_define]
  by_cases h : n = name <;> simp [h]

/-- Binding a name in a scope adds none to others. -/
lemma names_define_of_ne (h : place ≠ scope) (name : String) (v : Value) :
    (s.define place name v).names scope = s.names scope := by
  simp [names, getElem?_define, h]

/-- Changing what is bound adds no name. -/
lemma names_define_of_resolve? (h : s.resolve? name place = some scope) (v : Value)
    (i : ScopeId) : (s.define scope name v).names i = s.names i := by
  obtain ⟨a, ha, hb⟩ := binds_of_resolve? h
  by_cases hi : scope = i
  · subst hi
    rw [names_define_self (lt_next_iff.2 ⟨a, ha⟩)]
    exact Set.insert_eq_of_mem ⟨a, ha, hb⟩
  · exact names_define_of_ne hi name v

/-- A new scope leaves the names in others alone. -/
lemma names_child (parent : ScopeId) (hlt : scope < s.next) :
    (s.child parent).names scope = s.names scope := by
  simp [names, getElem?_child, Nat.ne_of_lt hlt]

namespace KeepsNames

lemma refl (own : Set ScopeId) (s : Store) : s.KeepsNames own s := ⟨Nat.le_refl _, fun _ _ _ => rfl⟩

lemma trans (h : s.KeepsNames own t) (h' : t.KeepsNames own u) : s.KeepsNames own u := by
  refine ⟨Nat.le_trans h.next_le h'.next_le, fun scope hlt hown => ?_⟩
  rw [h'.names_eq scope (Nat.lt_of_lt_of_le hlt h.next_le) hown, h.names_eq scope hlt hown]

lemma mono (h : s.KeepsNames own t) (hsub : own ⊆ more) : s.KeepsNames more t :=
  ⟨h.next_le, fun scope hlt hmore => h.names_eq scope hlt fun hown => hmore (hsub hown)⟩

/-- A scope that is new may bind whatever it likes. -/
lemma opened {parent : ScopeId} (h : (s.child parent).KeepsNames {s.next} t) :
    s.KeepsNames own t := by
  have hle := h.next_le
  rw [next_child] at hle
  refine ⟨Nat.le_of_succ_le hle, fun scope hlt _ => ?_⟩
  have hnew : scope < (s.child parent).next := next_child s parent ▸ Nat.lt_succ_of_lt hlt
  rw [h.names_eq scope hnew (Nat.ne_of_lt hlt), names_child parent hlt]

end KeepsNames

end Store

/-! ## Runs that keep names -/

namespace Run

variable {α β : Type} {own more : Set ScopeId} {x : Run α} {m : Machine}

/-- However a run ends, no scope is gone, and all but some bind the names that they bound before. -/
def KeepsNames (own : Set ScopeId) (x : Run α) : Prop :=
  ∀ m : Machine, m.store.KeepsNames own (x.left m).store

namespace KeepsNames

lemma mono (h : x.KeepsNames own) (hsub : own ⊆ more) : x.KeepsNames more :=
  fun m => (h m).mono hsub

/-- A run that leaves the store alone. -/
lemma of_store_eq (h : ∀ m, (x.left m).store = m.store) : x.KeepsNames own := by
  intro m
  rw [h m]
  exact .refl own _

/-- One run after another. -/
lemma bind {k : α → Run β} (hx : x.KeepsNames own) (hk : ∀ a, (k a).KeepsNames own) :
    (x >>= k).KeepsNames own := by
  intro m
  rw [left_bind]
  have hm := hx m
  cases hr : x m with
  | ok a n =>
    rw [left_of_ok hr] at hm
    exact hm.trans (hk a n)
  | error halt n =>
    rw [left_of_error hr] at hm
    exact hm

/-- **What goes on in a new scope** binds no name in the others. -/
lemma opened {k : ScopeId → Run α} (parent : ScopeId) (hk : ∀ scope, (k scope).KeepsNames {scope}) :
    (openScope parent >>= k).KeepsNames own := by
  intro m
  rw [left_bind, openScope_apply]
  exact .opened (hk m.store.next { m with store := m.store.child parent })

end KeepsNames

lemma keepsNames_pure (own : Set ScopeId) (a : α) : (pure a : Run α).KeepsNames own :=
  .of_store_eq fun _ => rfl

lemma keepsNames_throw (own : Set ScopeId) (halt : Halt) : (throw halt : Run α).KeepsNames own :=
  .of_store_eq fun _ => rfl

lemma keepsNames_ofExcept (own : Set ScopeId) (token : Token)
    (result : Except RuntimeFault.Cause α) : (ofExcept token result).KeepsNames own := by
  cases result with
  | ok a => exact keepsNames_pure own a
  | error cause => exact keepsNames_throw own _

lemma keepsNames_lookUp (own : Set ScopeId) (name : Token) (scope : ScopeId) :
    (lookUp name scope).KeepsNames own := by
  refine .of_store_eq fun m => ?_
  unfold left
  rw [lookUp_apply]
  cases m.store.get? scope name.lexeme <;> rfl

/-- **An assignment binds no name.** -/
lemma keepsNames_assign (own : Set ScopeId) (name : Token) (scope : ScopeId) (v : Value) :
    (assign name scope v).KeepsNames own := by
  intro m
  unfold left
  rw [assign_apply]
  cases h : m.store.resolve? name.lexeme scope with
  | none => exact .refl own _
  | some place =>
    refine ⟨?_, fun i _ _ => Store.names_define_of_resolve? h v i⟩
    exact (Store.next_define m.store place name.lexeme v).ge

lemma keepsNames_declare (name : Token) (scope : ScopeId) (v : Value) :
    (declare name scope v).KeepsNames {scope} := by
  intro m
  refine ⟨(Store.next_define m.store scope name.lexeme v).ge, fun i _ hne => ?_⟩
  exact Store.names_define_of_ne (Ne.symm hne) name.lexeme v

lemma keepsNames_declareAll (scope : ScopeId) (names : List Token) (values : List Value) :
    (declareAll scope names values).KeepsNames {scope} := by
  induction names generalizing values with
  | nil => exact keepsNames_pure _ _
  | cons name names ih =>
    cases values with
    | nil => exact keepsNames_pure _ _
    | cons v values => exact (keepsNames_declare name scope v).bind fun _ => ih values

/-! ### Loops -/

lemma keepsNames_all {evaluate : Expr → Run Value} (h : ∀ e, (evaluate e).KeepsNames own)
    (es : List Expr) : (all evaluate es).KeepsNames own := by
  suffices honto : ∀ values, (allOnto evaluate values es).KeepsNames own from honto []
  induction es with
  | nil => exact fun values => keepsNames_pure own _
  | cons e es ih => exact fun values => (h e).bind fun v => ih (v :: values)

/-- One completion, and what follows it if it is normal. -/
lemma KeepsNames.followed {x next : Run Completion} (hx : x.KeepsNames own)
    (hnext : next.KeepsNames own) : KeepsNames own (do
      match ← x with
      | .normal => next
      | .returned v keyword => return .returned v keyword) := by
  refine hx.bind fun completion => ?_
  cases completion with
  | normal => exact hnext
  | returned v keyword => exact keepsNames_pure own _

lemma keepsNames_sequence {execute : Stmt → Run Completion} {slots : Slots}
    (h : ∀ s, some s ∈ slots → (execute s).KeepsNames own) :
    (sequence execute slots).KeepsNames own := by
  induction slots with
  | nil => exact keepsNames_pure own _
  | cons slot rest ih =>
    have hrest := ih fun s hs => h s (List.mem_cons_of_mem _ hs)
    cases slot with
    | none => exact hrest
    | some s => exact (h s List.mem_cons_self).followed hrest

lemma keepsNames_iterate {condition : Run Value} {body : Run Completion}
    (hcondition : condition.KeepsNames own) (hbody : body.KeepsNames own) (rounds : Nat) :
    (iterate condition body rounds).KeepsNames own := by
  induction rounds with
  | zero => exact keepsNames_throw own _
  | succ rounds ih =>
    refine hcondition.bind fun v => ?_
    split
    · exact hbody.followed ih
    · exact keepsNames_pure own _

/-- **A call binds names in its own scope only.** -/
lemma keepsNames_call {execute : ScopeId → Stmt → Run Completion}
    (h : ∀ scope s, (execute scope s).KeepsNames {scope}) (callee : Value) (paren : Token)
    (arguments : List Value) : (call execute callee paren arguments).KeepsNames own := by
  cases callee with
  | closure f =>
    rw [call_closure]
    split
    · refine .opened f.scope fun scope => ?_
      refine (keepsNames_declareAll scope f.parameters arguments).bind fun _ => ?_
      exact (keepsNames_sequence fun s _ => h scope s).bind fun _ => keepsNames_pure _ _
    · exact keepsNames_throw own _
  | native f =>
    rw [call_native]
    split
    · cases f
      exact .of_store_eq fun _ => rfl
    · exact keepsNames_throw own _
  | nil | bool | number | string => exact keepsNames_throw own _

end Run

/-! ## Evaluation -/

open Run

variable {rounds depth : Nat}

/-- Expressions bind no name at a depth, and statements only in the scope at hand. -/
def KeepsNamesAt (rounds depth : Nat) : Prop :=
  (∀ scope e, (evaluate rounds depth scope e).KeepsNames ∅) ∧
  ∀ scope s, (execute rounds depth scope s).KeepsNames {scope}

/-- An expression binds no name if nothing nested in it does. -/
lemma keepsNames_evaluate_succ (h : KeepsNamesAt rounds depth) (scope : ScopeId) (e : Expr) :
    (evaluate rounds (depth + 1) scope e).KeepsNames ∅ := by
  obtain ⟨he, hs⟩ := h
  cases e with
  | literal value => exact keepsNames_pure _ _
  | grouping inner => exact he scope inner
  | «variable» name => exact keepsNames_lookUp _ name scope
  | assign name value =>
    refine (he scope value).bind fun v => ?_
    exact (keepsNames_assign _ name scope v).bind fun _ => keepsNames_pure _ _
  | unary operator operand => exact (he scope operand).bind fun v => keepsNames_ofExcept _ _ _
  | binary left operator right =>
    exact (he scope left).bind fun v => (he scope right).bind fun w => keepsNames_ofExcept _ _ _
  | logical left operator right =>
    refine (he scope left).bind fun v => ?_
    split
    · exact keepsNames_pure _ _
    · exact he scope right
  | call callee paren arguments =>
    refine (he scope callee).bind fun f => ?_
    exact (keepsNames_all (he scope) arguments).bind fun vs => keepsNames_call hs f paren vs

/-- A statement binds names in the scope at hand only if all that is nested in it does so. -/
lemma keepsNames_execute_succ (h : KeepsNamesAt rounds depth) (scope : ScopeId) (s : Stmt) :
    (execute rounds (depth + 1) scope s).KeepsNames {scope} := by
  have he := fun e => (h.1 scope e).mono (Set.empty_subset {scope})
  have hs := h.2
  cases s with
  | expression value => exact (he value).bind fun _ => keepsNames_pure _ _
  | print value =>
    refine (he value).bind fun v => .bind ?_ fun _ => keepsNames_pure _ _
    exact .of_store_eq fun _ => rfl
  | var name initial =>
    cases initial with
    | none => exact (keepsNames_declare name scope .nil).bind fun _ => keepsNames_pure _ _
    | some initial =>
      refine (he initial).bind fun v => ?_
      exact (keepsNames_declare name scope v).bind fun _ => keepsNames_pure _ _
  | block body => exact .opened scope fun inner => keepsNames_sequence fun s _ => hs inner s
  | branch condition whenTrue whenFalse =>
    refine (he condition).bind fun v => ?_
    split
    · exact hs scope whenTrue
    · cases whenFalse with
      | none => exact keepsNames_pure _ _
      | some whenFalse => exact hs scope whenFalse
  | loop condition body => exact keepsNames_iterate (he condition) (hs scope body) rounds
  | function name parameters body =>
    refine .bind (.of_store_eq fun _ => rfl) fun v => ?_
    exact (keepsNames_declare name scope v).bind fun _ => keepsNames_pure _ _
  | «return» keyword value =>
    cases value with
    | none => exact keepsNames_pure _ _
    | some value => exact (he value).bind fun _ => keepsNames_pure _ _

/-- **Expressions bind no name, and statements only in the scope at hand**, whatever the machine and
however the run ends.

**Proof sketch.** Induction on the depth. Blocks and calls go on in scopes that are made for them, and
what these bind is not among the names of scopes that were there before. -/
theorem keepsNamesAt (rounds depth : Nat) : KeepsNamesAt rounds depth := by
  induction depth with
  | zero => exact ⟨fun _ _ => keepsNames_throw _ _, fun _ _ => keepsNames_throw _ _⟩
  | succ depth ih => exact ⟨keepsNames_evaluate_succ ih, keepsNames_execute_succ ih⟩

/-- **A statement that is no declaration binds no name** in any scope that was there before, if its
branches and the bodies of its loops are no declarations either.

**Proof sketch.** Induction on the depth. Only a branch and the body of a loop are executed in the
scope at hand itself. -/
theorem Stmt.IsBranch.keepsNames {s : Stmt} (h : s.IsBranch) (rounds depth : Nat)
    (scope : ScopeId) : (execute rounds depth scope s).KeepsNames ∅ := by
  induction depth generalizing s with
  | zero => exact keepsNames_throw _ _
  | succ depth ih =>
    obtain ⟨he, hs⟩ := keepsNamesAt rounds depth
    cases s with
    | expression value => exact (he scope value).bind fun _ => keepsNames_pure _ _
    | print value =>
      refine (he scope value).bind fun v => .bind ?_ fun _ => keepsNames_pure _ _
      exact .of_store_eq fun _ => rfl
    | var | function => exact absurd h.1 (by simp [isDeclaration])
    | block body => exact .opened scope fun inner => keepsNames_sequence fun s _ => hs inner s
    | branch condition whenTrue whenFalse =>
      refine (he scope condition).bind fun v => ?_
      cases whenFalse with
      | none =>
        split
        · exact ih h.2
        · exact keepsNames_pure _ _
      | some whenFalse =>
        split
        · exact ih h.2.1
        · exact ih h.2.2
    | loop condition body => exact keepsNames_iterate (he scope condition) (ih h.2) rounds
    | «return» keyword value =>
      cases value with
      | none => exact keepsNames_pure _ _
      | some value => exact (he scope value).bind fun _ => keepsNames_pure _ _

/-! ## Statements of a program -/

section Declarations

variable {scope : ScopeId} {name : Token} {e : Expr} {m n : Machine}

lemma left_var_of_ok {v : Value} (h : evaluate rounds depth scope e m = .ok v n) :
    (execute rounds (depth + 1) scope (.var name (some e))).left m =
      { n with store := n.store.define scope name.lexeme v } := by
  show (evaluate rounds depth scope e >>= fun v => declare name scope v >>= fun _ =>
    pure Completion.normal).left m = _
  rw [left_bind, h]
  rfl

lemma left_var_of_error {halt : Halt} (h : evaluate rounds depth scope e m = .error halt n) :
    (execute rounds (depth + 1) scope (.var name (some e))).left m = n := by
  show (evaluate rounds depth scope e >>= fun v => declare name scope v >>= fun _ =>
    pure Completion.normal).left m = _
  rw [left_bind, h]

end Declarations

namespace Stmt

/-- A statement of a program, at any place in it. -/
def StandsIn (program : Slots) (s : Stmt) : Prop := Facing program program s s

mutual

/-- What stands in a regular program is regular. -/
lemma Facing.regular {p p' : Slots} {s s' : Stmt} (h : Facing p p' s s') (hp : AllRegular p) :
    s.Regular :=
  match h with
  | .member h => (h.allRegular hp).1
  | @Facing.whenTrue _ _ _ _ _ _ none _ h => (h.regular hp).2
  | @Facing.whenTrue _ _ _ _ _ _ (some _) _ h => (h.regular hp).1.2
  | .whenFalse h => (h.regular hp).2.2
  | .body h => (h.regular hp).2

/-- Slots in a regular program are regular. -/
lemma FacingIn.allRegular {p p' b b' : Slots} (h : FacingIn p p' b b') (hp : AllRegular p) :
    AllRegular b :=
  match h with
  | .program => hp
  | @FacingIn.later _ _ none _ _ _ h => h.allRegular hp
  | @FacingIn.later _ _ (some _) _ _ _ h => (h.allRegular hp).2
  | .block h | .function h => h.regular hp

end

end Stmt

/-- **Only declarations declare.** Let a statement stand anywhere in a program that is read from any
tokens, and let it be executed on any machine, in any of its scopes, and however it ends. Every other
scope that was there before binds the same names as before, and so does the scope at hand if the
statement is no declaration. The declaration of a variable binds its own name at most, and none if the
run of its initializer is halted; the declaration of a function binds exactly its own name.

**Proof sketch.** What is read is regular: no branch and no body of a loop is a declaration. All else
that binds names does so in scopes that were made after the statement was begun. -/
theorem Grammar.names_execute {reading : Nat} {tokens : List Token} {program : Slots}
    {faults : List SyntaxFault} (hread : parse reading tokens = .done program faults) {s : Stmt}
    (hs : s.StandsIn program) (rounds depth : Nat) {m : Machine} {scope : ScopeId}
    (hscope : scope < m.store.next) :
    let left := ((execute rounds (depth + 1) scope s).left m).store
    (∀ i < m.store.next, i ≠ scope ∨ s.isDeclaration = false → left.names i = m.store.names i) ∧
    (∀ name initial, s = .var name initial →
      (left.names scope = m.store.names scope ∨
        left.names scope = insert name.lexeme (m.store.names scope)) ∧
      ∀ e halt n, initial = some e → evaluate rounds depth scope e m = .error halt n →
        left.names scope = m.store.names scope) ∧
    ∀ name parameters body, s = .function name parameters body →
      left.names scope = insert name.lexeme (m.store.names scope) := by
  have hregular : s.Regular := Stmt.Facing.regular hs (allRegular_of_parse hread)
  have hown := (keepsNamesAt rounds (depth + 1)).2 scope s m
  refine ⟨fun i hi hother => ?_, ?_, ?_⟩
  · rcases hother with hne | hs
    · exact hown.names_eq i hi hne
    · have hbranch : s.IsBranch := ⟨hs, hregular⟩
      exact (hbranch.keepsNames rounds (depth + 1) scope m).names_eq i hi (Set.notMem_empty i)
  · rintro name initial rfl
    cases initial with
    | none => exact ⟨.inr (Store.names_define_self hscope name.lexeme .nil), by simp⟩
    | some e =>
      have hinitial := (keepsNamesAt rounds depth).1 scope e m
      have hkept := hinitial.names_eq scope hscope (Set.notMem_empty scope)
      cases hr : evaluate rounds depth scope e m with
      | ok v n =>
        rw [left_of_ok hr] at hinitial hkept
        have hlt : scope < n.store.next := Nat.lt_of_lt_of_le hscope hinitial.next_le
        refine ⟨?_, ?_⟩
        · rw [left_var_of_ok hr, ← hkept]
          exact .inr (Store.names_define_self hlt name.lexeme v)
        · rintro _ halt k ⟨⟩ hhalted
          rw [hr] at hhalted
          contradiction
      | error halt n =>
        rw [left_of_error hr] at hkept
        rw [left_var_of_error hr, hkept]
        exact ⟨.inl rfl, fun _ _ _ _ _ => rfl⟩
  · rintro name parameters body rfl
    exact Store.names_define_self hscope name.lexeme _

/-- The body of a `for` is executed and declares a variable, which binds nothing at the root. -/
theorem Grammar.names_execute_forBody :
    let i : Token := ⟨.identifier, "i", 1⟩
    let a : Token := ⟨.identifier, "a", 1⟩
    let body : Stmt := .block [some (.var a (some (.variable i))), some (.print (.variable a))]
    let round : Stmt := .block [some body, some (.expression (.assign i (.literal (.bool false))))]
    let s : Stmt := .block [some (.var i (some (.literal (.bool true)))),
      some (.loop (.variable i) round)]
    let m := Machine.initial (fun _ => 0)
    parse 20 (scan "for (var i = true; i; i = false) \x7b var a = i; print a; \x7d").tokens =
        .done [some s] [] ∧
      s.StandsIn [some s] ∧ Store.root < m.store.next ∧
      ((execute 9 9 Store.root s).left m).output = #["true"] ∧
      ((execute 9 9 Store.root s).left m).store.names Store.root = m.store.names Store.root := by
  intro i a body round s m
  have hread : parse 20
      (scan "for (var i = true; i; i = false) \x7b var a = i; print a; \x7d").tokens =
        .done [some s] [] := by
    with_unfolding_all rfl
  have hstands : s.StandsIn [some s] := .member .program
  have hroot : Store.root < m.store.next := by decide
  have hexecuted : ((execute 9 9 Store.root s).left m).output = #["true"] := by decide +kernel
  have h := names_execute hread hstands 9 8 hroot
  exact ⟨hread, hstands, hroot, hexecuted, h.1 Store.root hroot (.inr rfl)⟩

end LoxLang
