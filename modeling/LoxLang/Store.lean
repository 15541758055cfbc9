import LoxLang.Value

/-!
# The store of scopes

Scopes live in one array and are never removed. Every scope but the first has a parent that was made
before it, so a walk towards the root always ends.

## Main definitions

* `Scope` — the bindings of one scope, and its parent.
* `Store` — all scopes made so far.
* `Store.resolve?` — the nearest scope that binds a name.
* `Store.get?`, `Store.assign?`, `Store.define`, `Store.child` — the operations on scopes.
-/

namespace LoxLang

/-- The bindings of one scope, in the order in which the names were first bound. -/
structure Scope where
  parent : Option ScopeId
  bindings : List (String × Value)

namespace Scope

/-- Binds a name, in place if it is bound already. -/
def bind (name : String) (value : Value) : List (String × Value) → List (String × Value)
  | [] => [(name, value)]
  | (n, v) :: rest => if n == name then (n, value) :: rest else (n, v) :: bind name value rest

/-- The value of a name in this scope alone. -/
def get? (s : Scope) (name : String) : Option Value := s.bindings.lookup name

/-- Whether a name is bound in this scope itself. -/
def binds (s : Scope) (name : String) : Bool := s.bindings.any (·.1 == name)

/-- This scope with one name bound anew. -/
def define (s : Scope) (name : String) (value : Value) : Scope :=
  { s with bindings := bind name value s.bindings }

/-- Binding a name changes what is found under that name and under no other. -/
theorem lookup_bind (name n : String) (value : Value) (bindings : List (String × Value)) :
    (bind name value bindings).lookup n = if n = name then some value else bindings.lookup n := by
  induction bindings with
  | nil => by_cases h : n = name <;> simp [bind, h]
  | cons b rest ih =>
    obtain ⟨m, v⟩ := b
    by_cases hm : m = name
    · subst hm
      by_cases h : n = m
      · simp [bind, h]
      · have hf : (n == m) = false := by simpa using h
        simp [bind, h, List.lookup_cons, hf]
    · by_cases hn : n = m
      · subst hn
        simp [bind, hm]
      · have hf : (n == m) = false := by simpa using hn
        simp [bind, hm, List.lookup_cons, hf, ih]

/-- A name is bound in a scope itself exactly if it has a value there. -/
theorem binds_iff (s : Scope) (name : String) : s.binds name = (s.get? name).isSome := by
  unfold binds get?
  induction s.bindings with
  | nil => rfl
  | cons b rest ih =>
    obtain ⟨m, v⟩ := b
    by_cases h : name = m
    · subst h
      simp
    · have hf : (name == m) = false := by simpa using h
      have hg : (m == name) = false := by simpa using Ne.symm h
      simp [List.lookup_cons, hf, hg, ih]

/-- What a scope binds after one of its names was bound anew. -/
theorem get?_define (s : Scope) (name n : String) (value : Value) :
    (s.define name value).get? n = if n = name then some value else s.get? n :=
  lookup_bind name n value s.bindings

end Scope

/-- All scopes made so far, by their places. -/
structure Store where
  scopes : Array Scope

namespace Store

/-- The place of the scope that has no parent. -/
def root : ScopeId := 0

/-- A store with an empty scope at the root. -/
def initial : Store := ⟨#[⟨none, []⟩]⟩

/-- The place of the scope that is made next. -/
def next (s : Store) : ScopeId := s.scopes.size

/-- Makes a new scope under a parent. -/
def child (s : Store) (parent : ScopeId) : Store := ⟨s.scopes.push ⟨some parent, []⟩⟩

/-- Binds a name in a scope itself. -/
def define (s : Store) (scope : ScopeId) (name : String) (value : Value) : Store :=
  ⟨s.scopes.modify scope (·.define name value)⟩

/-- The nearest scope that binds a name, on the way from a scope to the root. A parent lies before
its child. -/
def resolve? (s : Store) (name : String) (scope : ScopeId) : Option ScopeId :=
  match s.scopes[scope]? with
  | none => none
  | some here =>
    if here.binds name then some scope
    else
      match here.parent with
      | none => none
      | some parent => if parent < scope then s.resolve? name parent else none
termination_by scope

/-- The value of a name as seen from a scope. -/
def get? (s : Store) (scope : ScopeId) (name : String) : Option Value := do
  let place ← s.resolve? name scope
  let here ← s.scopes[place]?
  here.get? name

/-- Changes the binding of a name that is seen from a scope, if there is one. -/
def assign? (s : Store) (scope : ScopeId) (name : String) (value : Value) : Option Store :=
  (s.resolve? name scope).map fun place => s.define place name value

end Store

end LoxLang
