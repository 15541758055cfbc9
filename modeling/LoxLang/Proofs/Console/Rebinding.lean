import LoxLang.Proofs.Evaluation.Story

set_option autoImplicit false

/-!
# Uses of names that are not a function's own

A function value finds names that are not its own from the scope that it captured, wherever it is
called. They are looked up anew each time, so a declaration that is executed between two calls may
come before what was found first. Nothing else can.

## Main definitions

* `Console.events` — the events of what a console is given.
* `Interposed.source` — a program in which a declaration comes between two calls.

## Main results

* `Console.story_events` — what a console is given is told by its events.
* `Console.uses_of_captured` — where one function value finds one name at two times.
* `Interposed.not_bound_once` — the two need not be in one scope.
-/

namespace LoxLang

namespace Console

/-- The events of running a program, if one is run. -/
def eventsRunning (c : Console) : Option Slots → List Event
  | some program => c.machine.cleared.events c.limits program
  | none => []

/-- The events of what a console is given, in order. -/
def events (c : Console) : List Input → List Event
  | [] => []
  | input :: rest => c.eventsRunning (c.program? input) ++ (c.take input).1.events rest

/-- **What a console is given is told by its events.**

**Proof sketch.** By induction on what the console is given. A program that does not run has no
events, and one that does goes on from the store that those before it left behind. -/
theorem story_events (inputs : List Input) {c : Console} (hm : c.machine.store.Sound) :
    ∃ t, Story c.machine.store (c.events inputs) t := by
  induction inputs generalizing c with
  | nil => exact ⟨_, .nil _⟩
  | cons input rest ih =>
    have hran : Story c.machine.store (c.eventsRunning (c.program? input))
        (c.ran (c.program? input)).store := by
      cases c.program? input with
      | none => exact .nil _
      | some program =>
        have hcleared : c.machine.cleared.store.Sound := hm
        exact Machine.story_events c.limits program hcleared
    have hend : (c.ran (c.program? input)).store.Sound :=
      (Discipline.scopes.path_running hm hm.root_lt (c.program? input)).2
    rw [← machine_take] at hran hend
    obtain ⟨t, hrest⟩ := ih hend
    exact ⟨t, hran.append hrest⟩

end Console

/-! ## Two uses -/

section Uses

variable {s t : Store} {before between after : List Event} {u v : Use} {f : Closure}
  {place : ScopeId}

/-- A use of a name that is not a function's own finds it from the scope that was captured. -/
lemma Use.found_eq (hhosts : u.store.Hosts u.owner u.scope) (hu : u.owner = some f)
    (hown : u.name.lexeme ∉ f.ownNames) : u.found = u.store.resolve? u.name.lexeme f.scope :=
  (hhosts.way f hu).resolve?_eq hhosts.sound hown

/-- Where one function value finds one name at two times, in any story that tells of both. -/
lemma Story.found_again
    (h : Story s (before ++ .uses u :: (between ++ .uses v :: after)) t) (hu : u.owner = some f)
    (hv : v.owner = some f) (hname : v.name.lexeme = u.name.lexeme)
    (hown : u.name.lexeme ∉ f.ownNames) :
    u.found = u.store.resolve? u.name.lexeme f.scope ∧
    v.found = v.store.resolve? u.name.lexeme f.scope ∧
    ∀ place, u.found = some place →
      Relation.ReflTransGen u.store.IsBelow f.scope place ∧
      ∃ later, v.found = some later ∧
        (later = place ∨
          u.store.Nearer f.scope place later ∧ .declares later u.name.lexeme ∈ between) ∧
        ∀ q, u.store.Nearer f.scope later q → .declares q u.name.lexeme ∉ between := by
  obtain ⟨_, -, h⟩ := h.split
  obtain ⟨-, hhosts, h⟩ := h.of_uses
  obtain ⟨_, hbetween, h⟩ := h.split
  obtain ⟨hquiet, hhosts', -⟩ := h.of_uses
  have hstory : Story u.store between v.store := by simpa using hbetween.append hquiet
  have hfound := Use.found_eq hhosts hu hown
  have hfound' := Use.found_eq hhosts' hv (hname ▸ hown)
  rw [hname] at hfound'
  refine ⟨hfound, hfound', fun place hplace => ?_⟩
  rw [hfound] at hplace
  have hnames : ∀ i < u.store.next, u.name.lexeme ∈ v.store.names i ↔
      u.name.lexeme ∈ u.store.names i ∨ .declares i u.name.lexeme ∈ between :=
    fun i hlt => hstory.mem_names_iff hlt u.name.lexeme
  obtain ⟨later, hlater, hwhere, hnone⟩ :=
    Store.resolve?_later hhosts.sound hhosts'.sound hstory.store_extends hnames hplace
  exact ⟨Store.below_of_resolve? hplace, later, hfound'.trans hlater, hwhere, hnone⟩

end Uses

/-- **A function value finds names that are not its own from the scope that it captured.** On a
console that starts fresh, whatever it is given, let one function value be at work at two times and
use a name then that is neither a parameter of the function nor declared in its body. Both uses find
the name from the scope that the function value captured, whoever the caller is. If the first finds
it, then it does so on the way from there to the root, and so does the second: in the same scope, or
in one before it in which the name was declared in between; and the name was declared in none then
that is nearer than where the second finds it.

**Proof sketch.** On the way from the scope at work up to the captured one nothing is bound but names
of the function's own. From there on a scope binds more names later only if these were declared in
it, which the events in between tell. -/
theorem Console.uses_of_captured (limits : Limits) (painter : Painter) (clock : Clock)
    (inputs : List Input) {before between after : List Event} {u v : Use} {f : Closure}
    (hevents : (fresh limits painter clock).events inputs =
      before ++ .uses u :: (between ++ .uses v :: after))
    (hu : u.owner = some f) (hv : v.owner = some f) (hname : v.name.lexeme = u.name.lexeme)
    (hown : u.name.lexeme ∉ f.ownNames) :
    u.found = u.store.resolve? u.name.lexeme f.scope ∧
    v.found = v.store.resolve? u.name.lexeme f.scope ∧
    ∀ place, u.found = some place →
      Relation.ReflTransGen u.store.IsBelow f.scope place ∧
      ∃ later, v.found = some later ∧
        (later = place ∨
          u.store.Nearer f.scope place later ∧ .declares later u.name.lexeme ∈ between) ∧
        ∀ q, u.store.Nearer f.scope later q → .declares q u.name.lexeme ∉ between := by
  have hinitial : (fresh limits painter clock).machine.store.Sound := Machine.sound_initial clock
  obtain ⟨t, h⟩ := story_events inputs hinitial
  rw [hevents] at h
  exact h.found_again hu hv hname hown

/-! ## A declaration that comes in between -/

namespace Interposed

/-- A function is called twice, and the block in which it is declared declares a name in between. -/
def source : String :=
  "var a = \"global\"; \x7b fun showA() \x7b print a; \x7d showA(); var a = \"block\"; showA(); \x7d"

/-- The name of the function. -/
def name : Token := ⟨.identifier, "showA", 1⟩

/-- The name that is declared in between. -/
def shown : Token := ⟨.identifier, "a", 1⟩

/-- The function value, which captures the scope of the block. -/
def closure : Closure := ⟨0, name, [], [some (.print (.variable shown))], 1⟩

/-- The store before the first call. -/
def start : Store :=
  (((Machine.initial (fun _ => 0)).store.define 0 "a" (.string "global")).child 0).define 1 "showA"
    (.closure closure)

/-- The store before the second call. -/
def redeclared : Store := (start.child 1).define 1 "a" (.string "block")

/-- The use of the name in the first call. -/
def first : Use := ⟨some closure, shown, 2, start.child 1⟩

/-- The use of the name in the second call. -/
def second : Use := ⟨some closure, shown, 3, redeclared.child 1⟩

/-- The program that the source is read as. -/
def program : Slots :=
  let call : Stmt := .expression (.call (.variable name) ⟨.rightParen, ")", 1⟩ [])
  let declare (text : String) : Stmt := .var shown (some (.literal (.string text)))
  [some (declare "global"), some (.block [some (.function name [] closure.body), some call,
    some (declare "block"), some call])]

lemma events_eq : (Console.fresh ⟨9, 9, 9, 9⟩ .plain (fun _ => 0)).events [.program source] =
    [.declares 0 "a", .declares 1 "showA", .uses ⟨none, name, 1, start⟩, .uses first,
      .declares 1 "a", .uses ⟨none, name, 1, redeclared⟩, .uses second] := by
  have hread : (Console.fresh ⟨9, 9, 9, 9⟩ .plain (fun _ => 0)).program? (.program source) = some program := by
    with_unfolding_all rfl
  rw [Console.events, Console.events, hread, List.append_nil]
  cbv

lemma found_first : first.found = some 0 := by cbv

lemma found_second : second.found = some 1 := by cbv

lemma notMem_ownNames : first.name.lexeme ∉ closure.ownNames := by
  simp [closure, Closure.ownNames, Stmt.declaredIn, Stmt.declared]

/-- The second call of `showA` finds `a` in the block, where it was declared after the first call. -/
theorem uses_showA :
    let before : List Event :=
      [.declares 0 "a", .declares 1 "showA", .uses ⟨none, name, 1, start⟩]
    let between : List Event := [.declares 1 "a", .uses ⟨none, name, 1, redeclared⟩]
    (Console.fresh ⟨9, 9, 9, 9⟩ .plain (fun _ => 0)).events [.program source] =
        before ++ .uses first :: (between ++ .uses second :: []) ∧
      first.owner = some closure ∧ second.owner = some closure ∧
      second.name.lexeme = first.name.lexeme ∧ first.name.lexeme ∉ closure.ownNames ∧
      first.found = some 0 ∧ second.found = some 1 ∧ first.store.Nearer closure.scope 0 1 ∧
      .declares 1 first.name.lexeme ∈ between := by
  intro before between
  have hevents : (Console.fresh ⟨9, 9, 9, 9⟩ .plain (fun _ => 0)).events [.program source] =
      before ++ .uses first :: (between ++ .uses second :: []) := events_eq
  obtain ⟨-, -, hfound⟩ := Console.uses_of_captured ⟨9, 9, 9, 9⟩ .plain (fun _ => 0) [.program source] hevents
    rfl rfl rfl notMem_ownNames
  obtain ⟨-, later, hlater, hwhere, -⟩ := hfound 0 found_first
  obtain rfl : 1 = later := Option.some.inj (found_second.symm.trans hlater)
  obtain ⟨hnearer, hdeclared⟩ := hwhere.resolve_left (by decide)
  exact ⟨hevents, rfl, rfl, rfl, notMem_ownNames, found_first, found_second, hnearer, hdeclared⟩

/-- **What a function value finds for a name is not bound once and for all.** The program is accepted
and prints both values, so the two calls of one function value find one name in two scopes. -/
theorem not_bound_once :
    ((Console.fresh ⟨9, 9, 9, 9⟩ .plain (fun _ => 0)).submit source).2 = ⟨.ok, ["global", "block"], ""⟩ ∧
    ¬ ∀ (before between after : List Event) (u v : Use) (f : Closure) (place place' : ScopeId),
      (Console.fresh ⟨9, 9, 9, 9⟩ .plain (fun _ => 0)).events [.program source] =
        before ++ .uses u :: (between ++ .uses v :: after) →
      u.owner = some f → v.owner = some f → v.name = u.name → u.name.lexeme ∉ f.ownNames →
      u.found = some place → v.found = some place' → place = place' := by
  refine ⟨by decide +kernel, fun hone => ?_⟩
  have heq := hone [.declares 0 "a", .declares 1 "showA", .uses ⟨none, name, 1, start⟩]
    [.declares 1 "a", .uses ⟨none, name, 1, redeclared⟩] [] first second closure 0 1 events_eq rfl
    rfl rfl notMem_ownNames found_first found_second
  exact absurd heq (by decide)

end Interposed

end LoxLang
