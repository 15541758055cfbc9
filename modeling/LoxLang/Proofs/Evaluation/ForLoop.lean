import LoxLang.Proofs.Evaluation.Core
import LoxLang.Proofs.Evaluation.Lines
import LoxLang.Proofs.Grammar.ForLoop

set_option autoImplicit false

/-!
# A `for` is the loop written by hand

A program with a `for` and the program in which it is written by hand, on whatever lines, are read
as the same tree but for these lines. So they run alike. The tree also tells what a `for` does with
its variable and with a return: all rounds share the scope of the variable, and a return in the body
is the end of the loop.

## Main definitions

* `Stmt.round` — what a loop does in one round.
* `LoopParts.iterate` — the rounds of a loop in a scope.

## Main results

* `Grammar.eq_of_parse_sameWord` — the same tokens on other lines are read as the same program on
  other lines.
* `Machine.interpret_of_unplaced_eq` — programs that differ in their lines run alike.
* `execute_forLoop_declared` — all rounds share one variable.
* `iterate_of_returned` — a return in the body ends the loop in front of the step.
* `LoopParts.for_eq_byHand` — a `for` is exactly the loop written by hand.
-/

namespace LoxLang

open Run

/-! ## Other lines -/

/-- Tokens that differ in their lines only are alike. -/
lemma Token.SameWord.alike {t u : Token} (h : t.SameWord u) : t.Alike u where
  kind_eq := h.kind.symm
  constant_eq := by
    unfold constant? literal?
    rw [h.kind, h.lexeme]
  lexeme_eq _ := h.lexeme.symm

namespace Grammar

/-- **The same tokens on other lines** are read as the same program on other lines, without faults
if there are none. -/
theorem eq_of_parse_sameWord {q : StmtPhrase .declarations} (hq : q.NearestElse)
    (hf : q.faults false = []) {us : List Token} (hus : List.Forall₂ Token.SameWord q.tokens us)
    {depth : Nat} {program : Slots} {faults : List SyntaxFault}
    (h : parse depth us = .done program faults) :
    faults = [] ∧ Stmt.mapSlots Token.unplaced program = Stmt.mapSlots Token.unplaced q.tree := by
  have halike : List.Forall₂ Token.Alike q.tokens us := hus.imp fun _ _ => Token.SameWord.alike
  obtain ⟨r, rfl, hcopy⟩ := q.exists_of_forall₂ Token.carried_alike halike
  obtain ⟨rfl, rfl⟩ := eq_of_parse_tokens (hcopy.nearestElse hq) h
  exact ⟨SyntaxFault.eq_nil_of_causes (by rw [hcopy.causes_eq, hf]; rfl), hcopy.tree_eq⟩

end Grammar

/-- **Programs that differ in their lines run alike**: their runs leave the same machine and end in
the same way but for these lines, and print the same. -/
theorem Machine.interpret_of_unplaced_eq {program other : Slots}
    (h : Stmt.mapSlots Token.unplaced other = Stmt.mapSlots Token.unplaced program)
    (limits : Limits) (m : Machine) :
    (m.interpret limits other).1.output = (m.interpret limits program).1.output ∧
      (m.interpret limits other).1.onLines (fun _ => 0) =
        (m.interpret limits program).1.onLines (fun _ => 0) ∧
      (m.interpret limits other).2.onLine (fun _ => 0) =
        (m.interpret limits program).2.onLine (fun _ => 0) := by
  have hempty : ∀ n : Machine, n.behind #[] = n := fun n => by simp [behind]
  have hother := interpret_onLines_behind limits (fun _ => 0) #[] other m
  have hprogram := interpret_onLines_behind limits (fun _ => 0) #[] program m
  have hlines : Stmt.mapSlots (Token.onLine fun _ => 0) other =
      Stmt.mapSlots (Token.onLine fun _ => 0) program := h
  rw [hlines, hprogram] at hother
  simp only [hempty] at hother
  obtain ⟨hmachine, hending⟩ := Prod.mk.inj hother
  exact ⟨(congrArg Machine.output hmachine).symm, hmachine.symm, hending.symm⟩

/-! ## The rounds of a loop -/

/-- What a loop does in one round: the body, and the step behind it. -/
def Stmt.round (step : Option Expr) (body : Stmt) : Stmt :=
  match step with
  | some step => .block [some body, some (.expression step)]
  | none => body

section Rounds

variable (rounds depth : Nat) (scope : ScopeId)

/-- **All rounds of a `for` share one variable.** It is declared once, in a scope that is made once,
and the condition and every round are evaluated in this scope. -/
theorem execute_forLoop_declared (name : Token) (initial : Option Expr)
    (condition step : Option Expr) (body : Stmt) :
    execute rounds (depth + 2) scope (.forLoop (some (.var name initial)) condition step body) = (do
      let shared ← openScope scope
      let value ← initial.elim (pure .nil) (evaluate rounds depth shared)
      declare name shared value
      iterate (evaluate rounds depth shared (condition.getD (.literal (.bool true))))
        (execute rounds depth shared (Stmt.round step body)) rounds) := by
  have htree : Stmt.forLoop (some (.var name initial)) condition step body =
      .block [some (.var name initial),
        some (.loop (condition.getD (.literal (.bool true))) (Stmt.round step body))] := by
    cases step <;> rfl
  have hdeclared : ∀ shared, execute rounds (depth + 1) shared (.var name initial) = (do
      let value ← initial.elim (pure .nil) (evaluate rounds depth shared)
      declare name shared value
      return .normal) := by
    intro shared
    cases initial <;> rfl
  rw [htree]
  funext m
  rw [execute, bind_apply, bind_apply, openScope_apply]
  dsimp only
  rw [Run.sequence, bind_apply, hdeclared, bind_apply, bind_apply]
  cases initial.elim (pure .nil) (evaluate rounds depth m.store.next)
      { m with store := m.store.child scope } with
  | error => rfl
  | ok value n =>
    simp only [bind_apply, declare_apply]
    exact congrFun (Run.sequence_singleton _ _) _

variable {rounds depth scope}

/-- A return in the body of a loop ends the round in front of the step. -/
lemma execute_round_of_returned {step : Expr} {body : Stmt} {m n : Machine} {value : Value}
    {keyword : Token}
    (h : execute rounds depth m.store.next body { m with store := m.store.child scope } =
      .ok (.returned value keyword) n) :
    execute rounds (depth + 1) scope (Stmt.round (some step) body) m =
      .ok (.returned value keyword) n := by
  simp only [Stmt.round, execute, bind_apply, openScope_apply, Run.sequence, h]
  rfl

/-- A round that ends with a return ends the loop. -/
lemma iterate_of_returned {condition : Run Value} {round : Run Completion} {m m' n : Machine}
    {test value : Value} {keyword : Token} (hcondition : condition m = .ok test m')
    (htest : test.truthy = true) (hround : round m' = .ok (.returned value keyword) n) :
    iterate condition round (rounds + 1) m = .ok (.returned value keyword) n := by
  simp only [iterate, bind_apply, hcondition, htest, if_true, hround]
  rfl

end Rounds

/-! ## A `for` is the loop written by hand -/

namespace LoopParts

/-- The rounds of a loop in a scope. -/
def iterate (l : LoopParts) (rounds depth : Nat) (scope : ScopeId) : Nat → Run Completion :=
  Run.iterate
    (evaluate rounds depth scope ((l.condition.map ExprPhrase.tree).getD (.literal (.bool true))))
    (execute rounds depth scope (Stmt.round (l.step.map ExprPhrase.tree) l.body.tree))

/-- **A `for` is exactly the loop written by hand.** In a program that is read without faults every
keyword of a `for` begins a loop. Let the loop that stands there be written by hand in its place,
and let the whole be moved to any lines. That is read without faults as the same tree but for the
lines, and as the very same tree if no other token was moved; so both run alike on every machine. A
variable that the loop declares is one for all rounds. A return in the body is the end of the loop:
the machine is left as the body left it, and the step does not run.

**Proof sketch.** The loop written by hand is derived as the tree of the `for`, and it may take its
place: what follows it is no alternative that it would take. Reading does not look at lines, and
neither does running. -/
theorem for_eq_byHand {depth : Nat} {pre rest : List Token} {t : Token} {program : Slots}
    (ht : t.kind = .forWord) (hread : Grammar.parse depth (pre ++ t :: rest) = .done program []) :
    (∃ (l : LoopParts) (k : ForMarks) (post : List Token),
      t :: rest = (l.asFor k).tokens ++ post ∧ (l.asFor k).NearestElse ∧ (l.asFor k).Ends post) ∧
    ∀ (l : LoopParts) (k : ForMarks) (post : List Token),
      t :: rest = (l.asFor k).tokens ++ post → (l.asFor k).NearestElse → (l.asFor k).Ends post →
      (∀ (m : WhileMarks) (us : List Token),
        List.Forall₂ Token.SameWord (pre ++ (l.byHand m ++ post)) us → ∀ limit,
        (2 * us.length + 4 ≤ limit → Grammar.parse limit us ≠ .tooDeep) ∧
        ∀ other faults, Grammar.parse limit us = .done other faults →
          faults = [] ∧ Stmt.mapSlots Token.unplaced other = Stmt.mapSlots Token.unplaced program ∧
          (us = pre ++ (l.byHand m ++ post) → other = program) ∧
          ∀ limits machine,
            let run := Machine.interpret limits program machine
            let run' := Machine.interpret limits other machine
            run'.1.output = run.1.output ∧
              run'.1.onLines (fun _ => 0) = run.1.onLines (fun _ => 0) ∧
              run'.2.onLine (fun _ => 0) = run.2.onLine (fun _ => 0)) ∧
      (∀ v, l.initial = .declared v → ∀ rounds depth scope,
        execute rounds (depth + 2) scope (l.asFor k).tree = (do
          let shared ← openScope scope
          let value ← (v.initial.map fun (_, e) => e.tree).elim (pure .nil)
            (evaluate rounds depth shared)
          declare v.name.1 shared value
          l.iterate rounds depth shared rounds)) ∧
      (∀ step, l.step = some step → ∀ rounds depth scope left m₀ m₁ m₂ test value keyword,
        evaluate rounds (depth + 1) scope
          ((l.condition.map ExprPhrase.tree).getD (.literal (.bool true))) m₀ = .ok test m₁ →
        test.truthy = true →
        execute rounds depth m₁.store.next l.body.tree { m₁ with store := m₁.store.child scope } =
          .ok (.returned value keyword) m₂ →
        l.iterate rounds (depth + 1) scope (left + 1) m₀ = .ok (.returned value keyword) m₂) := by
  refine ⟨Grammar.exists_for ht hread, fun l k post htokens hnearest hends => ⟨?_, ?_, ?_⟩⟩
  · intro m us hus limit
    rw [htokens] at hread
    obtain ⟨q, hq, hqe, rfl, hqf⟩ := Grammar.exists_replaced k.keyword.2 rfl hnearest hends
      (l.replaces_asWhile k m) hread
    rw [tokens_asWhile] at hq
    refine ⟨Grammar.parse_ne_tooDeep, fun other faults hother => ?_⟩
    obtain ⟨hnone, hlines⟩ := Grammar.eq_of_parse_sameWord hqe hqf (hq ▸ hus) hother
    refine ⟨hnone, hlines, ?_, Machine.interpret_of_unplaced_eq hlines⟩
    rintro rfl
    exact (Grammar.eq_of_parse_tokens hqe (hq ▸ hother)).1.symm
  · intro v hv rounds depth scope
    obtain ⟨initial, condition, step, body⟩ := l
    obtain rfl : initial = .declared v := hv
    exact execute_forLoop_declared rounds depth scope v.name.1 _ _ _ body.tree
  · intro step hstep rounds depth scope left m₀ m₁ m₂ test value keyword htest htruthy hreturned
    refine iterate_of_returned htest htruthy ?_
    rw [hstep]
    exact execute_round_of_returned hreturned

open Grammar in
/-- The parts of `for (var i = nil; nil; true) print nil;`. -/
def nilLoop : LoopParts where
  initial := .declared ⟨word .varWord, ⟨⟨.identifier, "i", 1⟩, rfl⟩,
    some (word .equal, constant (word .nilWord).1 .nil constant?_nilWord), word .semicolon⟩
  condition := some (constant (word .nilWord).1 .nil constant?_nilWord)
  step := some (constant (word .trueWord).1 (.bool true) constant?_trueWord)
  body := .printing (word .printWord) (constant (word .nilWord).1 .nil constant?_nilWord)
    (word .semicolon)

open Grammar in
/-- In `if (true) for (var i = nil; nil; true) print nil; else print true;` the loop may be written
by hand, with everything on line 7. -/
theorem for_eq_byHand_nilLoop :
    let k : ForMarks := ⟨word .forWord, word .leftParen, word .semicolon, word .rightParen⟩
    let m : WhileMarks := ⟨word .leftBrace, word .whileWord, word .leftParen, word .trueWord,
      word .rightParen, word .leftBrace, word .semicolon, word .rightBrace, word .rightBrace⟩
    let pre := [(word .ifWord).1, (word .leftParen).1, (word .trueWord).1, (word .rightParen).1]
    let post := [(word .elseWord).1, (word .printWord).1, (word .trueWord).1, (word .semicolon).1]
    ∃ program other,
      parse 9 (pre ++ ((nilLoop.asFor k).tokens ++ post)) = .done program [] ∧
      parse 70 ((pre ++ (nilLoop.byHand m ++ post)).map (Token.onLine fun _ => 7)) =
        .done other [] ∧
      Stmt.mapSlots Token.unplaced other = Stmt.mapSlots Token.unplaced program := by
  intro k m pre post
  let hand := pre ++ (nilLoop.byHand m ++ post)
  have hread : parse 9 (pre ++ ((nilLoop.asFor k).tokens ++ post)) =
      .done [some (.branch (.literal (.bool true)) (nilLoop.asFor k).tree
        (some (.print (.literal (.bool true)))))] [] := by
    with_unfolding_all rfl
  have hends : (nilLoop.asFor k).Ends post := .of_isOpen_eq_false rfl _
  have hlines : List.Forall₂ Token.SameWord hand (hand.map (Token.onLine fun _ => 7)) := by
    rw [List.forall₂_map_right_iff]
    exact List.forall₂_same.2 fun _ _ => ⟨rfl, rfl⟩
  obtain ⟨hloop, -⟩ := (for_eq_byHand (word .forWord).2 hread).2 nilLoop k post rfl trivial hends
  obtain ⟨hdeep, hdone⟩ := hloop m _ hlines 70
  cases h : parse 70 (hand.map (Token.onLine fun _ => 7)) with
  | tooDeep => exact absurd h (hdeep (by decide))
  | done other faults =>
    obtain ⟨rfl, hother, -⟩ := hdone other faults h
    exact ⟨_, other, hread, rfl, hother⟩

end LoopParts

end LoxLang
