import LoxLang.Proofs.Grammar.Progress
import LoxLang.Proofs.Grammar.Relabel

set_option autoImplicit false

/-!
# Programs one after the other

Nothing in a program looks past its end: the only thing that a statement may still want is an
alternative, and no declaration begins with one. So programs without faults can be read one after
the other, and what follows such a program may be anything.

## Main definitions

* `StmtPhrase.append` — declarations with more declarations behind them.
* `Parsed.behind` — what is read behind a program without faults.

## Main results

* `Grammar.parse_append_eq_behind` — later code changes nothing about earlier code.
* `Grammar.parse_append` — programs without faults are read one after the other.
* `Grammar.parse_map` — tokens on other lines are read as the same program on these lines.
-/

namespace LoxLang

namespace StmtPhrase

/-- Declarations with more declarations behind them. -/
def append : StmtPhrase .declarations → StmtPhrase .declarations → StmtPhrase .declarations
  | .nil, q => q
  | .cons d ds, q => .cons d (ds.append q)

section Append

variable (q : StmtPhrase .declarations)

lemma tokens_append : ∀ p : StmtPhrase .declarations,
    (p.append q).tokens = p.tokens ++ q.tokens
  | .nil => by simp [append, tokens]
  | .cons d ds => by simp [append, tokens, ds.tokens_append]

lemma tree_append : ∀ p : StmtPhrase .declarations,
    (p.append q).tree = List.append p.tree q.tree
  | .nil => by simp [append, tree]
  | .cons d ds => by simp [append, tree, ds.tree_append]

lemma faults_append (b : Bool) : ∀ p : StmtPhrase .declarations,
    (p.append q).faults b = p.faults b ++ q.faults b
  | .nil => by simp [append, faults]
  | .cons d ds => by simp [append, faults, ds.faults_append]

lemma height_append : ∀ p : StmtPhrase .declarations,
    (p.append q).height = max p.height q.height
  | .nil => by simp [append, height]
  | .cons d ds => by
    simp only [append, height, ds.height_append]
    omega

lemma nearestElse_append (hq : q.NearestElse) : ∀ p : StmtPhrase .declarations,
    p.NearestElse → (p.append q).NearestElse
  | .nil, _ => by
    rw [append]
    exact hq
  | .cons _ ds, hp => by
    rw [append]
    exact ⟨hp.1, ds.nearestElse_append hq hp.2⟩

end Append

end StmtPhrase

/-- What is read behind a program in which nothing is at fault. -/
def Parsed.behind (program : Slots) : Parsed Slots → Parsed Slots
  | .done more faults => .done (program ++ more) faults
  | .tooDeep => .tooDeep

namespace Grammar

variable {depth : Nat} {ts us : List Token} {program more : Slots}

/-- **Later code never changes how earlier code is read.** A program without faults is read as
before whatever stands behind it, as long as that does not begin with an alternative; and what
stands behind it is read as if it stood alone, with the same faults and with the same need for
depth.

**Proof sketch.** The program is read from a phrase, and the parser of declarations reads a phrase
one declaration at a time, whatever follows. Behind it the same parser goes on with the rest, and no
failure leaves it. -/
theorem parse_append_eq_behind (h : parse depth ts = .done program [])
    (hnext : ∀ t ∈ us.head?, t.kind ≠ .elseWord) :
    parse depth (ts ++ us) = (parse depth us).behind program := by
  obtain ⟨p, rfl, rfl, hf, hh, he⟩ := exists_phrase_of_parse h SyntaxFault.quiet_nil
  have hread := p.isRead hh he false (fun _ => false) us hnext fun _ _ => rfl
  rw [hf, Reply.after_nil, Parser.run_bind] at hread
  unfold parse
  rw [hread]
  rcases Parser.run_rows_all (run_declarationAt_ne_failed depth false) us with
    hrest | ⟨more, faults, hrest⟩
  · rw [hrest]
    rfl
  · rw [hrest]
    simp [Parsed.behind]

/-- The derivation of `if (true) print nil;`, which an alternative could follow. -/
def openBranch : StmtPhrase .declarations :=
  .cons (.statement (.ifThen (word .ifWord) (word .leftParen)
    (constant (word .trueWord).1 (.bool true) constant?_trueWord) (word .rightParen)
    (.printing (word .printWord) (constant (word .nilWord).1 .nil constant?_nilWord)
      (word .semicolon)))) .nil

/-- Behind `if (true) print nil;`, the tokens `) fun (` are at fault as they are alone. -/
theorem parse_append_strayTokens :
    parse 6 openBranch.tokens = .done openBranch.tree [] ∧
      (∀ t ∈ Reader.strayTokens.head?, t.kind ≠ .elseWord) ∧
      parse 6 (openBranch.tokens ++ Reader.strayTokens) = .done (openBranch.tree ++ [none, none])
        [⟨.expected .expression, some ⟨.rightParen, ")", 1⟩⟩,
          ⟨.expected .functionName, some ⟨.leftParen, "(", 1⟩⟩] := by
  have hopen : parse 6 openBranch.tokens = .done openBranch.tree [] :=
    parse_eq_done openBranch ⟨trivial, trivial⟩ (by decide)
  have hnext : ∀ t ∈ Reader.strayTokens.head?, t.kind ≠ .elseWord := by decide
  have hstray : parse 6 Reader.strayTokens = .done [none, none]
      [⟨.expected .expression, some ⟨.rightParen, ")", 1⟩⟩,
        ⟨.expected .functionName, some ⟨.leftParen, "(", 1⟩⟩] := by
    with_unfolding_all rfl
  refine ⟨hopen, hnext, ?_⟩
  rw [parse_append_eq_behind hopen hnext, hstray]
  rfl

/-- **Programs without faults are read one after the other.**

**Proof sketch.** Both are read from phrases with nearest alternatives. One behind the other they
are such a phrase again, which nests no deeper. -/
theorem parse_append (h : parse depth ts = .done program [])
    (h' : parse depth us = .done more []) :
    parse depth (ts ++ us) = .done (program ++ more) [] := by
  obtain ⟨p, rfl, rfl, hpf, hph, hpe⟩ := exists_phrase_of_parse h SyntaxFault.quiet_nil
  obtain ⟨q, rfl, rfl, hqf, hqh, hqe⟩ := exists_phrase_of_parse h' SyntaxFault.quiet_nil
  have hheight : (p.append q).height ≤ depth := by
    rw [StmtPhrase.height_append]
    omega
  have hread := parse_eq_done (p.append q) (StmtPhrase.nearestElse_append q hqe p hpe) hheight
  rwa [StmtPhrase.tokens_append, StmtPhrase.tree_append, StmtPhrase.faults_append, hpf,
    hqf] at hread

/-- **Changed tokens are read as the changed program**, if they keep their kinds and what they are
as literals. -/
theorem parse_map {f : Token → Token} (hk : ∀ t, (f t).kind = t.kind)
    (hc : ∀ t, (f t).constant? = t.constant?) (h : parse depth ts = .done program []) :
    parse depth (ts.map f) = .done (Stmt.mapSlots f program) [] := by
  obtain ⟨p, rfl, rfl, hf, hh, he⟩ := exists_phrase_of_parse h SyntaxFault.quiet_nil
  have hcarried : Token.Carried (fun t u => u = f t) f id := by
    refine ⟨?_, ?_, ?_⟩
    · rintro t u rfl
      exact (hk t).symm
    · rintro t u rfl
      exact (hc t).symm
    · rintro t u rfl -
      rfl
  have hrelated : List.Forall₂ (fun t u => u = f t) p.tokens (p.tokens.map f) := by
    rw [List.forall₂_map_right_iff]
    exact List.forall₂_same.2 fun _ _ => rfl
  obtain ⟨q, hq, hcopy⟩ := p.exists_of_forall₂ hcarried hrelated
  have hheight : q.height ≤ depth := hcopy.height_eq ▸ hh
  have hread := parse_eq_done q (hcopy.nearestElse he) hheight
  have htree : q.tree = Stmt.mapSlots f p.tree := by
    have := hcopy.tree_eq
    simpa [StmtSymbol.mapTokens, Stmt.mapSlots_id] using this
  have hfaults : q.faults false = [] :=
    SyntaxFault.eq_nil_of_causes (by rw [hcopy.causes_eq, hf]; rfl)
  rwa [hq, htree, hfaults] at hread

end Grammar

end LoxLang
