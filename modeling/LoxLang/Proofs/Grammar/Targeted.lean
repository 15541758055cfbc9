import LoxLang.Proofs.Grammar.Relabel

set_option autoImplicit false

/-!
# Phrases without improper assignments

An assignment to anything but a name is read as its left side, so that a phrase may lose it and keep
its tree.

## Main definitions

* `ExprPhrase.Targeted` — every assignment of a phrase is to a name.

## Main results

* `ExprPhrase.exists_targeted` — improper assignments can be dropped from a phrase.
-/

namespace LoxLang

namespace ExprPhrase

/-- Every assignment is to what is read as a name. -/
def Targeted : {s : ExprSymbol} → ExprPhrase s → Prop
  | _, .literal _ _ _ => True
  | _, .named _ => True
  | _, .grouping _ inner _ => inner.Targeted
  | _, .ofPrimary p => p.Targeted
  | _, .callEmpty callee _ _ => callee.Targeted
  | _, .call callee _ arguments _ => callee.Targeted ∧ arguments.Targeted
  | _, .single e => e.Targeted
  | _, .further init _ next => init.Targeted ∧ next.Targeted
  | _, .unary _ _ operand => operand.Targeted
  | _, .ofCall c => c.Targeted
  | _, .ofUnary u => u.Targeted
  | _, .looser _ _ p => p.Targeted
  | _, .join _ _ left _ _ right => left.Targeted ∧ right.Targeted
  | _, .plain p => p.Targeted
  | _, .assign target _ value => (∃ name, target.tree.name? = some name) ∧ value.Targeted

/-- **Improper assignments can be dropped** from a phrase: it keeps its tree, does not nest deeper,
and loses tokens only.

**Proof sketch.** Induction on the phrase. An improper assignment is read as its left side, and so
that side may take its place. -/
theorem exists_targeted {s : ExprSymbol} (p : ExprPhrase s) :
    ∃ q : ExprPhrase s, q.tree = p.tree ∧ q.Targeted ∧ q.height ≤ p.height ∧
      q.tokens.Sublist p.tokens := by
  induction p with
  | literal token value h => exact ⟨.literal token value h, rfl, trivial, Nat.le_refl _, .refl _⟩
  | named name => exact ⟨.named name, rfl, trivial, Nat.le_refl _, .refl _⟩
  | grouping opening inner closing ih =>
    obtain ⟨q, hq, ht, hh, hs⟩ := ih
    exact ⟨.grouping opening q closing, congrArg Expr.grouping hq, ht, hh, (hs.append_right _).cons_cons _⟩
  | ofPrimary p ih =>
    obtain ⟨q, hq, ht, hh, hs⟩ := ih
    exact ⟨.ofPrimary q, hq, ht, hh, hs⟩
  | callEmpty callee opening closing ih =>
    obtain ⟨q, hq, ht, hh, hs⟩ := ih
    exact ⟨.callEmpty q opening closing, congrArg (Expr.call · closing.1 []) hq, ht, hh,
      hs.append_right _⟩
  | call callee opening arguments closing ihc iha =>
    obtain ⟨q, hq, ht, hh, hs⟩ := ihc
    obtain ⟨r, hr, ht', hh', hs'⟩ := iha
    refine ⟨.call q opening r closing, by simp [tree, hq, hr], ⟨ht, ht'⟩, ?_,
      hs.append ((hs'.append_right _).cons_cons _)⟩
    simp only [height]
    omega
  | single e ih =>
    obtain ⟨q, hq, ht, hh, hs⟩ := ih
    exact ⟨.single q, congrArg (fun e => [e]) hq, ht, hh, hs⟩
  | further init comma next ihi ihn =>
    obtain ⟨q, hq, ht, hh, hs⟩ := ihi
    obtain ⟨r, hr, ht', hh', hs'⟩ := ihn
    refine ⟨.further q comma r, by simp [tree, hq, hr], ⟨ht, ht'⟩, ?_, hs.append (hs'.cons_cons _)⟩
    simp only [height]
    omega
  | unary operator h operand ih =>
    obtain ⟨q, hq, ht, hh, hs⟩ := ih
    exact ⟨.unary operator h q, congrArg (Expr.unary operator) hq, ht, Nat.succ_le_succ hh,
      hs.cons_cons _⟩
  | ofCall c ih =>
    obtain ⟨q, hq, ht, hh, hs⟩ := ih
    exact ⟨.ofCall q, hq, ht, Nat.succ_le_succ hh, hs⟩
  | ofUnary u ih =>
    obtain ⟨q, hq, ht, hh, hs⟩ := ih
    exact ⟨.ofUnary q, hq, ht, hh, hs⟩
  | looser level levels p ih =>
    obtain ⟨q, hq, ht, hh, hs⟩ := ih
    exact ⟨.looser level levels q, hq, ht, hh, hs⟩
  | join level levels left operator h right ihl ihr =>
    obtain ⟨q, hq, ht, hh, hs⟩ := ihl
    obtain ⟨r, hr, ht', hh', hs'⟩ := ihr
    refine ⟨.join level levels q operator h r, by simp [tree, hq, hr], ⟨ht, ht'⟩, ?_,
      hs.append (hs'.cons_cons _)⟩
    simp only [height]
    omega
  | plain p ih =>
    obtain ⟨q, hq, ht, hh, hs⟩ := ih
    exact ⟨.plain q, hq, ht, Nat.succ_le_succ hh, hs⟩
  | assign target equals value iht ihv =>
    obtain ⟨q, hq, ht, hh, hs⟩ := iht
    obtain ⟨r, hr, ht', hh', hs'⟩ := ihv
    cases hname : target.tree.name? with
    | some name =>
      refine ⟨.assign q equals r, by simp [tree, hq, hr], ⟨⟨name, by rw [hq, hname]⟩, ht'⟩, ?_,
        hs.append (hs'.cons_cons _)⟩
      simp only [height]
      omega
    | none =>
      have hassigned : target.tree.assigned value.tree = target.tree := by
        revert hname
        cases target.tree <;> simp [Expr.name?, Expr.assigned]
      refine ⟨.plain q, by simp [tree, hq, hassigned], ht, ?_,
        hs.trans (List.sublist_append_left _ _)⟩
      simp only [height]
      omega

/-- All that is noted about a phrase without improper assignments is that there are too many
arguments. -/
lemma cause_of_targeted {s : ExprSymbol} (p : ExprPhrase s) (h : p.Targeted) :
    ∀ cause ∈ SyntaxFault.causes p.faults, cause = .tooManyArguments := by
  induction p with
  | literal | named => simp [faults]
  | grouping _ _ _ ih | ofPrimary _ ih | callEmpty _ _ _ ih | single _ ih | unary _ _ _ ih
  | ofCall _ ih | ofUnary _ ih | looser _ _ _ ih | plain _ ih => exact ih h
  | call _ _ _ _ ihc iha =>
    simp only [faults, SyntaxFault.causes_append, List.mem_append]
    rintro cause (hc | hc)
    · exact ihc h.1 cause hc
    · exact iha h.2 cause hc
  | further init comma next ihi ihn =>
    simp only [faults, SyntaxFault.causes_append, List.mem_append]
    rintro cause (hc | hc | hc)
    · exact ihi h.1 cause hc
    · unfold surplusFault at hc
      split at hc <;> simp_all [SyntaxFault.causes]
    · exact ihn h.2 cause hc
  | join _ _ _ _ _ _ ihl ihr =>
    simp only [faults, SyntaxFault.causes_append, List.mem_append]
    rintro cause (hc | hc)
    · exact ihl h.1 cause hc
    · exact ihr h.2 cause hc
  | assign target equals value iht ihv =>
    have htarget : targetFaults equals.1 target.tree = [] :=
      (targetFaults_eq_nil_iff _ _).2 h.1
    obtain ⟨name, hname⟩ := h.1
    have hbare : target.tokens = [name] := ((target.name?_tree_eq_some_iff name).1 hname).1
    simp only [faults, htarget, target.faults_eq_nil_of_singleton hbare, List.nil_append,
      List.append_nil]
    exact ihv h.2

end ExprPhrase

end LoxLang
