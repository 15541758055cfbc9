import LoxLang.Proofs.Grammar.FirstFailure
import LoxLang.Proofs.Grammar.Recovery
import LoxLang.Proofs.Grammar.Slips

set_option autoImplicit false

/-!
# The first failure comes as early as it can

A reader fails for the first time at the first token with which its tokens are no longer the
beginning of a text of the grammar. All before it begins a text, and no text begins with it as well;
at the end, what was read begins a text but is none.

## Main definitions

* `Grammar.Begins` — tokens that some text of the grammar begins with.
* `Grammar.BreaksAt` — where some tokens stop to begin a text.

## Main results

* `Grammar.quiet_of_derives` — reading a text notes no failure.
* `Reader.firstFailure_eq` — the first failure is where a reader fails that does so for good.
* `Reader.not_derives_of_failed` — no text goes on with a token at which such a reader fails.
* `Reader.first_failure_earliest` — the first failure comes as early as it can.
-/

namespace LoxLang

open SyntaxFault (Quiet)

/-! ## The mark for the end -/

/-- The mark for the end is not within a statement. -/
lemma ne_endOfSource_of_isInner {us : List Token} (h : ∀ u ∈ us, u.kind.isInner = true) :
    ∀ t ∈ us, t.kind ≠ .endOfSource := by
  intro t ht hk
  simpa [hk, Token.Kind.isInner] using h t ht

/-- The mark for the end is no part of a text of the grammar. -/
lemma StmtPhrase.ne_endOfSource {s : StmtSymbol} (p : StmtPhrase s) :
    ∀ t ∈ p.tokens, t.kind ≠ .endOfSource := by
  induction p with
  | evaluation s => exact ne_endOfSource_of_isInner s.isInner
  | declared v => exact ne_endOfSource_of_isInner v.isInner
  | printing _ value =>
    have := ne_endOfSource_of_isInner value.isInner
    simp_all [tokens, or_imp, Terminal.kind_eq]
  | returning _ value =>
    have := ne_endOfSource_of_isInner (ExprPhrase.isInner_elim value)
    simp_all [tokens, or_imp, Terminal.kind_eq]
  | ifThen _ _ condition | ifElse _ _ condition | whileLoop _ _ condition =>
    have := ne_endOfSource_of_isInner condition.isInner
    simp_all [tokens, or_imp, Terminal.kind_eq]
  | forLoop _ _ initial condition _ step =>
    have := ne_endOfSource_of_isInner initial.isInner
    have := ne_endOfSource_of_isInner (ExprPhrase.isInner_elim condition)
    have := ne_endOfSource_of_isInner (ExprPhrase.isInner_elim step)
    simp_all [tokens, or_imp, Terminal.kind_eq]
  | function _ _ _ parameters =>
    have : ∀ t ∈ parameters.elim [] NamesPhrase.tokens, t.kind ≠ .endOfSource := by
      cases parameters with
      | none => simp
      | some parameters => exact ne_endOfSource_of_isInner parameters.isInner
    simp_all [tokens, or_imp, Terminal.kind_eq]
  | block | statement | nil | cons => simp_all [tokens, or_imp, Terminal.kind_eq]

/-! ## Texts of the grammar -/

namespace Grammar

/-- Some text of the grammar begins with these tokens. -/
def Begins (tokens : List Token) : Prop := ∃ more, StmtSymbol.Derives .declarations (tokens ++ more)

/-- Some tokens stop to begin a text at a place: those before it begin one, and with the token there
they do not. If that is the end, they begin a text but are none. -/
structure BreaksAt (tokens : List Token) (k : Nat) : Prop where
  within : k ≤ tokens.length
  begins : Begins (tokens.take k)
  breaks : k < tokens.length → ¬ Begins (tokens.take (k + 1))
  ends : k = tokens.length → ¬ StmtSymbol.Derives .declarations tokens

/-- What is at fault about a site is no failure. -/
lemma quiet_allFaults (sites : List Site) : Quiet (Site.allFaults sites) := by
  induction sites with
  | nil => exact SyntaxFault.quiet_nil
  | cons site sites ih =>
    rw [Site.allFaults_cons, SyntaxFault.quiet_append]
    refine ⟨?_, ih⟩
    cases site with
    | assignment target equals => by_cases h : target.IsBare <;> simp [Site.faults, h, Quiet]
    | arguments items =>
      intro f hf
      obtain ⟨e, -, rfl⟩ := List.mem_map.1 hf
      simp
    | parameters names =>
      intro f hf
      obtain ⟨name, -, rfl⟩ := List.mem_map.1 hf
      simp
    | returned keyword inFunction => cases inFunction <;> simp [Site.faults, Quiet]

/-- Reading a text of the grammar notes no failure. -/
lemma quiet_of_derives {depth : Nat} {tokens : List Token} {program : Slots}
    {faults : List SyntaxFault} (h : StmtSymbol.Derives .declarations tokens)
    (hparse : parse depth tokens = .done program faults) : Quiet faults := by
  obtain ⟨p, rfl⟩ := h
  obtain ⟨q, hq, hqe, -⟩ := p.exists_nearestElse
  obtain ⟨-, rfl⟩ := eq_of_parse_tokens hqe (hq ▸ hparse)
  intro f hf
  exact quiet_allFaults _ f ((q.faults_perm false).mem_iff.1 hf)

end Grammar

namespace Reader

variable {tokens : List Token} {last : Token} {depth : Nat} {slots : Slots} {r : Reader}

section

variable (hlast : last.kind = .endOfSource) (htokens : ∀ t ∈ tokens, t.kind ≠ .endOfSource)

include hlast htokens in
/-- **The first failure** is where a reader fails that does so for good, if it does. Then nothing
but what that one notes comes before it. -/
theorem firstFailure_eq (h : program depth (start tokens last) = .ok slots r) :
    (Grammar.firmProgram depth).run false tokens = .ok slots [] r.faults ∧ r.firstFailure = none ∨
      ∃ before after noted more, tokens = before ++ after ∧
        (Grammar.firmProgram depth).run false tokens = .failed after noted ∧
          r.firstFailure = some before.length ∧ r.faults = noted ++ more := by
  have htracks := tracks_program depth (start tokens last)
  have hanswers := follows_firmProgram depth _ _ (start_stands hlast htokens)
  have hplace := (completes_program hlast htokens depth).2 slots r h
  change Answers _ _ (Parser.run _ false tokens) at hanswers
  rw [h] at htracks
  generalize firmProgram depth (start tokens last) = firm at htracks hanswers
  generalize (Grammar.firmProgram depth).run false tokens = reply at hanswers ⊢
  cases htracks with
  | same hon =>
    cases hanswers with
    | @ok _ _ c noted hreached =>
      left
      have hahead : c.ahead = [] := by
        have hlength := hreached.stands.length_eq
        have hindex := hreached.stands.place_eq
        rw [hreached.tokens_eq] at hlength
        refine List.eq_nil_of_length_eq_zero ?_
        simp only [start, List.length_append, List.length_singleton] at hlength
        omega
      obtain ⟨new, hnew, hfirst⟩ := hon.visits
      have hfaults : r.faults = noted := hreached.faults_eq
      refine ⟨by rw [hahead, hfaults], ?_⟩
      rw [firstFailure, show r.visits = new from hnew, hfirst]
  | @beyond _ failed hon hfaults =>
    cases hanswers with
    | @failed _ c noted hreached =>
      right
      obtain ⟨more, hmore⟩ := hfaults
      obtain ⟨new, hnew, hfirst⟩ := hon.visits
      have hnoted : failed.faults = noted := hreached.faults_eq
      have htokens_eq : tokens ++ [last] = c.passed.reverse ++ c.ahead ++ [c.last] := by
        rw [← hreached.stands.tokens_eq, hreached.tokens_eq]
        rfl
      refine ⟨c.passed.reverse, c.ahead, noted, more, List.append_inj_left' htokens_eq rfl, rfl, ?_,
        by rw [← hnoted]; exact hmore.symm⟩
      rw [firstFailure, show r.visits = new from hnew, hfirst, hreached.stands.place_eq,
        List.length_reverse, Cursor.index]

include hlast in
/-- **No text goes on with a token at which a reader fails for good.** Other tokens behind it make
no difference to that, nor does more depth.

**Proof sketch.** With as much depth as other tokens need, the reader that goes on notes the same
failure there. But in a text none is noted. -/
theorem not_derives_of_failed {before after : List Token} {t : Token}
    {noted : List SyntaxFault} (other : List Token)
    (h : (Grammar.firmProgram depth).run false
      (before ++ t :: after) = .failed (t :: after) noted) :
    ¬ StmtSymbol.Derives .declarations (before ++ t :: other) := by
  intro hderives
  obtain ⟨p, hp⟩ := id hderives
  have hne : ∀ u ∈ before ++ t :: other, u.kind ≠ .endOfSource := hp ▸ p.ne_endOfSource
  obtain ⟨us, hus, -, ⟨quiet, what, -, hloud⟩, hsame⟩ :=
    ((Grammar.keeps_firmProgram depth).everywhere false _).failed h
  obtain rfl : before = us := List.append_cancel_right hus
  -- enough depth for the other tokens
  let more := max depth (2 * (before ++ t :: other).length + 4)
  have hfailed : (Grammar.firmProgram more).run false
      (before ++ t :: other) = .failed (t :: other) noted := by
    rcases Grammar.below_firmProgram (Nat.le_max_left depth _ : depth ≤ more) false
      (before ++ t :: other) with hr | hr
    · rw [hsame (t :: other) rfl] at hr
      contradiction
    · rw [← hr, hsame (t :: other) rfl]
  obtain ⟨hcompletes, -⟩ := completes_program hlast hne more
  obtain ⟨slots, r, hprogram⟩ := hcompletes.exists_eq_ok
    (Grammar.parse_ne_tooDeep (Nat.le_max_right depth _ : _ ≤ more))
  rw [hprogram] at hcompletes
  have hquiet := Grammar.quiet_of_derives hderives hcompletes.eq_done
  rcases firstFailure_eq hlast hne hprogram with ⟨hok, -⟩ | ⟨_, _, _, _, -, hrun, -, hmore⟩
  · rw [hfailed] at hok
    contradiction
  · rw [hfailed] at hrun
    obtain ⟨rfl, rfl⟩ := Reply.failed.inj hrun
    simp [hmore, hloud] at hquiet

include hlast htokens in
/-- **The first failure comes as early as it can.** Reading a program fails nowhere exactly if its
tokens are a text of the grammar. Else it fails for the first time where they stop to begin one, at
the token there or at the end, and that is the first failure that is noted. With as much depth as
the tokens may need, reading ends.

**Proof sketch.** Up to the first failure a reader does what one does that fails for good. What that
one took begins a text, and no text goes on with the token at which it failed. -/
theorem first_failure_earliest (depth : Nat) :
    (2 * tokens.length + 4 ≤ depth → ∃ slots r, program depth (start tokens last) = .ok slots r) ∧
    ∀ slots r, program depth (start tokens last) = .ok slots r →
      Grammar.parse depth tokens = .done slots r.faults ∧
      (r.firstFailure = none ↔ StmtSymbol.Derives .declarations tokens) ∧
      (r.firstFailure = none → Quiet r.faults) ∧
      ∀ k, r.firstFailure = some k → Grammar.BreaksAt tokens k ∧
        ∃ noted what more, Quiet noted ∧
          r.faults = noted ++ ⟨.expected what, tokens[k]?⟩ :: more := by
  obtain ⟨hcompletes, -⟩ := completes_program hlast htokens depth
  refine ⟨fun hdepth => hcompletes.exists_eq_ok (Grammar.parse_ne_tooDeep hdepth),
    fun slots r h => ?_⟩
  have hparse : Grammar.parse depth tokens = .done slots r.faults := (h ▸ hcompletes).eq_done
  have hkeeps := (Grammar.keeps_firmProgram depth).everywhere false tokens
  rcases firstFailure_eq hlast htokens h with
    ⟨hok, hfirst⟩ | ⟨before, after, faults, more, hsplit, hfailed, hfirst, hmore⟩
  · obtain ⟨us, hus, hderives, hquiet, -⟩ := hkeeps.ok hok
    rw [List.append_nil] at hus
    subst hus
    exact ⟨hparse, iff_of_true hfirst hderives, fun _ => hquiet, by simp [hfirst]⟩
  · obtain ⟨us, hus, ⟨-, text, hbegins⟩, ⟨noted, what, hquiet, hloud⟩, -⟩ := hkeeps.failed hfailed
    obtain rfl : before = us := List.append_cancel_right (hsplit.symm.trans hus)
    have hnone : ¬ StmtSymbol.Derives .declarations tokens := by
      intro hderives
      have hquiet := Grammar.quiet_of_derives hderives hparse
      simp [hmore, hloud] at hquiet
    refine ⟨hparse, iff_of_false (by simp [hfirst]) hnone, by simp [hfirst], fun k hk => ?_⟩
    obtain rfl : before.length = k := Option.some.inj (hfirst.symm.trans hk)
    subst hsplit
    refine ⟨⟨by simp, ⟨text, by simpa using hbegins⟩, ?_, fun _ => hnone⟩,
      noted, what, more, hquiet, ?_⟩
    · intro hlt
      cases after with
      | nil => simp at hlt
      | cons t after =>
        rintro ⟨other, hother⟩
        refine not_derives_of_failed hlast other hfailed ?_
        rw [List.take_length_add_append] at hother
        simpa using hother
    · rw [hmore, hloud]
      cases after <;> simp

end

/-- In `print nil print nil;` the first failure is at the second `print`: no program begins with
`print nil print`. -/
theorem first_failure_earliest_twoPrints : ∃ slots r,
    program 14 (start twoPrints (Token.atEnd 1)) = .ok slots r ∧ r.firstFailure = some 2 ∧
      Grammar.Begins (twoPrints.take 2) ∧ ¬ Grammar.Begins (twoPrints.take 3) := by
  obtain ⟨hends, hfirst⟩ := first_failure_earliest (rfl : (Token.atEnd 1).kind = .endOfSource)
    (by decide : ∀ t ∈ twoPrints, t.kind ≠ .endOfSource) 14
  obtain ⟨slots, r, hr⟩ := hends (by decide)
  obtain ⟨-, -, -, hbreaks⟩ := hfirst slots r hr
  have hplace : r.firstFailure = some 2 := by
    have : program 14 (start twoPrints (Token.atEnd 1)) = .ok _ _ := rfl
    rw [this] at hr
    cases hr
    rfl
  obtain ⟨hbreak, -⟩ := hbreaks 2 hplace
  exact ⟨slots, r, hr, hplace, hbreak.begins, hbreak.breaks (by decide)⟩

end Reader

end LoxLang
