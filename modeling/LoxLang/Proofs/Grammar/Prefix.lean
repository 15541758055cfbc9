import LoxLang.Proofs.Grammar.Sentence

set_option autoImplicit false

/-!
# Parsers that fail as early as they can

A parser keeps to a language if what it reads is a text of the language, and if what it took before
a failure is the beginning of one. It looks at the next token and at nothing behind it: on other
tokens that go the same way up to there it does the same. The parsers of the grammar keep to the
texts that its symbols derive.

## Main definitions

* `Parser.KeepsAt`, `Parser.Keeps` — a parser keeps to a language on some tokens, and on all.
* `ExprSymbol.Derives`, `StmtSymbol.Derives` — the texts that a symbol derives.

## Main results

* `Parser.Keeps.bind`, `Parser.Keeps.folding`, `Parser.Keeps.rows` — parsers made from others.
* `Grammar.keeps_expressionAt` — expressions.
* `Grammar.keeps_statementTable`, `Grammar.keeps_declarationTable` — statements and declarations by
  their first token, if the parsers of their parts keep to what these derive.
-/

namespace LoxLang

open SyntaxFault (Quiet)
open Grammar (word)

variable {α β : Type}

/-! ## Keeping to a language -/

/-- Tokens in front of others that begin alike make no difference to this. -/
lemma head?_append_eq {us rest other : List Token} (h : other.head? = rest.head?) :
    (us ++ other).head? = (us ++ rest).head? := by
  cases us with
  | nil => exact h
  | cons => rfl

namespace Parser

/-- A parser keeps to a language on some tokens, where a language tells which texts are read as
which values. A success takes a text of the value, and notes no failure. A failure takes the
beginning of a text, and is the only one, at the next token. Whatever stands behind the next token
makes no difference to either. -/
structure KeepsAt (p : Parser α) (L : α → List Token → Prop) (b : Bool) (ts : List Token) :
    Prop where
  ok : ∀ {v rest faults}, p.run b ts = .ok v rest faults → ∃ us, ts = us ++ rest ∧ L v us ∧
    Quiet faults ∧ ∀ other, other.head? = rest.head? → p.run b (us ++ other) = .ok v other faults
  failed : ∀ {rest faults}, p.run b ts = .failed rest faults → ∃ us, ts = us ++ rest ∧
    (∃ v more, L v (us ++ more)) ∧
    (∃ noted what, Quiet noted ∧ faults = noted ++ [⟨.expected what, rest.head?⟩]) ∧
    ∀ other, other.head? = rest.head? → p.run b (us ++ other) = .failed other faults

/-- A parser keeps to a language, which is not empty. -/
structure Keeps (p : Parser α) (L : α → List Token → Prop) : Prop where
  inhabited : ∃ v us, L v us
  everywhere : ∀ b ts, p.KeepsAt L b ts

section KeepsAt

variable {p : Parser α} {L : α → List Token → Prop} {b : Bool} {ts : List Token}

/-- Parsers in a row keep to what is read by both, on some tokens. -/
lemma KeepsAt.bind {f : α → Parser β} {N : β → List Token → Prop} (hp : p.KeepsAt L b ts)
    (hf : ∀ v us mid noted, ts = us ++ mid → L v us → p.run b ts = .ok v mid noted →
      (f v).KeepsAt (fun w vs => N w (us ++ vs)) b mid)
    (hne : ∀ v us, L v us → ∃ w vs, N w (us ++ vs)) : (p >>= f).KeepsAt N b ts where
  ok := by
    intro w rest faults h
    obtain ⟨v, mid, noted, more, hv, hw, rfl⟩ := run_bind_eq_ok.1 h
    obtain ⟨us, hts, hL, hq, hsame⟩ := hp.ok hv
    obtain ⟨vs, rfl, hN, hq', hsame'⟩ := (hf v us mid noted hts hL hv).ok hw
    refine ⟨us ++ vs, by simp [hts], hN, by simp [hq, hq'], fun other hother => ?_⟩
    rw [List.append_assoc, run_bind_of_ok (hsame _ (head?_append_eq hother)), hsame' other hother,
      Reply.after_ok]
  failed := by
    intro rest faults h
    rcases run_bind_eq_failed.1 h with h | ⟨v, mid, noted, more, hv, hw, rfl⟩
    · obtain ⟨us, hts, ⟨v, more, hL⟩, hfaults, hsame⟩ := hp.failed h
      obtain ⟨w, vs, hN⟩ := hne v _ hL
      refine ⟨us, hts, ⟨w, more ++ vs, by simpa using hN⟩, hfaults, fun other hother => ?_⟩
      rw [run_bind, hsame other hother]
    · obtain ⟨us, hts, hL, hq, hsame⟩ := hp.ok hv
      obtain ⟨vs, rfl, ⟨w, more', hN⟩, ⟨noted', what, hq', rfl⟩, hsame'⟩ :=
        (hf v us mid noted hts hL hv).failed hw
      refine ⟨us ++ vs, by simp [hts], ⟨w, more', by simpa using hN⟩,
        ⟨noted ++ noted', what, by simp [hq, hq'], by simp⟩, fun other hother => ?_⟩
      rw [List.append_assoc, run_bind_of_ok (hsame _ (head?_append_eq hother)), hsame' other hother]
      rfl

/-- On some tokens a parser keeps to a language with more texts. -/
lemma KeepsAt.mono {M : α → List Token → Prop} (hp : p.KeepsAt L b ts)
    (h : ∀ v us, L v us → M v us) : p.KeepsAt M b ts where
  ok hr := by
    obtain ⟨us, hts, hL, hrest⟩ := hp.ok hr
    exact ⟨us, hts, h _ _ hL, hrest⟩
  failed hr := by
    obtain ⟨us, hts, ⟨v, more, hL⟩, hrest⟩ := hp.failed hr
    exact ⟨us, hts, ⟨v, more, h _ _ hL⟩, hrest⟩

/-- A parser that takes some tokens and then does what another one does keeps to the language of the
other one behind them. Whether it does so may depend on the next token. -/
lemma KeepsAt.of_run_eq {q : Parser α} (taken : List Token)
    (hrun : ∀ other, other.head? = ts.head? → p.run b (taken ++ other) = q.run b other)
    (hq : q.KeepsAt (fun v us => L v (taken ++ us)) b ts) : p.KeepsAt L b (taken ++ ts) where
  ok h := by
    rw [hrun ts rfl] at h
    obtain ⟨us, rfl, hL, hquiet, hsame⟩ := hq.ok h
    refine ⟨taken ++ us, by simp, hL, hquiet, fun other hother => ?_⟩
    rw [List.append_assoc, hrun _ (head?_append_eq hother), hsame other hother]
  failed h := by
    rw [hrun ts rfl] at h
    obtain ⟨us, rfl, ⟨v, more, hL⟩, hfaults, hsame⟩ := hq.failed h
    refine ⟨taken ++ us, by simp, ⟨v, more, by simpa using hL⟩, hfaults, fun other hother => ?_⟩
    rw [List.append_assoc, hrun _ (head?_append_eq hother), hsame other hother]

end KeepsAt

namespace Keeps

variable {p : Parser α} {L : α → List Token → Prop}

/-- Parsers in a row keep to what is read by both. -/
lemma bind {f : α → Parser β} {N : β → List Token → Prop} (hp : p.Keeps L)
    (hf : ∀ v us, L v us → (f v).Keeps fun w vs => N w (us ++ vs)) : (p >>= f).Keeps N where
  inhabited := by
    obtain ⟨v, us, hL⟩ := hp.inhabited
    obtain ⟨w, vs, hN⟩ := (hf v us hL).inhabited
    exact ⟨w, us ++ vs, hN⟩
  everywhere b ts := (hp.everywhere b ts).bind
    (fun v us mid _ _ hL _ => (hf v us hL).everywhere b mid) fun v us hL => (hf v us hL).inhabited

/-- A parser of phrases, and what is read behind each of them. -/
lemma bind_text {ι : Type} {q : ι → List Token} {f : α → Parser β} {N : β → List Token → Prop}
    (hp : p.Keeps fun _ us => ∃ i, q i = us)
    (hf : ∀ v i, (f v).Keeps fun w vs => N w (q i ++ vs)) : (p >>= f).Keeps N := by
  refine hp.bind ?_
  rintro v _ ⟨i, rfl⟩
  exact hf v i

/-- A parser keeps to a language with more texts. -/
lemma mono {M : α → List Token → Prop} (hp : p.Keeps L) (h : ∀ v us, L v us → M v us) :
    p.Keeps M where
  inhabited := by
    obtain ⟨v, us, hL⟩ := hp.inhabited
    exact ⟨v, us, h v us hL⟩
  everywhere b ts := (hp.everywhere b ts).mono h

/-- A parser that always succeeds, takes no token and notes at most what is no failure keeps to the
empty text. -/
lemma of_run (v : Bool → Option Token → α) (noted : Option Token → List SyntaxFault)
    (hrun : ∀ b ts, p.run b ts = .ok (v b ts.head?) ts (noted ts.head?))
    (hL : ∀ b next, L (v b next) []) (hq : ∀ next, Quiet (noted next)) : p.Keeps L where
  inhabited := ⟨v false none, [], hL false none⟩
  everywhere b ts := {
    ok := fun {w rest faults} hr => by
      rw [hrun] at hr
      obtain ⟨rfl, rfl, rfl⟩ : v b ts.head? = w ∧ ts = rest ∧ noted ts.head? = faults := by
        simpa using hr
      refine ⟨[], rfl, hL b _, hq _, fun other hother => ?_⟩
      rw [List.nil_append, hrun, hother]
    failed := fun hr => by
      rw [hrun] at hr
      contradiction }

lemma pure {v : α} (h : L v []) : (pure v : Parser α).Keeps L :=
  of_run (fun _ _ => v) (fun _ => []) (fun _ _ => rfl) (fun _ _ => h) fun _ => SyntaxFault.quiet_nil

lemma inFunction {L : Bool → List Token → Prop} (h : ∀ inside, L inside []) :
    Parser.inFunction.Keeps L :=
  of_run (fun inside _ => inside) (fun _ => []) (fun _ _ => rfl) (fun _ _ => h _)
    fun _ => SyntaxFault.quiet_nil

lemma note {cause : SyntaxFault.Cause} (hcause : ∀ what, cause ≠ .expected what) :
    (note cause).Keeps fun _ us => us = [] :=
  of_run (fun _ _ => ()) (fun next => [⟨cause, next⟩]) (fun _ _ => rfl) (fun _ _ => rfl)
    fun _ => by simpa [Quiet] using hcause

lemma noteAt (token : Token) {cause : SyntaxFault.Cause} (hcause : ∀ what, cause ≠ .expected what) :
    (noteAt token cause).Keeps fun _ us => us = [] :=
  of_run (fun _ _ => ()) (fun _ => [⟨cause, some token⟩]) (fun _ _ => rfl) (fun _ _ => rfl)
    fun _ => by simpa [Quiet] using hcause

/-- A parser that fails right away is in front of every text. -/
lemma fail (what : Expected) (h : ∃ v us, L v us) : (fail what : Parser α).Keeps L where
  inhabited := h
  everywhere b ts := {
    ok := fun hr => by contradiction
    failed := fun {rest faults} hr => by
      obtain ⟨rfl, rfl⟩ : ts = rest ∧ [⟨.expected what, ts.head?⟩] = faults := by
        simpa [Parser.fail] using hr
      refine ⟨[], rfl, by simpa using h, ⟨[], what, SyntaxFault.quiet_nil, rfl⟩,
        fun other hother => ?_⟩
      simp [Parser.fail, hother] }

lemma tooDeep (h : ∃ v us, L v us) : (tooDeep : Parser α).Keeps L where
  inhabited := h
  everywhere b ts := ⟨fun hr => by contradiction, fun hr => by contradiction⟩

lemma asFunctionBody (hp : p.Keeps L) : (asFunctionBody p).Keeps L where
  inhabited := hp.inhabited
  everywhere _ ts := ⟨(hp.everywhere true ts).ok, (hp.everywhere true ts).failed⟩

/-! ### The next token -/

/-- What depends on the next token keeps to a language if each of its outcomes does. -/
lemma acceptIf_bind {belongs : Token.Kind → Bool} {f : Option Token → Parser α}
    (hnone : (f none).Keeps L)
    (hsome : ∀ t, belongs t.kind = true → (f (some t)).Keeps fun v us => L v (t :: us)) :
    (acceptIf belongs >>= f).Keeps L where
  inhabited := hnone.inhabited
  everywhere b ts := by
    have hstop (hts : ∀ t ∈ ts.head?, belongs t.kind = false) :
        (acceptIf belongs >>= f).KeepsAt L b ts := by
      refine KeepsAt.of_run_eq [] (fun other hother => ?_) (hnone.everywhere b ts)
      have haccept : (acceptIf belongs).run b other = .ok none other [] := by
        cases other with
        | nil => rfl
        | cons t rest => simp [run_acceptIf_cons, hts t (hother ▸ rfl)]
      rw [List.nil_append, run_bind_of_ok haccept, Reply.after_nil]
    cases ts with
    | nil => exact hstop (by simp)
    | cons t rest =>
      by_cases ht : belongs t.kind = true
      · refine KeepsAt.of_run_eq [t] (fun other _ => ?_) ((hsome t ht).everywhere b rest)
        have haccept : (acceptIf belongs).run b (t :: other) = .ok (some t) other [] := by
          rw [run_acceptIf_cons, if_pos ht]
        rw [List.singleton_append, run_bind_of_ok haccept, Reply.after_nil]
      · exact hstop (by simpa using ht)

/-- What the first token selects keeps to a language if each entry does, and what is left for the
other tokens. -/
lemma select {table : Token.Kind → Option (Token → Parser α)} (hp : p.Keeps L)
    (htable : ∀ t f, table t.kind = some f → (f t).Keeps fun v us => L v (t :: us)) :
    (select table p).Keeps L where
  inhabited := hp.inhabited
  everywhere b ts := by
    have hother (hts : ∀ t ∈ ts.head?, table t.kind = none) :
        (Parser.select table p).KeepsAt L b ts :=
      KeepsAt.of_run_eq [] (fun other hother => run_select_of_none (hother ▸ hts) b)
        (hp.everywhere b ts)
    cases ts with
    | nil => exact hother (by simp)
    | cons t rest =>
      cases hf : table t.kind with
      | none => exact hother (by simpa using hf)
      | some f =>
        exact KeepsAt.of_run_eq [t] (fun other _ => run_select_of_some hf b other)
          ((htable t f hf).everywhere b rest)

/-- A token that is asked for is taken, or it is what every text begins with. -/
lemma expect (kind : Token.Kind) (what : Expected) :
    (expect kind what).Keeps fun _ us => ∃ t : Terminal kind, us = [t.1] where
  inhabited := ⟨(word kind).1, _, word kind, rfl⟩
  everywhere b ts := {
    ok := fun {v rest faults} hr => by
      obtain ⟨rfl, hk, rfl⟩ := run_expect_eq_ok.1 hr
      exact ⟨[v], rfl, ⟨⟨v, hk⟩, rfl⟩, SyntaxFault.quiet_nil,
        fun other _ => run_expect_cons ⟨v, hk⟩ what b other⟩
    failed := fun {rest faults} hr => by
      have hfails (other : List Token) (h : ∀ t ∈ other.head?, t.kind ≠ kind) :
          (Parser.expect kind what).run b other =
            .failed other [⟨.expected what, other.head?⟩] := by
        cases other with
        | nil => rfl
        | cons t other => simp [Parser.expect, h t rfl]
      have hts : ∀ t ∈ ts.head?, t.kind ≠ kind := by
        rintro t ht hk
        obtain ⟨us, rfl⟩ := List.head?_eq_some_iff.1 ht
        rw [run_expect_cons ⟨t, hk⟩] at hr
        contradiction
      rw [hfails ts hts] at hr
      obtain ⟨rfl, rfl⟩ : ts = rest ∧ [⟨.expected what, ts.head?⟩] = faults := by simpa using hr
      refine ⟨[], rfl, ⟨(word kind).1, _, word kind, rfl⟩, ⟨[], what, SyntaxFault.quiet_nil, rfl⟩,
        fun other hother => ?_⟩
      rw [List.nil_append, hfails other (hother ▸ hts), hother] }

/-- A token that is asked for, and what is read behind it. -/
lemma expect_bind {kind : Token.Kind} {what : Expected} {f : Token → Parser α}
    (hf : ∀ v (t : Terminal kind), (f v).Keeps fun w us => L w (t.1 :: us)) :
    (Parser.expect kind what >>= f).Keeps L :=
  (expect kind what).bind fun v _ h => h.elim fun t ht => ht ▸ hf v t

/-! ### Loops -/

/-- **Loops** keep to what every round keeps to, behind the text of the value so far.

**Proof sketch.** Induction on the number of tokens, of which each round takes at least one. -/
lemma folding {enter : Token.Kind → Bool} {step : α → Token → Parser α}
    (hstep : ∀ v us t, L v us → enter t.kind = true →
      (step v t).Keeps fun w vs => L w (us ++ t :: vs)) {v : α} {us : List Token} (h : L v us) :
    (folding enter step v).Keeps fun w vs => L w (us ++ vs) where
  inhabited := ⟨v, [], by simpa using h⟩
  everywhere b ts := by
    induction hn : ts.length using Nat.strongRecOn generalizing v us ts with
    | ind n ih =>
      have hend (hts : ∀ t ∈ ts.head?, enter t.kind = false) :
          (Parser.folding enter step v).KeepsAt (fun w vs => L w (us ++ vs)) b ts :=
        KeepsAt.of_run_eq [] (q := Pure.pure v)
          (fun other hother => run_folding_of_stop v (hother ▸ hts))
          ((pure (by simpa using h)).everywhere b ts)
      cases ts with
      | nil => exact hend (by simp)
      | cons t rest =>
        by_cases ht : enter t.kind = true
        · refine KeepsAt.of_run_eq [t]
            (fun other _ => by rw [List.singleton_append, run_folding_cons, if_pos ht]) ?_
          refine ((hstep v us t h ht).everywhere b rest).bind (fun w vs mid noted hrest hw _ => ?_)
            fun w vs hw => ⟨w, [], by simpa using hw⟩
          have hmid : mid.length < n := by
            simp [hrest] at hn
            omega
          simpa using ih mid.length hmid hw mid rfl
        · exact hend (by simpa using ht)

/-- **Rows** keep to what one more of them in front keeps to.

**Proof sketch.** Induction on the number of tokens, of which each row takes at least one. -/
lemma rows {item : Advancing α} {K : α → List Token → Prop} {J : List Token → Prop}
    (stop : Token.Kind → Bool) (hitem : item.toParser.Keeps K) (hnil : J [])
    (hcons : ∀ v us vs, K v us → J vs → J (us ++ vs)) :
    (rows stop item).Keeps fun _ us => J us where
  inhabited := ⟨[], [], hnil⟩
  everywhere b ts := by
    induction hn : ts.length using Nat.strongRecOn generalizing ts with
    | ind n ih =>
      have hend : (Pure.pure [] : Parser (List α)).KeepsAt (fun _ us => J us) b ts :=
        (pure hnil).everywhere b ts
      cases ts with
      | nil =>
        refine KeepsAt.of_run_eq [] (fun other hother => ?_) hend
        rw [List.head?_eq_none_iff.1 hother]
        exact run_rows_nil _ _ _
      | cons t rest =>
        have hhead {other : List Token} (hother : other.head? = some t) :
            ∃ us, other = t :: us := List.head?_eq_some_iff.1 hother
        by_cases ht : stop t.kind = true
        · refine KeepsAt.of_run_eq [] (fun other hother => ?_) hend
          obtain ⟨us, rfl⟩ := hhead hother
          rw [List.nil_append, run_rows_cons, if_pos ht, run_pure]
        · refine KeepsAt.of_run_eq [] (q := (do
              let value ← item.toParser
              let values ← Parser.rows stop item
              return value :: values)) (fun other hother => ?_) ?_
          · obtain ⟨us, rfl⟩ := hhead hother
            rw [List.nil_append, run_rows_cons, if_neg ht]
          · refine (hitem.everywhere b (t :: rest)).bind (fun v us mid noted _ hv hrun => ?_)
              fun v us hv => ⟨[], [], hcons v us [] hv hnil⟩
            have hshorter := item.advances b t rest
            rw [hrun] at hshorter
            refine ((ih mid.length (hn ▸ hshorter) mid rfl).mono
              fun _ vs hvs => hcons v us vs hv hvs).bind (fun values vs left more _ hvs _ => ?_)
              fun values vs hvs => ⟨v :: values, [], by simpa using hvs⟩
            exact (pure (by simpa using hvs)).everywhere b left

end Keeps

end Parser

/-! ## The texts of the grammar -/

/-- Some tokens are a text that a symbol derives. -/
def ExprSymbol.Derives (s : ExprSymbol) (us : List Token) : Prop :=
  ∃ p : ExprPhrase s, p.tokens = us

/-- Some tokens are a text that a symbol derives. -/
def StmtSymbol.Derives (s : StmtSymbol) (us : List Token) : Prop :=
  ∃ p : StmtPhrase s, p.tokens = us

namespace Grammar

open LoxLang.Parser

section Parts

variable {p : Parser α} {D E : List Token → Prop}

lemma keeps_unlessNext (kind : Token.Kind) (hp : p.Keeps fun _ => D) :
    (unlessNext kind p).Keeps fun _ us => us = [] ∨ D us where
  inhabited := ⟨none, [], .inl rfl⟩
  everywhere b ts := by
    -- the next token alone tells which of the two is done
    refine KeepsAt.of_run_eq [] (q := if (ts.head?.map Token.kind) == some kind then pure none
      else do let value ← p; return some value) (fun other hother => ?_) ?_
    · rw [List.nil_append, unlessNext, run_bind_of_ok (run_peek _ _), Reply.after_nil, hother]
    · split
      · exact (Keeps.pure (.inl rfl)).everywhere b ts
      · exact (hp.bind fun v us h => Keeps.pure (.inr (by simpa using h))).everywhere b ts

lemma keeps_listed {surplus : SyntaxFault.Cause} (hsurplus : ∀ what, surplus ≠ .expected what)
    (hp : p.Keeps fun _ => D) (hsingle : ∀ us, D us → E us)
    (hfurther : ∀ us (t : Terminal .comma) vs, E us → D vs → E (us ++ t.1 :: vs)) :
    (listed p surplus).Keeps fun _ => E := by
  rw [listed_eq]
  refine hp.bind fun v us h => (Keeps.folding (L := fun _ => E) (fun items us t hus ht => ?_)
    (hsingle us h)).bind fun _ vs hvs => Keeps.pure (by simpa using hvs)
  have hkind : t.kind = .comma := by simpa using ht
  have hnext : (do let next ← p; return items.push next : Parser (Array α)).Keeps
      fun _ vs => E (us ++ t :: vs) :=
    hp.bind fun v vs hvs => Keeps.pure (by simpa using hfurther us ⟨t, hkind⟩ vs hus hvs)
  unfold listedStep
  split
  · exact (Keeps.note hsurplus).bind fun _ vs hvs => by simpa [hvs] using hnext
  · exact hnext

end Parts

/-! ### Expressions -/

section Expressions

variable {e u : Parser Expr}

lemma keeps_chain {level : Level} {levels : List Level}
    (hu : u.Keeps fun _ => ExprSymbol.Derives (.operation levels)) :
    (chain level u).Keeps fun _ => ExprSymbol.Derives (.operation (level :: levels)) := by
  refine hu.bind_text fun left p => Keeps.folding
    (L := fun _ => ExprSymbol.Derives (.operation (level :: levels))) ?_
    ⟨.looser level levels p, rfl⟩
  rintro left us operator ⟨p, rfl⟩ ht
  refine hu.bind_text fun right q => Keeps.pure ⟨.join level levels p operator ht q, ?_⟩
  simp [ExprPhrase.tokens]

lemma keeps_operation (hu : u.Keeps fun _ => ExprSymbol.Derives .unary) :
    (operation u).Keeps fun _ => ExprSymbol.Derives (.operation Level.ordered) := by
  unfold operation
  induction Level.ordered with
  | nil => exact hu.mono fun _ _ => Exists.imp' .ofUnary fun _ hp => hp
  | cons level levels ih => exact keeps_chain ih

lemma keeps_assignment (hu : u.Keeps fun _ => ExprSymbol.Derives (.operation Level.ordered))
    (he : e.Keeps fun _ => ExprSymbol.Derives .expression) :
    (assignment u e).Keeps fun _ => ExprSymbol.Derives .expression := by
  refine hu.bind_text fun target p => Keeps.acceptIf_bind
    (Keeps.pure ⟨.plain p, by simp [ExprPhrase.tokens]⟩) fun equals hequals => ?_
  refine he.bind_text fun value q => ?_
  have htext : ExprSymbol.Derives .expression (p.tokens ++ equals :: (q.tokens ++ [])) :=
    ⟨.assign p ⟨equals, by simpa using hequals⟩ q, by simp [ExprPhrase.tokens]⟩
  split
  · exact Keeps.pure htext
  · exact (Keeps.noteAt equals (by simp)).bind fun _ _ h => Keeps.pure (by simpa [h] using htext)

/-- A token that begins a primary expression is a phrase by itself, or opens a parenthesis. -/
lemma keeps_primary (he : e.Keeps fun _ => ExprSymbol.Derives .expression) :
    (primary e).Keeps fun _ => ExprSymbol.Derives .primary := by
  refine Keeps.select (Keeps.fail _ ⟨default, _, .named (word .identifier), rfl⟩)
    fun t f hf => ?_
  have hliteral {literal : Literal} (h : t.constant? = some literal) (v : Expr) :
      (pure v : Parser Expr).Keeps fun _ us => ExprSymbol.Derives .primary (t :: us) :=
    Keeps.pure ⟨.literal t literal h, rfl⟩
  cases hk : t.kind <;> simp only [hk, reduceCtorEq, Option.some.injEq] at hf <;> subst hf
  case leftParen =>
    refine he.bind_text fun v p => Keeps.expect_bind fun _ closing => Keeps.pure ?_
    exact ⟨.grouping ⟨t, hk⟩ p closing, by simp [ExprPhrase.tokens]⟩
  case identifier => exact Keeps.pure ⟨.named ⟨t, hk⟩, rfl⟩
  all_goals exact hliteral (by simp [Token.constant?, Token.literal?, hk]; rfl) _

/-- A call goes on behind its callee and the parenthesis after that. -/
lemma keeps_finishCall (he : e.Keeps fun _ => ExprSymbol.Derives .expression) (callee : Expr)
    (p : ExprPhrase .call) (opening : Terminal .leftParen) :
    (finishCall e callee).Keeps
      fun _ us => ExprSymbol.Derives .call (p.tokens ++ opening.1 :: us) := by
  have harguments : (listed e .tooManyArguments).Keeps
      fun _ => ExprSymbol.Derives .arguments := by
    refine keeps_listed (by simp) he (fun _ => Exists.imp' .single fun _ hq => hq) ?_
    rintro _ comma _ ⟨init, rfl⟩ ⟨next, rfl⟩
    exact ⟨.further init comma next, by simp [ExprPhrase.tokens]⟩
  refine (keeps_unlessNext _ harguments).bind fun arguments us hus =>
    Keeps.expect_bind fun _ closing => Keeps.pure ?_
  rcases hus with rfl | ⟨q, rfl⟩
  · exact ⟨.callEmpty p opening closing, by simp [ExprPhrase.tokens]⟩
  · exact ⟨.call p opening q closing, by simp [ExprPhrase.tokens]⟩

lemma keeps_call (he : e.Keeps fun _ => ExprSymbol.Derives .expression) :
    (call e).Keeps fun _ => ExprSymbol.Derives .call := by
  refine (keeps_primary he).bind_text fun callee p => Keeps.folding
    (L := fun _ => ExprSymbol.Derives .call) ?_ ⟨.ofPrimary p, rfl⟩
  rintro callee _ t ⟨p, rfl⟩ ht
  have hopening : t.kind = .leftParen := by simpa using ht
  exact keeps_finishCall he callee p ⟨t, hopening⟩

lemma keeps_unary (hu : u.Keeps fun _ => ExprSymbol.Derives .unary)
    (he : e.Keeps fun _ => ExprSymbol.Derives .expression) :
    (unary u e).Keeps fun _ => ExprSymbol.Derives .unary := by
  refine Keeps.acceptIf_bind ((keeps_call he).mono fun _ _ => Exists.imp' .ofCall fun _ hp => hp)
    fun operator hoperator => ?_
  refine hu.bind_text fun inner p => Keeps.pure ⟨.unary operator hoperator p, ?_⟩
  simp [ExprPhrase.tokens]

/-- **Expressions keep to their texts** at each depth.

**Proof sketch.** Induction on the depth, for expressions and for unary expressions at once. -/
theorem keeps_expressionAt (depth : Nat) :
    ((expressionAt depth).Keeps fun _ => ExprSymbol.Derives .expression) ∧
      (unaryAt depth).Keeps fun _ => ExprSymbol.Derives .unary := by
  induction depth with
  | zero =>
    let nothing : ExprPhrase .unary := .ofCall (.ofPrimary (.named (word .identifier)))
    exact ⟨.tooDeep ⟨default, _, .plain (operand nothing), rfl⟩,
      .tooDeep ⟨default, _, nothing, rfl⟩⟩
  | succ depth ih =>
    obtain ⟨he, hu⟩ := ih
    rw [expressionAt, unaryAt]
    exact ⟨keeps_assignment (keeps_operation hu) he, keeps_unary hu he⟩

end Expressions

/-! ### Statements -/

section Statements

variable {e : Parser Expr} {st : Parser Stmt} {d : Advancing (Option Stmt)}

/-- What may be left out is a phrase or nothing. -/
lemma exists_elim_eq {s : ExprSymbol} {us : List Token} (h : us = [] ∨ s.Derives us) :
    ∃ p : Option (ExprPhrase s), p.elim [] ExprPhrase.tokens = us := by
  rcases h with rfl | ⟨p, rfl⟩
  · exact ⟨none, rfl⟩
  · exact ⟨some p, rfl⟩

lemma keeps_expressionStatement (he : e.Keeps fun _ => ExprSymbol.Derives .expression) :
    (expressionStatement e).toParser.Keeps
      fun _ us => ∃ s : EvaluationPhrase, s.tokens = us := by
  refine he.bind_text fun value p => Keeps.expect_bind fun _ closing => Keeps.pure ?_
  exact ⟨⟨p, closing⟩, by simp [EvaluationPhrase.tokens]⟩

lemma keeps_variableDeclaration (he : e.Keeps fun _ => ExprSymbol.Derives .expression)
    (keyword : Terminal .varWord) :
    (variableDeclaration e).Keeps
      fun _ us => ∃ v : VariablePhrase, v.tokens = keyword.1 :: us := by
  refine Keeps.expect_bind fun _ name => Keeps.acceptIf_bind ?_ fun equals hequals => ?_
  · refine (Keeps.pure (L := fun _ us => us = []) rfl).bind fun _ us hus =>
      Keeps.expect_bind fun _ closing => Keeps.pure ?_
    exact ⟨⟨keyword, name, none, closing⟩, by simp [VariablePhrase.tokens, hus]⟩
  · have hkind : equals.kind = .equal := by simpa using hequals
    refine he.bind_text fun _ p => (Keeps.pure (L := fun _ us => us = []) rfl).bind fun _ us hus =>
      Keeps.expect_bind fun _ closing => Keeps.pure ?_
    exact ⟨⟨keyword, name, some (⟨equals, hkind⟩, p), closing⟩,
      by simp [VariablePhrase.tokens, hus]⟩

lemma keeps_forInitial (he : e.Keeps fun _ => ExprSymbol.Derives .expression) :
    (forInitial e).Keeps fun _ us => ∃ i : InitialPhrase, i.tokens = us := by
  rw [forInitial_eq]
  refine Keeps.select ((keeps_expressionStatement he).bind_text fun _ s =>
    Keeps.pure ⟨.evaluated s, by simp [InitialPhrase.tokens]⟩) fun t f hf => ?_
  unfold initialTable at hf
  split at hf
  · obtain rfl := Option.some.inj hf
    exact Keeps.pure ⟨.absent ⟨t, ‹_›⟩, rfl⟩
  · obtain rfl := Option.some.inj hf
    exact (keeps_variableDeclaration he ⟨t, ‹_›⟩).bind fun _ _ h => Keeps.pure
      (h.imp' .declared fun _ hv => by simpa [InitialPhrase.tokens] using hv)
  · contradiction

lemma keeps_forStatement (he : e.Keeps fun _ => ExprSymbol.Derives .expression)
    (hst : st.Keeps fun _ => StmtSymbol.Derives .statement) (keyword : Terminal .forWord) :
    (forStatement e st).Keeps fun _ us => StmtSymbol.Derives .statement (keyword.1 :: us) := by
  refine Keeps.expect_bind fun _ opening => (keeps_forInitial he).bind_text fun _ initial => ?_
  refine (keeps_unlessNext _ he).bind fun _ _ hc => Keeps.expect_bind fun _ middle => ?_
  refine (keeps_unlessNext _ he).bind fun _ _ hs => Keeps.expect_bind fun _ closing => ?_
  refine hst.bind_text fun _ body => Keeps.pure ?_
  obtain ⟨condition, hc⟩ := exists_elim_eq hc
  obtain ⟨step, hs⟩ := exists_elim_eq hs
  exact ⟨.forLoop keyword opening initial condition middle step closing body,
    by simp [StmtPhrase.tokens, hc, hs]⟩

lemma keeps_ifStatement (he : e.Keeps fun _ => ExprSymbol.Derives .expression)
    (hst : st.Keeps fun _ => StmtSymbol.Derives .statement) (keyword : Terminal .ifWord) :
    (ifStatement e st).Keeps fun _ us => StmtSymbol.Derives .statement (keyword.1 :: us) := by
  refine Keeps.expect_bind fun _ opening => he.bind_text fun _ condition => ?_
  refine Keeps.expect_bind fun _ closing => hst.bind_text fun _ whenTrue => ?_
  refine Keeps.acceptIf_bind (Keeps.pure ?_) fun otherwise hotherwise => ?_
  · exact ⟨.ifThen keyword opening condition closing whenTrue, by simp [StmtPhrase.tokens]⟩
  · refine hst.bind_text fun _ whenFalse => Keeps.pure ?_
    exact ⟨.ifElse keyword opening condition closing whenTrue ⟨otherwise, by simpa using hotherwise⟩
      whenFalse, by simp [StmtPhrase.tokens]⟩

lemma keeps_whileStatement (he : e.Keeps fun _ => ExprSymbol.Derives .expression)
    (hst : st.Keeps fun _ => StmtSymbol.Derives .statement) (keyword : Terminal .whileWord) :
    (whileStatement e st).Keeps fun _ us => StmtSymbol.Derives .statement (keyword.1 :: us) := by
  refine Keeps.expect_bind fun _ opening => he.bind_text fun _ condition => ?_
  refine Keeps.expect_bind fun _ closing => hst.bind_text fun _ body => Keeps.pure ?_
  exact ⟨.whileLoop keyword opening condition closing body, by simp [StmtPhrase.tokens]⟩

lemma keeps_printStatement (he : e.Keeps fun _ => ExprSymbol.Derives .expression)
    (keyword : Terminal .printWord) :
    (printStatement e).Keeps fun _ us => StmtSymbol.Derives .statement (keyword.1 :: us) := by
  refine he.bind_text fun _ value => Keeps.expect_bind fun _ closing => Keeps.pure ?_
  exact ⟨.printing keyword value closing, by simp [StmtPhrase.tokens]⟩

lemma keeps_returnStatement (he : e.Keeps fun _ => ExprSymbol.Derives .expression)
    (keyword : Terminal .returnWord) :
    (returnStatement e keyword.1).Keeps
      fun _ us => StmtSymbol.Derives .statement (keyword.1 :: us) := by
  have hvalue : (do
      let value ← unlessNext .semicolon e
      let _ ← expect .semicolon .semicolonAfterReturned
      return Stmt.return keyword.1 value : Parser Stmt).Keeps
        fun _ us => StmtSymbol.Derives .statement (keyword.1 :: us) := by
    refine (keeps_unlessNext _ he).bind fun _ _ hv =>
      Keeps.expect_bind fun _ closing => Keeps.pure ?_
    obtain ⟨value, hv⟩ := exists_elim_eq hv
    exact ⟨.returning keyword value closing, by simp [StmtPhrase.tokens, hv]⟩
  refine (Keeps.inFunction (L := fun _ us => us = []) fun _ => rfl).bind fun inside us hus => ?_
  subst hus
  dsimp only
  split
  · exact (Keeps.noteAt keyword.1 (by simp)).bind fun _ us hus => by simpa [hus] using hvalue
  · exact hvalue

lemma keeps_rows (hd : d.toParser.Keeps fun _ => StmtSymbol.Derives .declaration)
    (stop : Token.Kind → Bool) :
    (rows stop d).Keeps fun _ => StmtSymbol.Derives .declarations := by
  refine Keeps.rows stop hd ⟨.nil, rfl⟩ ?_
  rintro _ _ _ ⟨p, rfl⟩ ⟨q, rfl⟩
  exact ⟨.cons p q, by simp [StmtPhrase.tokens]⟩

lemma keeps_blockBody (hd : d.toParser.Keeps fun _ => StmtSymbol.Derives .declaration) :
    (blockBody d).Keeps fun _ us => ∃ body : StmtPhrase .declarations × Terminal .rightBrace,
      body.1.tokens ++ [body.2.1] = us := by
  refine (keeps_rows hd _).bind_text fun _ body =>
    Keeps.expect_bind fun _ closing => Keeps.pure ?_
  exact ⟨(body, closing), by simp⟩

lemma keeps_functionDeclaration (hd : d.toParser.Keeps fun _ => StmtSymbol.Derives .declaration)
    (keyword : Terminal .funWord) :
    (functionDeclaration d).Keeps
      fun _ us => StmtSymbol.Derives .declaration (keyword.1 :: us) := by
  have hnames : (listed (expect .identifier .parameterName) .tooManyParameters).Keeps
      fun _ us => ∃ p : NamesPhrase, p.tokens = us := by
    refine keeps_listed (D := fun us => ∃ t : Terminal .identifier, us = [t.1]) (by simp)
      (Keeps.expect _ _) (fun _ => Exists.imp' .single fun _ ht => ht.symm) ?_
    rintro _ comma _ ⟨init, rfl⟩ ⟨t, rfl⟩
    exact ⟨.further init comma t, by simp [NamesPhrase.tokens]⟩
  refine Keeps.expect_bind fun _ name => Keeps.expect_bind fun _ opening => ?_
  refine (keeps_unlessNext _ hnames).bind fun _ _ hp => Keeps.expect_bind fun _ closing => ?_
  refine Keeps.expect_bind fun _ bodyOpening => (keeps_blockBody hd).asFunctionBody.bind_text
    fun _ body => Keeps.pure ?_
  rcases hp with rfl | ⟨p, rfl⟩
  · exact ⟨.function keyword name opening none closing bodyOpening body.1 body.2,
      by simp [StmtPhrase.tokens]⟩
  · exact ⟨.function keyword name opening (some p) closing bodyOpening body.1 body.2,
      by simp [StmtPhrase.tokens]⟩

/-- **Statements keep to their texts** if the parsers of their parts do. -/
theorem keeps_statementTable (he : e.Keeps fun _ => ExprSymbol.Derives .expression)
    (hst : st.Keeps fun _ => StmtSymbol.Derives .statement)
    (hd : d.toParser.Keeps fun _ => StmtSymbol.Derives .declaration) :
    (select (statementTable e st d) (expressionStatement e).toParser).Keeps
      fun _ => StmtSymbol.Derives .statement := by
  refine Keeps.select ((keeps_expressionStatement he).mono fun _ _ =>
    Exists.imp' .evaluation fun _ hs => hs) fun t f hf => ?_
  cases hk : t.kind <;> simp only [statementTable, hk, reduceCtorEq, Option.some.injEq] at hf <;>
    subst hf
  case forWord => exact keeps_forStatement he hst ⟨t, hk⟩
  case ifWord => exact keeps_ifStatement he hst ⟨t, hk⟩
  case whileWord => exact keeps_whileStatement he hst ⟨t, hk⟩
  case printWord => exact keeps_printStatement he ⟨t, hk⟩
  case returnWord => exact keeps_returnStatement he ⟨t, hk⟩
  case leftBrace =>
    refine (keeps_blockBody hd).bind_text fun _ body => Keeps.pure ?_
    exact ⟨.block ⟨t, hk⟩ body.1 body.2, by simp [StmtPhrase.tokens]⟩

/-- **Declarations keep to their texts** if the parsers of their parts do. -/
theorem keeps_declarationTable (he : e.Keeps fun _ => ExprSymbol.Derives .expression)
    (hst : st.Keeps fun _ => StmtSymbol.Derives .statement)
    (hd : d.toParser.Keeps fun _ => StmtSymbol.Derives .declaration) :
    (select (declarationTable e d) st).Keeps fun _ => StmtSymbol.Derives .declaration := by
  refine Keeps.select (hst.mono fun _ _ => Exists.imp' .statement fun _ hp => hp) fun t f hf => ?_
  cases hk : t.kind <;> simp only [declarationTable, hk, reduceCtorEq, Option.some.injEq] at hf <;>
    subst hf
  case funWord => exact keeps_functionDeclaration hd ⟨t, hk⟩
  case varWord =>
    exact (keeps_variableDeclaration he ⟨t, hk⟩).mono fun _ _ =>
      Exists.imp' .declared fun _ hv => hv

end Statements

end Grammar

end LoxLang
