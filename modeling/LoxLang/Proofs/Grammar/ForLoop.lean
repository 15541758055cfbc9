import LoxLang.Proofs.Grammar.Progress
import LoxLang.Proofs.Grammar.Sentence

set_option autoImplicit false

/-!
# Loops written by hand

A `for` is read as blocks and a `while`, and these can be written by hand. In any program that is
read without faults a `for` may be replaced so, and the program is still read as the same tree: the
statement behind the `for` ends where it did, and every alternative stays with its condition.

## Main definitions

* `LoopParts`, `ForMarks`, `WhileMarks` — the parts of a loop, and the marks between them.
* `LoopParts.asFor`, `LoopParts.asWhile` — the loop as a `for` and written by hand.
* `LoopParts.byHand` — the tokens of the loop written by hand.
* `StmtPhrase.Replaces` — a phrase may take the place of another.
* `StmtPhrase.Holds` — a statement at a place in a phrase, which may be replaced there.

## Main results

* `LoopParts.replaces_asWhile` — a loop written by hand may take the place of a `for`.
* `StmtPhrase.exists_holds` — a `for` among the tokens of a phrase is a part of it.
* `Grammar.exists_replaced` — the program with a `for` replaced.
-/

namespace LoxLang

/-! ## The loop by hand -/

/-- What a loop is made of. -/
structure LoopParts where
  initial : InitialPhrase
  condition : Option (ExprPhrase .expression)
  step : Option (ExprPhrase .expression)
  body : StmtPhrase .statement

/-- The marks of a `for`, but for the one that ends what it begins with. -/
structure ForMarks where
  keyword : Terminal .forWord
  opening : Terminal .leftParen
  middle : Terminal .semicolon
  closing : Terminal .rightParen

/-- The marks of a loop written by hand. The word for truth stands for a condition that is left
out. -/
structure WhileMarks where
  outerOpening : Terminal .leftBrace
  keyword : Terminal .whileWord
  opening : Terminal .leftParen
  always : Terminal .trueWord
  closing : Terminal .rightParen
  innerOpening : Terminal .leftBrace
  stepClosing : Terminal .semicolon
  innerClosing : Terminal .rightBrace
  outerClosing : Terminal .rightBrace

namespace LoopParts

variable (l : LoopParts) (k : ForMarks) (m : WhileMarks)

/-- The loop as a `for`. -/
def asFor : StmtPhrase .statement :=
  .forLoop k.keyword k.opening l.initial l.condition k.middle l.step k.closing l.body

/-- The tokens of the loop written by hand. There are outer braces if there is an initializer, and
inner ones if there is a step. -/
def byHand : List Token :=
  let round := l.step.elim l.body.tokens fun step =>
    m.innerOpening.1 :: (l.body.tokens ++ (step.tokens ++ [m.stepClosing.1, m.innerClosing.1]))
  let condition := l.condition.elim [m.always.1] ExprPhrase.tokens
  let loop := m.keyword.1 :: m.opening.1 :: (condition ++ m.closing.1 :: round)
  match l.initial with
  | .absent _ => loop
  | .declared v => m.outerOpening.1 :: (v.tokens ++ (loop ++ [m.outerClosing.1]))
  | .evaluated s => m.outerOpening.1 :: (s.tokens ++ (loop ++ [m.outerClosing.1]))

/-- The word for truth as a condition. -/
def always : ExprPhrase .expression :=
  Grammar.constant m.always.1 (.bool true) (by rw [Token.constant?, m.always.2])

/-- A round of the loop written by hand: the body, and the step behind it. -/
def round : StmtPhrase .statement :=
  match l.step with
  | some step => .block m.innerOpening (.cons (.statement l.body)
      (.cons (.statement (.evaluation ⟨step, m.stepClosing⟩)) .nil)) m.innerClosing
  | none => l.body

/-- The loop written by hand. -/
def asWhile : StmtPhrase .statement :=
  let loop := .whileLoop m.keyword m.opening (l.condition.getD (always m)) m.closing (l.round m)
  match l.initial with
  | .absent _ => loop
  | .declared v => .block m.outerOpening
      (.cons (.declared v) (.cons (.statement loop) .nil)) m.outerClosing
  | .evaluated s => .block m.outerOpening
      (.cons (.statement (.evaluation s)) (.cons (.statement loop) .nil)) m.outerClosing

lemma tokens_asWhile : (l.asWhile m).tokens = l.byHand m := by
  obtain ⟨initial, condition, step, body⟩ := l
  cases initial <;> cases condition <;> cases step <;>
    simp [asWhile, byHand, round, StmtPhrase.tokens, EvaluationPhrase.tokens, always,
      Grammar.constant, Grammar.operand, ExprPhrase.tokens]

end LoopParts

namespace StmtPhrase

/-- A phrase may take the place of another, inside or outside a function body: it is read as the
same tree, nothing is at fault about it if nothing is about the other, and its alternatives are
nearest, as they are inside the other and behind it. -/
structure Replaces (b : Bool) {s : StmtSymbol} (q p : StmtPhrase s) : Prop where
  tree_eq : q.tree = p.tree
  nearestElse : p.NearestElse → q.NearestElse
  isOpen : q.isOpen = true → p.isOpen = true
  faults : p.faults b = [] → q.faults b = []

end StmtPhrase

/-- **A loop written by hand may take the place of a `for`.** -/
theorem LoopParts.replaces_asWhile (l : LoopParts) (k : ForMarks) (m : WhileMarks) (b : Bool) :
    (l.asWhile m).Replaces b (l.asFor k) := by
  obtain ⟨initial, condition, step, body⟩ := l
  constructor
  · cases initial <;> cases condition <;> cases step <;> rfl
  · intro h
    have hbody : body.NearestElse := h
    cases initial <;> cases step <;>
      simp [asWhile, round, StmtPhrase.NearestElse, hbody]
  · cases initial <;> cases step <;> simp [asWhile, asFor, round, StmtPhrase.isOpen]
  · intro h
    simp only [asFor, StmtPhrase.faults, List.append_eq_nil_iff] at h
    obtain ⟨hinitial, hcondition, hstep, hbody⟩ := h
    have halways : (always m).faults = [] := rfl
    cases initial <;> cases condition <;> cases step <;>
      simp_all [asWhile, round, StmtPhrase.faults, InitialPhrase.faults]

/-! ## A `for` among the tokens of a phrase -/

section Lists

variable {xs ys pre rest : List Token} {x t : Token}

/-- A token at a place in a list is one of it. -/
lemma mem_of_eq_append (h : xs = pre ++ t :: rest) : t ∈ xs := by simp [h]

/-- A token of two lists in a row is one of the first or one of the second. -/
lemma mem_first_or_second (h : xs ++ ys = pre ++ t :: rest) :
    (∃ left, xs = pre ++ t :: left ∧ rest = left ++ ys) ∨
      ∃ mid, pre = xs ++ mid ∧ ys = mid ++ t :: rest := by
  rcases List.append_eq_append_iff.1 h with ⟨mid, rfl, rfl⟩ | ⟨left, rfl, hleft⟩
  · exact .inr ⟨mid, rfl, rfl⟩
  · cases left with
    | nil => exact .inr ⟨[], by simp, by simpa using hleft.symm⟩
    | cons u left =>
      obtain ⟨rfl, rfl⟩ : t = u ∧ rest = left ++ ys := by simpa using hleft
      exact .inl ⟨left, rfl, rfl⟩

/-- A token that is not among the first ones of a list is behind them. -/
lemma behind_append (h : xs ++ ys = pre ++ t :: rest) (ht : t ∉ xs) :
    ∃ mid, pre = xs ++ mid ∧ ys = mid ++ t :: rest := by
  rcases mem_first_or_second h with ⟨left, rfl, -⟩ | hbehind
  · simp at ht
  · exact hbehind

/-- A token that is not the first one of a list is behind it. -/
lemma behind_cons (h : x :: ys = pre ++ t :: rest) (ht : t ≠ x) :
    ∃ mid, pre = x :: mid ∧ ys = mid ++ t :: rest := by
  have hsingle : [x] ++ ys = pre ++ t :: rest := h
  exact behind_append hsingle (by simpa using ht)

end Lists

section Keyword

variable {t : Token} (ht : t.kind = .forWord)

include ht

/-- The keyword of a `for` is no token of another kind. -/
lemma Terminal.ne_forWord {kind : Token.Kind} (x : Terminal kind) (hk : kind ≠ .forWord) :
    t ≠ x.1 := by
  rintro rfl
  exact hk (x.2.symm.trans ht)

/-- The keyword of a `for` is not within a statement other than as its mark. -/
lemma notMem_of_isInner {us : List Token} (h : ∀ u ∈ us, u.kind.isInner = true) : t ∉ us := by
  intro hmem
  simpa [ht, Token.Kind.isInner] using h t hmem

/-- A `for` in a statement with a condition, which is no `for` itself, is behind the condition. -/
lemma behind_condition {kind : Token.Kind} (keyword : Terminal kind) (hk : kind ≠ .forWord)
    (opening : Terminal .leftParen) (condition : ExprPhrase .expression)
    (closing : Terminal .rightParen) {pre rest ys : List Token}
    (h : keyword.1 :: opening.1 :: (condition.tokens ++ closing.1 :: ys) = pre ++ t :: rest) :
    ∃ mid, pre = keyword.1 :: opening.1 :: (condition.tokens ++ [closing.1]) ++ mid ∧
      ys = mid ++ t :: rest := by
  refine behind_append (by simpa using h) ?_
  simp [notMem_of_isInner ht condition.isInner, Terminal.ne_forWord ht keyword hk,
    Terminal.ne_forWord ht opening, Terminal.ne_forWord ht closing]

end Keyword

namespace StmtPhrase

/-- What may follow a phrase. Behind declarations there is no alternative, and behind a statement
there is none that would belong to a condition within it. -/
def Precedes : {s : StmtSymbol} → StmtPhrase s → List Token → Prop
  | .declarations, _, more => ∀ t ∈ more.head?, t.kind ≠ .elseWord
  | _, p, more => p.Ends more

/-- A statement stands at a place in a phrase, inside or outside a function body as the phrase does
or not. Nothing is at fault about it if nothing is about the phrase, its alternatives are nearest if
those of the phrase are, and another statement may take its place. -/
structure Holds (b : Bool) {s : StmtSymbol} (p : StmtPhrase s) (pre : List Token) (within : Bool)
    (f : StmtPhrase .statement) (post : List Token) : Prop where
  nearestElse : p.NearestElse → f.NearestElse
  ends : p.NearestElse → ∀ more, p.Precedes more → f.Ends (post ++ more)
  faults : p.faults b = [] → f.faults within = []
  replace : ∀ w : StmtPhrase .statement, w.Replaces within f →
    ∃ q : StmtPhrase s, q.tokens = pre ++ (w.tokens ++ post) ∧ q.Replaces b p

/-! ### Replacing a part -/

section Parts

variable {b : Bool}

lemma Replaces.block {q p : StmtPhrase .declarations} (h : q.Replaces b p)
    (opening : Terminal .leftBrace) (closing : Terminal .rightBrace) :
    (StmtPhrase.block opening q closing).Replaces b (.block opening p closing) :=
  ⟨congrArg Stmt.block h.tree_eq, h.nearestElse, by simp [StmtPhrase.isOpen], h.faults⟩

lemma Replaces.function {q p : StmtPhrase .declarations} (h : q.Replaces true p)
    (keyword : Terminal .funWord) (name : Terminal .identifier) (opening : Terminal .leftParen)
    (parameters : Option NamesPhrase) (closing : Terminal .rightParen)
    (bodyOpening : Terminal .leftBrace) (bodyClosing : Terminal .rightBrace) :
    (StmtPhrase.function keyword name opening parameters closing bodyOpening q bodyClosing).Replaces
      b (.function keyword name opening parameters closing bodyOpening p bodyClosing) := by
  refine ⟨congrArg (Stmt.function _ _) h.tree_eq, h.nearestElse, by simp [StmtPhrase.isOpen],
    fun hfaults => ?_⟩
  obtain ⟨hnames, hbody⟩ := List.append_eq_nil_iff.1 hfaults
  simp [StmtPhrase.faults, hnames, h.faults hbody]

lemma Replaces.statement {q p : StmtPhrase .statement} (h : q.Replaces b p) :
    (StmtPhrase.statement q).Replaces b (.statement p) :=
  ⟨h.tree_eq, h.nearestElse, h.isOpen, h.faults⟩

lemma Replaces.first {q p : StmtPhrase .declaration} (h : q.Replaces b p)
    (ds : StmtPhrase .declarations) : (StmtPhrase.cons q ds).Replaces b (.cons p ds) := by
  refine ⟨congrArg (some · :: _) h.tree_eq, fun hn => ⟨h.nearestElse hn.1, hn.2⟩,
    by simp [StmtPhrase.isOpen], fun hfaults => ?_⟩
  obtain ⟨hd, hds⟩ := List.append_eq_nil_iff.1 hfaults
  simp [StmtPhrase.faults, h.faults hd, hds]

lemma Replaces.later {q p : StmtPhrase .declarations} (h : q.Replaces b p)
    (d : StmtPhrase .declaration) : (StmtPhrase.cons d q).Replaces b (.cons d p) := by
  refine ⟨congrArg (some d.tree :: ·) h.tree_eq, fun hn => ⟨hn.1, h.nearestElse hn.2⟩,
    by simp [StmtPhrase.isOpen], fun hfaults => ?_⟩
  obtain ⟨hd, hds⟩ := List.append_eq_nil_iff.1 hfaults
  simp [StmtPhrase.faults, hd, h.faults hds]

section Condition

variable {q p : StmtPhrase .statement} (h : q.Replaces b p) (opening : Terminal .leftParen)
  (condition : ExprPhrase .expression) (closing : Terminal .rightParen)

include h

lemma Replaces.ifThen (keyword : Terminal .ifWord) :
    (StmtPhrase.ifThen keyword opening condition closing q).Replaces b
      (.ifThen keyword opening condition closing p) := by
  refine ⟨congrArg (Stmt.branch _ · none) h.tree_eq, h.nearestElse, fun _ => rfl,
    fun hfaults => ?_⟩
  obtain ⟨hcondition, htrue⟩ := List.append_eq_nil_iff.1 hfaults
  simp [StmtPhrase.faults, hcondition, h.faults htrue]

lemma Replaces.whenTrue (keyword : Terminal .ifWord) (otherwise : Terminal .elseWord)
    (whenFalse : StmtPhrase .statement) :
    (StmtPhrase.ifElse keyword opening condition closing q otherwise whenFalse).Replaces b
      (.ifElse keyword opening condition closing p otherwise whenFalse) := by
  refine ⟨congrArg (Stmt.branch _ · _) h.tree_eq, fun hn => ⟨?_, h.nearestElse hn.2.1, hn.2.2⟩, id,
    fun hfaults => ?_⟩
  · by_contra hopen
    have htrue : p.isOpen = true := h.isOpen (by simpa using hopen)
    simp [hn.1] at htrue
  · simp only [StmtPhrase.faults, List.append_eq_nil_iff] at hfaults ⊢
    exact ⟨hfaults.1, h.faults hfaults.2.1, hfaults.2.2⟩

lemma Replaces.whenFalse (keyword : Terminal .ifWord) (whenTrue : StmtPhrase .statement)
    (otherwise : Terminal .elseWord) :
    (StmtPhrase.ifElse keyword opening condition closing whenTrue otherwise q).Replaces b
      (.ifElse keyword opening condition closing whenTrue otherwise p) := by
  refine ⟨congrArg (fun e => Stmt.branch _ _ (some e)) h.tree_eq,
    fun hn => ⟨hn.1, hn.2.1, h.nearestElse hn.2.2⟩, h.isOpen, fun hfaults => ?_⟩
  simp only [StmtPhrase.faults, List.append_eq_nil_iff] at hfaults ⊢
  exact ⟨hfaults.1, hfaults.2.1, h.faults hfaults.2.2⟩

lemma Replaces.whileLoop (keyword : Terminal .whileWord) :
    (StmtPhrase.whileLoop keyword opening condition closing q).Replaces b
      (.whileLoop keyword opening condition closing p) := by
  refine ⟨congrArg (Stmt.loop _) h.tree_eq, h.nearestElse, h.isOpen, fun hfaults => ?_⟩
  obtain ⟨hcondition, hbody⟩ := List.append_eq_nil_iff.1 hfaults
  simp [StmtPhrase.faults, hcondition, h.faults hbody]

lemma Replaces.forLoop (keyword : Terminal .forWord) (initial : InitialPhrase)
    (condition : Option (ExprPhrase .expression)) (middle : Terminal .semicolon)
    (step : Option (ExprPhrase .expression)) :
    (StmtPhrase.forLoop keyword opening initial condition middle step closing q).Replaces b
      (.forLoop keyword opening initial condition middle step closing p) := by
  refine ⟨congrArg (Stmt.forLoop _ _ _) h.tree_eq, h.nearestElse, h.isOpen, fun hfaults => ?_⟩
  simp only [StmtPhrase.faults, List.append_eq_nil_iff] at hfaults ⊢
  exact ⟨hfaults.1, hfaults.2.1, hfaults.2.2.1, h.faults hfaults.2.2.2⟩

end Condition

variable {s s' : StmtSymbol} {b' within : Bool} {p : StmtPhrase s} {p' : StmtPhrase s'}
  {pre post : List Token} {f : StmtPhrase .statement}

/-- A statement in a part of a phrase stands in the phrase, between what is in front of the part and
what is behind it. -/
lemma Holds.wrap (h : p.Holds b pre within f post) (wrap : StmtPhrase s → StmtPhrase s')
    (before behind : List Token)
    (htokens : ∀ q : StmtPhrase s, (wrap q).tokens = before ++ (q.tokens ++ behind))
    (hnearest : p'.NearestElse → p.NearestElse)
    (hends : p'.NearestElse → ∀ more, p'.Precedes more → p.Precedes (behind ++ more))
    (hfaults : p'.faults b' = [] → p.faults b = [])
    (hreplaces : ∀ q : StmtPhrase s, q.Replaces b p → (wrap q).Replaces b' p') :
    p'.Holds b' (before ++ pre) within f (post ++ behind) where
  nearestElse hn := h.nearestElse (hnearest hn)
  ends hn more hmore := by
    rw [List.append_assoc]
    exact h.ends (hnearest hn) _ (hends hn more hmore)
  faults hf := h.faults (hfaults hf)
  replace w hw := by
    obtain ⟨q, hq, hr⟩ := h.replace w hw
    exact ⟨wrap q, by simp [htokens, hq], hreplaces q hr⟩

/-- The same for a part that a phrase ends with. -/
lemma Holds.wrapLast (h : p.Holds b pre within f post) (wrap : StmtPhrase s → StmtPhrase s')
    (before : List Token) (htokens : ∀ q : StmtPhrase s, (wrap q).tokens = before ++ q.tokens)
    (hnearest : p'.NearestElse → p.NearestElse)
    (hends : p'.NearestElse → ∀ more, p'.Precedes more → p.Precedes more)
    (hfaults : p'.faults b' = [] → p.faults b = [])
    (hreplaces : ∀ q : StmtPhrase s, q.Replaces b p → (wrap q).Replaces b' p') :
    p'.Holds b' (before ++ pre) within f post := by
  have := h.wrap wrap before [] (fun q => by rw [htokens, List.append_nil]) hnearest hends hfaults
    hreplaces
  rwa [List.append_nil] at this

end Parts

/-- **A `for` among the tokens of a phrase is a part of it.**

**Proof sketch.** Induction on the phrase. The keyword begins the phrase itself, or it is a token of
a statement within it. What follows that statement in the phrase is no alternative that the
statement would take. -/
theorem exists_holds {s : StmtSymbol} (p : StmtPhrase s) (b : Bool) {pre rest : List Token}
    {t : Token} (ht : t.kind = .forWord) (h : p.tokens = pre ++ t :: rest) :
    ∃ within f post, t :: rest = tokens f ++ post ∧ p.Holds b pre within f post := by
  induction p generalizing b pre rest with
  | evaluation s => exact absurd (mem_of_eq_append h) (notMem_of_isInner ht s.isInner)
  | declared v => exact absurd (mem_of_eq_append h) (notMem_of_isInner ht v.isInner)
  | nil => exact absurd (mem_of_eq_append h) (by simp [tokens])
  | printing keyword value closing =>
    refine absurd (mem_of_eq_append h) ?_
    simp [tokens, notMem_of_isInner ht value.isInner, Terminal.ne_forWord ht keyword,
      Terminal.ne_forWord ht closing]
  | returning keyword value closing =>
    refine absurd (mem_of_eq_append h) ?_
    simp [tokens, notMem_of_isInner ht (ExprPhrase.isInner_elim value),
      Terminal.ne_forWord ht keyword, Terminal.ne_forWord ht closing]
  | block opening body closing ih =>
    obtain ⟨pre, rfl, h₁⟩ := behind_cons h (Terminal.ne_forWord ht opening (by decide))
    rcases mem_first_or_second h₁ with ⟨left, hbody, rfl⟩ | ⟨mid, -, hclosing⟩
    · obtain ⟨within, f, post, hf, hp⟩ := ih b hbody
      refine ⟨within, f, post ++ [closing.1], by simp [← List.append_assoc, ← hf],
        hp.wrap (.block opening · closing) [opening.1] [closing.1] (fun _ => rfl) id
          (fun _ more _ => ?_) id fun _ hr => hr.block opening closing⟩
      simp [Precedes, closing.2]
    · exact absurd (mem_of_eq_append hclosing) (by simp [Terminal.ne_forWord ht closing])
  | ifThen keyword opening condition closing whenTrue ih =>
    obtain ⟨pre, rfl, h₁⟩ := behind_condition ht keyword (by decide) opening condition closing h
    obtain ⟨within, f, post, hf, hp⟩ := ih b h₁
    exact ⟨within, f, post, hf, hp.wrapLast (.ifThen keyword opening condition closing ·) _
      (fun _ => by simp [tokens]) id (fun _ _ hmore _ => hmore rfl)
      (fun hfaults => (List.append_eq_nil_iff.1 hfaults).2)
      fun _ hr => hr.ifThen opening condition closing keyword⟩
  | ifElse keyword opening condition closing whenTrue otherwise whenFalse iht ihf =>
    obtain ⟨pre, rfl, h₁⟩ := behind_condition ht keyword (by decide) opening condition closing h
    rcases mem_first_or_second h₁ with ⟨left, htrue, rfl⟩ | ⟨mid, rfl, h₂⟩
    · obtain ⟨within, f, post, hf, hp⟩ := iht b htrue
      refine ⟨within, f, post ++ otherwise.1 :: whenFalse.tokens,
        by simp [← List.append_assoc, ← hf],
        hp.wrap (.ifElse keyword opening condition closing · otherwise whenFalse) _ _
          (fun _ => by simp [tokens]) (fun hn => hn.2.1) (fun hn more _ => ?_)
          (fun hfaults => ?_) fun _ hr => hr.whenTrue opening condition closing keyword _ _⟩
      · -- the first branch is closed, so the alternative behind it is no part of it
        exact .of_isOpen_eq_false hn.1 _
      · simp only [faults, List.append_eq_nil_iff] at hfaults
        exact hfaults.2.1
    · obtain ⟨pre, rfl, h₃⟩ := behind_cons h₂ (Terminal.ne_forWord ht otherwise (by decide))
      obtain ⟨within, f, post, hf, hp⟩ := ihf b h₃
      have hlast : (ifElse keyword opening condition closing whenTrue otherwise whenFalse).Holds b
          (keyword.1 :: opening.1 ::
            (condition.tokens ++ closing.1 :: (whenTrue.tokens ++ [otherwise.1])) ++ pre)
          within f post :=
        hp.wrapLast (.ifElse keyword opening condition closing whenTrue otherwise ·) _
          (fun _ => by simp [tokens]) (fun hn => hn.2.2) (fun _ _ hmore => hmore)
          (fun hfaults => (List.append_eq_nil_iff.1 (List.append_eq_nil_iff.1 hfaults).2).2)
          fun _ hr => hr.whenFalse opening condition closing keyword _ _
      exact ⟨within, f, post, hf, by simpa using hlast⟩
  | whileLoop keyword opening condition closing body ih =>
    obtain ⟨pre, rfl, h₁⟩ := behind_condition ht keyword (by decide) opening condition closing h
    obtain ⟨within, f, post, hf, hp⟩ := ih b h₁
    exact ⟨within, f, post, hf, hp.wrapLast (.whileLoop keyword opening condition closing ·) _
      (fun _ => by simp [tokens]) id (fun _ _ hmore => hmore)
      (fun hfaults => (List.append_eq_nil_iff.1 hfaults).2)
      fun _ hr => hr.whileLoop opening condition closing keyword⟩
  | forLoop keyword opening initial condition middle step closing body ih =>
    cases pre with
    | nil =>
      exact ⟨b, _, [], by simpa using h.symm, id, fun _ more hmore => hmore, id,
        fun w hw => ⟨w, by simp, hw⟩⟩
    | cons first pre =>
      obtain ⟨rfl, h₁⟩ := List.cons.inj h
      have hsplit : opening.1 :: (initial.tokens ++ (condition.elim [] ExprPhrase.tokens ++
          middle.1 :: (step.elim [] ExprPhrase.tokens ++ [closing.1]))) ++ body.tokens =
            pre ++ t :: rest := by
        simpa using h₁
      obtain ⟨pre, rfl, h₂⟩ := behind_append hsplit <| by
        simp [notMem_of_isInner ht initial.isInner,
          notMem_of_isInner ht (ExprPhrase.isInner_elim condition),
          notMem_of_isInner ht (ExprPhrase.isInner_elim step), Terminal.ne_forWord ht opening,
          Terminal.ne_forWord ht middle, Terminal.ne_forWord ht closing]
      obtain ⟨within, f, post, hf, hp⟩ := ih b h₂
      refine ⟨within, f, post, hf, ?_⟩
      rw [← List.singleton_append, ← List.append_assoc]
      refine hp.wrapLast (.forLoop keyword opening initial condition middle step closing ·) _
        (fun _ => by simp [tokens]) id (fun _ _ hmore => hmore) (fun hfaults => ?_)
        fun _ hr => hr.forLoop opening closing keyword initial condition middle step
      simp only [faults, List.append_eq_nil_iff] at hfaults
      exact hfaults.2.2.2
  | function keyword name opening parameters closing bodyOpening body bodyClosing ih =>
    have hparameters : t ∉ parameters.elim [] NamesPhrase.tokens := by
      cases parameters with
      | none => simp
      | some parameters => exact notMem_of_isInner ht parameters.isInner
    have hsplit : keyword.1 :: name.1 :: opening.1 :: (parameters.elim [] NamesPhrase.tokens ++
        [closing.1, bodyOpening.1]) ++ (body.tokens ++ [bodyClosing.1]) = pre ++ t :: rest := by
      simpa [tokens] using h
    obtain ⟨pre, rfl, h₁⟩ := behind_append hsplit <| by
      simp [hparameters, Terminal.ne_forWord ht keyword, Terminal.ne_forWord ht name,
        Terminal.ne_forWord ht opening, Terminal.ne_forWord ht closing,
        Terminal.ne_forWord ht bodyOpening]
    rcases mem_first_or_second h₁ with ⟨left, hbody, rfl⟩ | ⟨mid, -, hclosing⟩
    · obtain ⟨within, f, post, hf, hp⟩ := ih true hbody
      refine ⟨within, f, post ++ [bodyClosing.1], by simp [← List.append_assoc, ← hf],
        hp.wrap (.function keyword name opening parameters closing bodyOpening · bodyClosing) _ _
          (fun _ => by simp [tokens]) id (fun _ more _ => ?_)
          (fun hfaults => (List.append_eq_nil_iff.1 hfaults).2)
          fun _ hr => hr.function keyword name opening parameters closing bodyOpening bodyClosing⟩
      simp [Precedes, bodyClosing.2]
    · exact absurd (mem_of_eq_append hclosing) (by simp [Terminal.ne_forWord ht bodyClosing])
  | statement p ih =>
    obtain ⟨within, f, post, hf, hp⟩ := ih b h
    exact ⟨within, f, post, hf, hp.wrapLast .statement [] (fun _ => rfl) id
      (fun _ _ hmore => hmore) id fun _ hr => hr.statement⟩
  | cons d ds ihd ihds =>
    rcases mem_first_or_second h with ⟨left, hd, rfl⟩ | ⟨mid, rfl, hds⟩
    · obtain ⟨within, f, post, hf, hp⟩ := ihd b hd
      -- no declaration begins with an alternative
      exact ⟨within, f, post ++ ds.tokens, by simp [← List.append_assoc, ← hf],
        hp.wrap (.cons · ds) [] ds.tokens (fun _ => rfl) And.left
          (fun _ _ hmore _ => ds.ne_elseWord_head hmore)
          (fun hfaults => (List.append_eq_nil_iff.1 hfaults).1) fun _ hr => hr.first ds⟩
    · obtain ⟨within, f, post, hf, hp⟩ := ihds b hds
      exact ⟨within, f, post, hf, hp.wrapLast (.cons d ·) d.tokens (fun _ => rfl) And.right
        (fun _ _ hmore => hmore) (fun hfaults => (List.append_eq_nil_iff.1 hfaults).2)
        fun _ hr => hr.later d⟩

/-! ### Where a statement ends -/

/-- In front of the same tokens two statements with nearest alternatives are the same but for their
form: they end at the same place, and they have the same tree and the same faults. -/
lemma eq_of_tokens_append {f g : StmtPhrase .statement} (hf : f.NearestElse) (hg : g.NearestElse)
    {post post' : List Token} (hfe : f.Ends post) (hge : g.Ends post')
    (h : f.tokens ++ post = g.tokens ++ post') :
    f.tokens = g.tokens ∧ post = post' ∧ f.tree = g.tree ∧ ∀ b, f.faults b = g.faults b := by
  have hread : f.IsRead _ := f.isRead (Nat.le_max_left f.height g.height) hf
  have hread' : g.IsRead _ := g.isRead (Nat.le_max_right f.height g.height) hg
  have hsame : ∀ b, f.tree = g.tree ∧ post = post' ∧ f.faults b = g.faults b := by
    intro b
    have hr := hread b post hfe
    rw [h, hread' b post' hge] at hr
    simpa [eq_comm] using hr
  obtain ⟨htree, rfl, -⟩ := hsame false
  exact ⟨List.append_cancel_right h, rfl, htree, fun b => (hsame b).2.2⟩

/-- Statements with the same tokens and nearest alternatives are open alike: an alternative behind
the tokens is read as a part of both or of none. -/
lemma isOpen_of_tokens_eq {f g : StmtPhrase .statement} (hf : f.NearestElse) (hg : g.NearestElse)
    (h : f.tokens = g.tokens) (ho : f.isOpen = true) : g.isOpen = true := by
  by_contra hclosed
  let otherwise := Grammar.word .elseWord
  let other : StmtPhrase .statement := .printing (Grammar.word .printWord)
    (Grammar.constant (Grammar.word .nilWord).1 .nil rfl) (Grammar.word .semicolon)
  obtain ⟨r, hr, hre, -⟩ := f.exists_ifElse_of_isOpen rfl hf ho otherwise other trivial
  have hends : r.Ends [] := fun _ => by simp
  have hends' : g.Ends (otherwise.1 :: other.tokens) :=
    .of_isOpen_eq_false (by simpa using hclosed) _
  have hsame := eq_of_tokens_append hre hg hends hends' (by rw [List.append_nil, hr, h])
  simp at hsame

end StmtPhrase

/-- What begins with the keyword of a `for` is one. -/
lemma LoopParts.exists_asFor {f : StmtPhrase .statement} {t : Token} {rest : List Token}
    (ht : t.kind = .forWord) (h : f.tokens = t :: rest) :
    ∃ (l : LoopParts) (k : ForMarks), f = l.asFor k := by
  cases f with
  | forLoop keyword opening initial condition middle step closing body =>
    exact ⟨⟨initial, condition, step, body⟩, ⟨keyword, opening, middle, closing⟩, rfl⟩
  | evaluation s =>
    have hmem : t ∈ s.tokens := by
      rw [StmtPhrase.tokens] at h
      simp [h]
    exact absurd hmem (notMem_of_isInner ht s.isInner)
  | printing keyword | returning keyword | block keyword | ifThen keyword | ifElse keyword
  | whileLoop keyword =>
    exact absurd (List.cons.inj h).1.symm (Terminal.ne_forWord ht keyword (by decide))

namespace Grammar

variable {depth : Nat} {program : Slots}

/-- **The keyword of a `for` in a program begins a loop**, which ends in front of what is no part of
it. -/
theorem exists_for {pre rest : List Token} {t : Token} (ht : t.kind = .forWord)
    (h : parse depth (pre ++ t :: rest) = .done program []) :
    ∃ (l : LoopParts) (k : ForMarks) (post : List Token),
      t :: rest = (l.asFor k).tokens ++ post ∧ (l.asFor k).NearestElse ∧ (l.asFor k).Ends post := by
  obtain ⟨p, hp, -, -, -, hpe⟩ := exists_phrase_of_parse h SyntaxFault.quiet_nil
  obtain ⟨within, f, post, hf, hholds⟩ := p.exists_holds false ht hp
  obtain ⟨u, us, hu, -⟩ := f.exists_tokens_eq_cons (by simp)
  obtain rfl : t = u := by
    rw [hu] at hf
    exact (List.cons.inj hf).1
  obtain ⟨l, k, rfl⟩ := LoopParts.exists_asFor ht hu
  exact ⟨l, k, post, hf, hholds.nearestElse hpe, by
    simpa using hholds.ends hpe [] (by simp [StmtPhrase.Precedes])⟩

/-- **A `for` in a program may be replaced**, in front of anything that it ends in front of: the
program is derived with the other statement in its place, as the same tree and without faults.

**Proof sketch.** The program is read from a phrase, of which the `for` is a part. That part ends
where the given `for` does, since both are read from the same tokens. -/
theorem exists_replaced {f w : StmtPhrase .statement} {pre post rest : List Token} {t : Token}
    (ht : t.kind = .forWord) (htokens : f.tokens = t :: rest) (hf : f.NearestElse)
    (hends : f.Ends post) (hw : ∀ b, w.Replaces b f)
    (h : parse depth (pre ++ (f.tokens ++ post)) = .done program []) :
    ∃ q : StmtPhrase .declarations, q.tokens = pre ++ (w.tokens ++ post) ∧ q.NearestElse ∧
      q.tree = program ∧ q.faults false = [] := by
  obtain ⟨p, hp, rfl, hpf, -, hpe⟩ := exists_phrase_of_parse h SyntaxFault.quiet_nil
  rw [htokens, List.cons_append] at hp
  obtain ⟨within, g, post', hg, hholds⟩ := p.exists_holds false ht hp
  have hge := hholds.nearestElse hpe
  have hends' : g.Ends post' := by
    simpa using hholds.ends hpe [] (by simp [StmtPhrase.Precedes])
  obtain ⟨hsame, rfl, htree, hfaults⟩ := StmtPhrase.eq_of_tokens_append hf hge hends hends'
    (by rw [← hg, htokens, List.cons_append])
  have hreplaces : w.Replaces within g := by
    refine ⟨(hw within).tree_eq.trans htree, fun _ => (hw within).nearestElse hf, fun ho => ?_,
      fun hnone => (hw within).faults ((hfaults within).trans hnone)⟩
    exact StmtPhrase.isOpen_of_tokens_eq hf hge hsame ((hw within).isOpen ho)
  obtain ⟨q, hq, hr⟩ := hholds.replace w hreplaces
  exact ⟨q, hq, hr.nearestElse hpe, hr.tree_eq, hr.faults hpf⟩

end Grammar

end LoxLang
