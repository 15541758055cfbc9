import LoxLang.Proofs.Grammar.Firm

set_option autoImplicit false

/-!
# Up to the first failure

A reader that goes on after a failure does, up to the first one, what the reader does that fails for
good. Where that one fails, the other one notes a call that failed, before any other such call, and
whatever it does from there on only adds to what was noted.

## Main definitions

* `Reader.firstFailure` — where the first call failed that did.
* `Reader.Onward` — what is noted from one reader to a later one.
* `Reader.Tracks` — a reading does what another one does, up to where that one fails.

## Main results

* `Reader.Tracks.bind` — one reading after another.
* `Reader.tracks_slotted` — a call that goes on after a failure and one that does not.
* `Reader.tracks_declarationAt`, `Reader.tracks_program` — declarations at each depth, and programs.
-/

namespace LoxLang

namespace Reader

/-- Where the first call failed that did. Calls are noted as they end, and one that failed ends
before anything else can fail, so this is where the first failure was. -/
def firstFailure (r : Reader) : Option Nat := r.visits.findSome? Visit.failedAt

variable {α β : Type} {r r' r'' : Reader}

/-! ## What is noted -/

/-- A later reader has noted more, and the first of the new calls that failed did so at a place, if
any did. -/
structure Onward (r r' : Reader) (place : Option Nat) : Prop where
  visits : ∃ new, r'.visits = r.visits ++ new ∧ new.findSome? Visit.failedAt = place
  faults : r.faults <+: r'.faults

namespace Onward

variable {place place' : Option Nat}

lemma refl (r : Reader) : r.Onward r none := ⟨⟨[], by simp⟩, List.prefix_refl _⟩

/-- Of the calls on the way, those that came first count. -/
lemma trans (h : r.Onward r' place) (h' : r'.Onward r'' place') :
    r.Onward r'' (place.or place') := by
  obtain ⟨⟨new, hnew, hplace⟩, hfaults⟩ := h
  obtain ⟨⟨new', hnew', hplace'⟩, hfaults'⟩ := h'
  refine ⟨⟨new ++ new', by simp [hnew', hnew], ?_⟩, hfaults.trans hfaults'⟩
  rw [List.findSome?_append, hplace, hplace']

/-- One more call is noted. -/
lemma visiting (h : r.Onward r' place) (v : Visit) :
    r.Onward (r'.visiting v) (place.or v.failedAt) :=
  h.trans ⟨⟨[v], rfl, by cases hv : v.failedAt <;> simp [hv]⟩, List.prefix_refl _⟩

end Onward

/-- The reader that is left when reading ends. -/
def ending : EStateM.Result Stop Reader α → Reader
  | .ok _ r => r
  | .error _ r => r

/-- How one result comes out beside another one, of a reading that fails for good. They are the
same, without a call that failed on the way. Or the other one failed, which was noted, and the first
one went on. If the first one stopped for any reason but a failure, nothing is said. -/
inductive Agrees (r : Reader) :
    EStateM.Result Stop Reader α → EStateM.Result Stop Reader α → Prop
  | same {result : EStateM.Result Stop Reader α} (h : r.Onward (ending result) none) :
    Agrees r result result
  | beyond {result : EStateM.Result Stop Reader α} {r' : Reader}
    (h : r.Onward (ending result) (some r'.place))
    (hfaults : r'.faults <+: (ending result).faults) : Agrees r result (.error .failed r')
  | lost {stop : Stop} {r' : Reader} {result : EStateM.Result Stop Reader α} (h : stop ≠ .failed) :
    Agrees r (.error stop r') result

/-- A reading does what another one does, up to where that one fails. -/
def Tracks (x y : Reading α) : Prop := ∀ r : Reader, Agrees r (x r) (y r)

/-- What comes after more was noted. -/
lemma Agrees.after {result firm : EStateM.Result Stop Reader α} (h : r.Onward r' none)
    (ha : Agrees r' result firm) : Agrees r result firm := by
  cases ha with
  | same h' => exact .same (h.trans h')
  | beyond h' hfaults => exact .beyond (h.trans h') hfaults
  | lost hstop => exact .lost hstop

/-- What comes after a failure that was noted. -/
lemma Agrees.beyond_of {result firm : EStateM.Result Stop Reader α} {failed : Reader}
    (h : r.Onward r' (some failed.place)) (hfaults : failed.faults <+: r'.faults)
    (ha : Agrees r' result firm) : Agrees r result (.error .failed failed) := by
  cases ha with
  | same h' => exact .beyond (h.trans h') (hfaults.trans h'.faults)
  | beyond h' => exact .beyond (h.trans h') (hfaults.trans h'.faults)
  | lost hstop => exact .lost hstop

namespace Tracks

variable {x y : Reading α}

lemma pure (a : α) : Tracks (pure a) (pure a) := fun r => .same (.refl r)

/-- **One reading after another.** What comes after a failure that was noted only adds to it. -/
lemma bind {k l : α → Reading β} (hx : Tracks x y) (hk : ∀ a, Tracks (k a) (l a)) :
    Tracks (x >>= k) (y >>= l) := by
  intro r
  have ha := hx r
  rw [bind_apply, bind_apply]
  generalize x r = result, y r = firm at ha ⊢
  cases ha with
  | same h =>
    cases result with
    | ok a r' => exact (hk a r').after h
    | error stop r' => exact .same h
  | beyond h hfaults =>
    cases result with
    | ok a r' => exact (hk a r').beyond_of h hfaults
    | error stop r' => exact .beyond h hfaults
  | lost hstop => exact .lost hstop

lemma throw {stop : Stop} (h : stop ≠ .failed) (y : Reading α) : Tracks (throw stop) y :=
  fun _ => .lost h

end Tracks

/-! ## Readings that note nothing -/

/-- A reading notes nothing and does not fail. -/
def Mute (x : Reading α) : Prop := ∀ r : Reader,
  match x r with
  | .ok _ r' => r'.visits = r.visits ∧ r'.faults = r.faults
  | .error stop _ => stop ≠ .failed

namespace Mute

variable {x : Reading α}

/-- A reading that notes nothing does what it does itself. -/
lemma tracks (h : Mute x) : Tracks x x := by
  intro r
  have hr := h r
  generalize x r = result at hr ⊢
  cases result with
  | ok a r' => exact .same ⟨⟨[], by simp [ending, hr.1]⟩, by simp [ending, hr.2]⟩
  | error stop r' => exact .lost hr

lemma pure (a : α) : Mute (pure a) := fun _ => ⟨rfl, rfl⟩

lemma get : Mute get := fun _ => ⟨rfl, rfl⟩

lemma throw {stop : Stop} (h : stop ≠ .failed) : Mute (throw stop : Reading α) := fun _ => h

lemma modify {f : Reader → Reader}
    (h : ∀ r, (f r).visits = r.visits ∧ (f r).faults = r.faults) : Mute (modify f) := h

lemma bind {k : α → Reading β} (hx : Mute x) (hk : ∀ a, Mute (k a)) : Mute (x >>= k) := by
  intro r
  have hr := hx r
  rw [bind_apply]
  generalize x r = result at hr ⊢
  cases result with
  | error stop r' => exact hr
  | ok a r' =>
    have hr' := hk a r'
    dsimp only at hr ⊢
    rw [hr.1, hr.2] at hr'
    exact hr'

lemma look (index : Nat) : Mute (look index) := by
  refine .bind ?_ fun _ => get.bind fun r => ?_
  · exact modify fun _ => ⟨rfl, rfl⟩
  · cases r.tokens[index]? with
    | some t => exact pure t
    | none => exact throw (by simp)

lemma peek : Mute peek := get.bind fun r => look r.place

lemma previous : Mute previous := get.bind fun r => by
  cases r.place with
  | zero => exact throw (by simp)
  | succ place => exact look place

lemma atEnd : Mute atEnd := peek.bind fun _ => pure _

lemma advance : Mute advance := by
  refine atEnd.bind fun stop => ?_
  cases stop with
  | true => exact previous
  | false =>
    refine .bind ?_ fun _ => previous
    exact modify fun _ => ⟨rfl, rfl⟩

lemma check (kind : Token.Kind) : Mute (check kind) := atEnd.bind fun stop => by
  cases stop with
  | true => exact pure false
  | false => exact peek.bind fun _ => pure _

lemma accept (kinds : List Token.Kind) : Mute (accept kinds) := by
  induction kinds with
  | nil => exact pure none
  | cons kind kinds ih =>
    refine (check kind).bind fun taken => ?_
    cases taken with
    | true => exact advance.bind fun _ => pure _
    | false => exact ih

lemma rounds {σ : Type} {round : σ → Reading (σ ⊕ α)} (h : ∀ value, Mute (round value)) (n : Nat)
    (value : σ) : Mute (rounds round n value) := by
  induction n generalizing value with
  | zero => exact throw (by simp)
  | succ n ih =>
    rw [rounds_succ]
    refine (h value).bind fun next => ?_
    cases next with
    | inl value => exact ih value
    | inr value => exact pure value

lemma loop {σ : Type} {round : σ → Reading (σ ⊕ α)} (h : ∀ value, Mute (round value)) (value : σ) :
    Mute (loop round value) := get.bind fun _ => rounds h _ _

/-- Moving on after a failure notes nothing. -/
lemma synchronize : Mute synchronize := by
  refine advance.bind fun _ => loop (fun _ => atEnd.bind fun stop => ?_) _
  split
  · exact pure _
  · refine previous.bind fun token => ?_
    split
    · exact pure _
    · refine peek.bind fun next => ?_
      split
      · exact pure _
      · exact advance.bind fun _ => pure _

end Mute

/-! ## Single tokens and loops -/

section Combinators

variable {x y : Reading α}

lemma tracks_note (t : Token) (cause : SyntaxFault.Cause) : Tracks (note t cause) (note t cause) :=
  fun _ => .same ⟨⟨[], by simp [ending, note_apply]⟩, List.prefix_append _ _⟩

lemma tracks_fail (what : Expected) : Tracks (fail what : Reading α) (fail what) := by
  refine Mute.peek.tracks.bind fun t => (tracks_note t _).bind fun _ r => ?_
  exact .same (.refl r)

lemma tracks_expect (kind : Token.Kind) (what : Expected) :
    Tracks (expect kind what) (expect kind what) := by
  refine (Mute.check kind).tracks.bind fun taken => ?_
  split
  · exact Mute.advance.tracks
  · exact tracks_fail what

/-- A token that may be taken tells what comes after it. -/
lemma tracks_accept_else (kinds : List Token.Kind) {x' y' : Reading α} (hx : Tracks x x')
    (hy : Tracks y y') :
    Tracks (do if (← accept kinds).isSome then x else y)
      (do if (← accept kinds).isSome then x' else y') := by
  refine (Mute.accept kinds).tracks.bind fun taken => ?_
  split
  · exact hx
  · exact hy

lemma tracks_unlessNext (kind : Token.Kind) (h : Tracks x y) :
    Tracks (unlessNext kind x) (unlessNext kind y) := by
  refine (Mute.check kind).tracks.bind fun stop => ?_
  split
  · exact .pure none
  · exact h.bind fun _ => .pure _

lemma tracks_rounds {σ : Type} {round round' : σ → Reading (σ ⊕ α)}
    (h : ∀ value, Tracks (round value) (round' value)) (n : Nat) (value : σ) :
    Tracks (rounds round n value) (rounds round' n value) := by
  induction n generalizing value with
  | zero => exact .throw (by simp) _
  | succ n ih =>
    rw [rounds_succ, rounds_succ]
    refine (h value).bind fun next => ?_
    cases next with
    | inl value => exact ih value
    | inr value => exact .pure value

lemma tracks_loop {σ : Type} {round round' : σ → Reading (σ ⊕ α)}
    (h : ∀ value, Tracks (round value) (round' value)) (value : σ) :
    Tracks (loop round value) (loop round' value) :=
  Mute.get.tracks.bind fun _ => tracks_rounds h _ _

lemma tracks_folding (kinds : List Token.Kind) {step : α → Reading α}
    (h : ∀ value, Tracks (step value) (step value)) (value : α) :
    Tracks (folding kinds step value) (folding kinds step value) :=
  tracks_loop
    (fun value => tracks_accept_else _ ((h value).bind fun _ => .pure _) (.pure _)) value

lemma tracks_rows {stop : Reading Bool} (hstop : Mute stop) (h : Tracks x y) :
    Tracks (rows stop x) (rows stop y) := by
  refine tracks_loop (fun values => hstop.tracks.bind fun done => ?_) _
  split
  · exact .pure _
  · exact h.bind fun _ => .pure _

lemma tracks_listed (surplus : SyntaxFault.Cause) (h : Tracks x x) :
    Tracks (listed x surplus) (listed x surplus) := by
  refine tracks_loop (fun items => ?_) _
  unfold listedRound
  split
  · exact Mute.peek.tracks.bind fun t => (tracks_note t _).bind fun _ => h.bind fun _ =>
      tracks_accept_else _ (.pure _) (.pure _)
  · exact h.bind fun _ => tracks_accept_else _ (.pure _) (.pure _)

end Combinators

/-! ## Expressions -/

section Expressions

variable {e u : Reading Expr}

lemma tracks_chain (level : Level) (h : Tracks e e) : Tracks (chain level e) (chain level e) :=
  h.bind fun left => tracks_folding _
    (fun _ => Mute.previous.tracks.bind fun _ => h.bind fun _ => .pure _) left

lemma tracks_operation (h : Tracks e e) : Tracks (operation e) (operation e) := by
  unfold operation
  induction Level.ordered with
  | nil => exact h
  | cons level levels ih => exact tracks_chain level ih

lemma tracks_assignment (hu : Tracks u u) (he : Tracks e e) :
    Tracks (assignment u e) (assignment u e) := by
  refine hu.bind fun left => (Mute.accept _).tracks.bind fun equals => ?_
  cases equals with
  | none => exact .pure left
  | some equals =>
    refine he.bind fun right => ?_
    cases left with
    | «variable» name => exact .pure _
    | literal | grouping | unary | binary | logical | assign | call =>
      exact (tracks_note _ _).bind fun _ => .pure _

lemma tracks_primary (he : Tracks e e) : Tracks (primary e) (primary e) := by
  refine tracks_accept_else _ (.pure _) (tracks_accept_else _ (.pure _) ?_)
  refine tracks_accept_else _ (.pure _) (tracks_accept_else _ ?_ ?_)
  · exact Mute.previous.tracks.bind fun _ => .pure _
  refine tracks_accept_else _ (Mute.previous.tracks.bind fun _ => .pure _) ?_
  refine tracks_accept_else _ ?_ (tracks_fail _)
  exact he.bind fun _ => (tracks_expect _ _).bind fun _ => .pure _

lemma tracks_call (he : Tracks e e) : Tracks (call e) (call e) :=
  (tracks_primary he).bind fun callee => tracks_folding _ (fun _ =>
    (tracks_unlessNext _ (tracks_listed _ he)).bind fun _ => (tracks_expect _ _).bind fun _ =>
      .pure _) callee

lemma tracks_unary (hu : Tracks u u) (he : Tracks e e) : Tracks (unary u e) (unary u e) := by
  refine (Mute.accept _).tracks.bind fun operator => ?_
  cases operator with
  | none => exact tracks_call he
  | some operator => exact hu.bind fun _ => .pure _

/-- No call that reads a declaration is noted in an expression. -/
lemma tracks_expressionAt (depth : Nat) :
    Tracks (expressionAt depth) (expressionAt depth) ∧ Tracks (unaryAt depth) (unaryAt depth) := by
  induction depth with
  | zero => exact ⟨.throw (by simp) _, .throw (by simp) _⟩
  | succ depth ih =>
    obtain ⟨he, hu⟩ := ih
    exact ⟨tracks_assignment (tracks_operation hu) he, tracks_unary hu he⟩

end Expressions

/-! ## Statements and declarations -/

section Statements

variable {e : Reading Expr} {s s' : Reading Stmt} {d d' : Reading (Option Stmt)}

lemma tracks_expressionStatement (he : Tracks e e) :
    Tracks (expressionStatement e) (expressionStatement e) :=
  he.bind fun _ => (tracks_expect _ _).bind fun _ => .pure _

lemma tracks_variableDeclaration (he : Tracks e e) :
    Tracks (variableDeclaration e) (variableDeclaration e) := by
  refine (tracks_expect _ _).bind fun name => (Mute.accept _).tracks.bind fun equals => ?_
  cases equals with
  | none => exact (Tracks.pure _).bind fun _ => (tracks_expect _ _).bind fun _ => .pure _
  | some equals =>
    exact he.bind fun _ => (Tracks.pure _).bind fun _ => (tracks_expect _ _).bind fun _ => .pure _

lemma tracks_forInitial (he : Tracks e e) : Tracks (forInitial e) (forInitial e) :=
  tracks_accept_else _ (.pure _) <| tracks_accept_else _
    ((tracks_variableDeclaration he).bind fun _ => .pure _)
    ((tracks_expressionStatement he).bind fun _ => .pure _)

lemma tracks_forStatement (he : Tracks e e) (hs : Tracks s s') :
    Tracks (forStatement e s) (forStatement e s') :=
  (tracks_expect _ _).bind fun _ => (tracks_forInitial he).bind fun _ =>
    (tracks_unlessNext _ he).bind fun _ => (tracks_expect _ _).bind fun _ =>
      (tracks_unlessNext _ he).bind fun _ => (tracks_expect _ _).bind fun _ =>
        hs.bind fun _ => .pure _

lemma tracks_ifStatement (he : Tracks e e) (hs : Tracks s s') :
    Tracks (ifStatement e s) (ifStatement e s') := by
  refine (tracks_expect _ _).bind fun _ => he.bind fun _ => (tracks_expect _ _).bind fun _ =>
    hs.bind fun _ => (Mute.accept _).tracks.bind fun otherwise => ?_
  cases otherwise with
  | none => exact .pure _
  | some otherwise => exact hs.bind fun _ => .pure _

lemma tracks_whileStatement (he : Tracks e e) (hs : Tracks s s') :
    Tracks (whileStatement e s) (whileStatement e s') :=
  (tracks_expect _ _).bind fun _ => he.bind fun _ => (tracks_expect _ _).bind fun _ =>
    hs.bind fun _ => .pure _

lemma tracks_printStatement (he : Tracks e e) : Tracks (printStatement e) (printStatement e) :=
  he.bind fun _ => (tracks_expect _ _).bind fun _ => .pure _

lemma tracks_returnStatement (he : Tracks e e) :
    Tracks (returnStatement e) (returnStatement e) := by
  refine Mute.previous.tracks.bind fun keyword => Mute.get.tracks.bind fun r => ?_
  have hvalue : Tracks (do
      let value ← unlessNext .semicolon e
      let _ ← expect .semicolon .semicolonAfterReturned
      return Stmt.return keyword value : Reading Stmt) _ :=
    (tracks_unlessNext _ he).bind fun _ => (tracks_expect _ _).bind fun _ => .pure _
  dsimp only
  split
  · exact (tracks_note _ _).bind fun _ => hvalue
  · exact hvalue

lemma tracks_blockBody (hd : Tracks d d') : Tracks (blockBody d) (blockBody d') := by
  refine (tracks_rows ?_ hd).bind fun _ => (tracks_expect _ _).bind fun _ => .pure _
  refine (Mute.check _).bind fun closed => ?_
  split
  · exact .pure true
  · exact .atEnd

/-- How function bodies are counted makes no difference to what is noted. -/
lemma tracks_asFunctionBody {x y : Reading α} (h : Tracks x y) :
    Tracks (asFunctionBody x) (asFunctionBody y) := by
  intro r
  have hr := h { r with functions := r.functions + 1 }
  unfold asFunctionBody
  generalize x { r with functions := r.functions + 1 } = result at hr ⊢
  generalize y { r with functions := r.functions + 1 } = firm at hr ⊢
  cases hr with
  | same hon => cases result <;> exact .same ⟨hon.visits, hon.faults⟩
  | beyond hon hfaults => cases result <;> exact .beyond ⟨hon.visits, hon.faults⟩ hfaults
  | lost hstop => exact .lost hstop

lemma tracks_functionDeclaration (hd : Tracks d d') :
    Tracks (functionDeclaration d) (functionDeclaration d') :=
  (tracks_expect _ _).bind fun _ => (tracks_expect _ _).bind fun _ =>
    (tracks_unlessNext _ (tracks_listed _ (tracks_expect _ _))).bind fun _ =>
      (tracks_expect _ _).bind fun _ => (tracks_expect _ _).bind fun _ =>
        (tracks_asFunctionBody (tracks_blockBody hd)).bind fun _ => .pure _

lemma tracks_statementOf (he : Tracks e e) (hs : Tracks s s') (hd : Tracks d d') :
    Tracks (statementOf e s d) (statementOf e s' d') := by
  refine tracks_accept_else _ (tracks_forStatement he hs) ?_
  refine tracks_accept_else _ (tracks_ifStatement he hs) ?_
  refine tracks_accept_else _ (tracks_whileStatement he hs) ?_
  refine tracks_accept_else _ (tracks_printStatement he) ?_
  refine tracks_accept_else _ (tracks_returnStatement he) ?_
  exact tracks_accept_else _ ((tracks_blockBody hd).bind fun _ => .pure _)
    (tracks_expressionStatement he)

lemma tracks_declarationOf (he : Tracks e e) (hs : Tracks s s') (hd : Tracks d d') :
    Tracks (declarationOf e s d) (declarationOf e s' d') :=
  tracks_accept_else _ (tracks_functionDeclaration hd) <|
    tracks_accept_else _ (tracks_variableDeclaration he) hs

/-- A call that fails goes on behind the failure, and is noted. -/
lemma slotted_of_failed {r r' : Reader} (h : s r = .error .failed r') :
    (∃ stop left, slotted s r = .error stop left ∧ stop ≠ .failed) ∨
      ∃ left, slotted s r = .ok none left ∧ r'.Onward left (some r'.place) := by
  have hmute := Mute.synchronize r'
  cases hsync : synchronize r' with
  | ok _ left =>
    rw [hsync] at hmute
    have hon : r'.Onward left none := ⟨⟨[], by simp [hmute.1]⟩, by simp [hmute.2]⟩
    exact .inr ⟨left.visiting ⟨r.place, some r'.place, left.place, r.functions, left.functions⟩,
      by simp only [slotted_apply, h, hsync], hon.visiting _⟩
  | error stop left =>
    rw [hsync] at hmute
    exact .inl ⟨stop, left, by simp only [slotted_apply, h, hsync], hmute⟩

/-- **A call that goes on after a failure and one that does not.** The failure is noted by the
innermost call around it, where the other one ends with it. -/
lemma tracks_slotted (h : Tracks s s') : Tracks (slotted s) (keeping s') := by
  intro r
  have hr := h r
  rw [keeping_apply]
  cases hs : s r with
  | ok a r' =>
    rw [slotted_apply, hs]
    rw [hs] at hr
    generalize s' r = firm at hr ⊢
    cases hr with
    | same hon => exact .same (hon.visiting _)
    | beyond hon hfaults => exact .beyond (hon.visiting _) hfaults
  | error stop r' =>
    by_cases hstop : stop = .failed
    · subst hstop
      rw [hs] at hr
      rcases slotted_of_failed hs with ⟨stop, left, hslotted, hstop⟩ | ⟨left, hslotted, hon'⟩
      · rw [hslotted]
        exact .lost hstop
      · rw [hslotted]
        generalize s' r = firm at hr ⊢
        cases hr with
        | same hon => exact .beyond (hon.trans hon') hon'.faults
        | beyond hon hfaults => exact .beyond (hon.trans hon') (hfaults.trans hon'.faults)
        | lost hstop => contradiction
    · have hslotted : slotted s r = .error stop r' := by
        rw [slotted_apply, hs]
        cases stop <;> first | rfl | contradiction
      rw [hslotted]
      exact .lost hstop

/-- **Declarations up to the first failure**, at each depth.

**Proof sketch.** Induction on the depth, for statements and declarations at once. -/
theorem tracks_declarationAt (depth : Nat) :
    Tracks (statementAt depth) (firmStatementAt depth) ∧
      Tracks (declarationAt depth) (firmDeclarationAt depth) := by
  induction depth with
  | zero => exact ⟨.throw (by simp) _, .throw (by simp) _⟩
  | succ depth ih =>
    obtain ⟨hs, hd⟩ := ih
    have he := (tracks_expressionAt depth).1
    rw [statementAt_succ, declarationAt_succ, firmStatementAt, firmDeclarationAt]
    exact ⟨tracks_statementOf he hs hd, tracks_slotted (tracks_declarationOf he hs hd)⟩

/-- Programs up to the first failure. -/
lemma tracks_program (depth : Nat) : Tracks (program depth) (firmProgram depth) :=
  tracks_rows .atEnd (tracks_declarationAt depth).2

end Statements

end Reader

end LoxLang
