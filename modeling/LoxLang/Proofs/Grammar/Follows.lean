import LoxLang.Proofs.Grammar.Reader
import LoxLang.Proofs.Grammar.Running

set_option autoImplicit false

/-!
# Reading by a cursor is parsing

A reader whose place is that of a cursor does what the parser does that answers for the tokens ahead
of it. It never stops but where the parser fails or gives up, so its place is always in the list, there
is a token before it whenever that one is looked at, and every loop ends.

## Main definitions

* `Reader.Visit.Good`, `Reader.Sane` — what holds of every reader on its way.
* `Reader.Stands` — a reader stands where a cursor does.
* `Reader.Goes` — a step from one cursor to another.
* `Reader.Follows` — a reading does what a parser does.

## Main results

* `Reader.Follows.bind` — one reading after another.
* `Reader.goes_advance`, `Reader.goes_accept` — the steps of a cursor.
-/

namespace LoxLang

namespace Reader

open LoxLang.Parser (run_bind run_bind_of_ok run_bind_of_after run_peek run_pure run_acceptIf_cons
  run_select_of_some run_select_of_none run_folding_cons run_folding_of_stop run_rows_nil
  run_rows_cons)

/-! ## One parser after another -/

/-- Parsers follow the laws of sequences. This is no instance, as simplification would rewrite runs of
parsers into another form by it. -/
lemma parser_isLawful : LawfulMonad Parser := LawfulMonad.mk' Parser
  (fun p => by
    ext b ts
    show (p >>= fun v => pure (id v)).run b ts = _
    rw [run_bind]
    cases p.run b ts <;> simp)
  (fun v f => by
    ext b ts
    exact Parser.run_pure_bind v)
  (fun p f g => by
    ext b ts
    simp only [run_bind]
    cases p.run b ts with
    | ok v mid faults =>
      dsimp only
      cases (f v).run b mid with
      | ok w rest more => exact (Reply.after_after _ _ _).symm
      | failed => rfl
      | tooDeep => rfl
    | failed => rfl
    | tooDeep => rfl)

/-! ## Readers on their way -/

/-- What holds of every call that read a declaration. It began in front of a token, and the place moved
on; function bodies are counted as before. If it failed, the place went from there to the end, behind a
semicolon or in front of the beginning of a statement. It passed the token at which the call failed, if
that was not the end, and of the tokens behind that one none that begins a statement. -/
structure Visit.Good (tokens : List Token) (v : Visit) : Prop where
  advances : v.start < v.stop
  stop_lt : v.stop < tokens.length
  functions : v.functionsAfter = v.functionsBefore
  within : ∀ k ∈ v.failedAt, v.start ≤ k ∧ k ≤ v.stop
  passes : ∀ k ∈ v.failedAt, k = v.stop → k + 1 = tokens.length
  skips : ∀ k ∈ v.failedAt, ∀ i, k < i → i < v.stop → ∀ t ∈ tokens[i]?,
    t.kind.startsStatement = false
  stops : ∀ k ∈ v.failedAt, v.stop + 1 = tokens.length ∨
    (∃ t ∈ tokens[v.stop - 1]?, t.kind = .semicolon) ∨
      ∃ t ∈ tokens[v.stop]?, t.kind.startsStatement = true

/-- What holds of every reader on its way: its place is in the list and never went back, and every call
that read a declaration was a good one. -/
structure Sane (r : Reader) : Prop where
  place_lt : r.place < r.tokens.length
  trail_sorted : r.trail.Pairwise (· ≤ ·)
  trail_le : ∀ place ∈ r.trail, place ≤ r.place
  visits : ∀ v ∈ r.visits, v.Good r.tokens

/-- A reader stands where a cursor does, and the mark for the end is the last token alone. -/
structure Stands (r : Reader) (c : Cursor) : Prop where
  tokens_eq : r.tokens = c.passed.reverse ++ c.ahead ++ [c.last]
  place_eq : r.place = c.index
  last : c.last.kind = .endOfSource
  ahead : ∀ t ∈ c.ahead, t.kind ≠ .endOfSource
  sane : r.Sane

variable {α β : Type} {r r' : Reader} {c c' : Cursor}

/-- One reading after another: the second does not take place if the first stops. -/
lemma bind_apply (x : Reading α) (k : α → Reading β) (r : Reader) : (x >>= k) r =
    match x r with
    | .ok a r => k a r
    | .error stop r => .error stop r := by
  show EStateM.bind x k r = _
  unfold EStateM.bind
  cases x r <;> rfl

lemma get_apply (r : Reader) : (get : Reading Reader) r = .ok r r := rfl

lemma modify_apply (f : Reader → Reader) (r : Reader) :
    (modify f : Reading Unit) r = .ok () (f r) := rfl

namespace Stands

/-- The token at a place in the list, counted from the cursor. -/
lemma getElem?_add (h : r.Stands c) (i : Nat) :
    r.tokens[c.index + i]? = (c.ahead ++ [c.last])[i]? := by
  rw [h.tokens_eq, List.append_assoc, Cursor.index, ← List.length_reverse,
    List.getElem?_append_right (Nat.le_add_right _ _), Nat.add_sub_cancel_left]

lemma getElem?_index (h : r.Stands c) : r.tokens[c.index]? = some c.peek := by
  have hadd := h.getElem?_add 0
  rw [Nat.add_zero] at hadd
  rw [hadd, Cursor.peek]
  cases c.ahead <;> rfl

lemma length_eq (h : r.Stands c) : r.tokens.length = c.index + c.ahead.length + 1 := by
  simp [h.tokens_eq, Cursor.index]
  omega

/-- The mark for the end is the only one of its kind. -/
lemma atEnd_eq (h : r.Stands c) : (c.peek.kind == .endOfSource) = c.atEnd := by
  have hahead := h.ahead
  unfold Cursor.peek Cursor.atEnd
  cases hc : c.ahead with
  | nil => simpa using h.last
  | cons t rest =>
    rw [hc] at hahead
    simpa using hahead t List.mem_cons_self

end Stands

/-! ## Steps of a cursor -/

/-- A reader has the same tokens, faults, count of function bodies and calls as another one. -/
structure Shares (r r' : Reader) : Prop where
  tokens_eq : r'.tokens = r.tokens
  faults_eq : r'.faults = r.faults
  functions_eq : r'.functions = r.functions
  visits_eq : r'.visits = r.visits

/-- A reading takes a reader from one cursor to another and gives a value. Nothing else changes but
the trail. -/
def Goes (c : Cursor) (x : Reading α) (a : α) (c' : Cursor) : Prop :=
  ∀ r : Reader, r.Stands c → ∃ r', x r = .ok a r' ∧ r'.Stands c' ∧ r.Shares r'

lemma Shares.trans {r'' : Reader} (h : r.Shares r') (h' : r'.Shares r'') : r.Shares r'' :=
  ⟨h'.tokens_eq.trans h.tokens_eq, h'.faults_eq.trans h.faults_eq,
    h'.functions_eq.trans h.functions_eq, h'.visits_eq.trans h.visits_eq⟩

lemma goes_pure (a : α) (c : Cursor) : Goes c (pure a) a c :=
  fun r h => ⟨r, rfl, h, rfl, rfl, rfl, rfl⟩

lemma Goes.bind {x : Reading α} {k : α → Reading β} {a : α} {b : β} {c'' : Cursor}
    (hx : Goes c x a c') (hk : Goes c' (k a) b c'') : Goes c (x >>= k) b c'' := by
  intro r h
  obtain ⟨r', hr', hstands, hshares⟩ := hx r h
  obtain ⟨r'', hr'', hstands', hshares'⟩ := hk r' hstands
  exact ⟨r'', by simp only [bind_apply, hr', hr''], hstands', hshares.trans hshares'⟩

/-- A token at a place in the list is looked at. -/
lemma goes_look {i : Nat} {t : Token}
    (h : (c.passed.reverse ++ c.ahead ++ [c.last])[i]? = some t) : Goes c (look i) t c := by
  intro r hr
  let r' : Reader := { r with trail := r.trail ++ [r.place] }
  have ht : r'.tokens[i]? = some t := by
    show r.tokens[i]? = some t
    rw [hr.tokens_eq, h]
  have hlook : look i r = .ok t r' := by
    simp only [look, bind_apply, get_apply, modify_apply]
    rw [show r.tokens[i]? = some t from ht]
    rfl
  have hsane : r'.Sane := by
    refine ⟨hr.sane.place_lt, ?_, ?_, hr.sane.visits⟩
    · exact List.pairwise_append.2 ⟨hr.sane.trail_sorted, List.pairwise_singleton _ _,
        fun p hp q hq => by simpa using (List.mem_singleton.1 hq) ▸ hr.sane.trail_le p hp⟩
    · intro p hp
      rcases List.mem_append.1 hp with hp | hp
      · exact hr.sane.trail_le p hp
      · exact Nat.le_of_eq (List.mem_singleton.1 hp)
  exact ⟨r', hlook, ⟨hr.tokens_eq, hr.place_eq, hr.last, hr.ahead, hsane⟩, rfl, rfl, rfl, rfl⟩

/-- What a reading does may be said once it is known where the reader stands. -/
lemma Goes.of_stands {x : Reading α} {a : α} (h : ∀ r : Reader, r.Stands c → Goes c x a c') :
    Goes c x a c' := fun r hr => h r hr r hr

lemma goes_peek (c : Cursor) : Goes c peek c.peek c := by
  intro r hr
  have hlook : Goes c (look r.place) c.peek c := by
    apply goes_look
    rw [← hr.tokens_eq, hr.place_eq]
    exact hr.getElem?_index
  exact hlook r hr

/-- There is a token before a cursor that has passed one. -/
lemma goes_previous (h : c.passed ≠ []) : Goes c previous c.previous c := by
  obtain ⟨passed, ahead, last⟩ := c
  obtain ⟨t, passed, rfl⟩ := List.exists_cons_of_ne_nil h
  intro r hr
  have hlook : Goes ⟨t :: passed, ahead, last⟩ (look passed.length) t ⟨t :: passed, ahead, last⟩ := by
    apply goes_look
    simp
  have hplace : r.place = passed.length + 1 := hr.place_eq
  have hprevious : previous r = look passed.length r := by
    simp only [previous, bind_apply, get_apply]
    rw [hplace]
  rw [hprevious]
  exact hlook r hr

/-- The token before a cursor is the one that was passed last. -/
lemma goes_previous_of_head {t : Token} (h : c.passed.head? = some t) : Goes c previous t c := by
  have hprevious : c.previous = t := by rw [Cursor.previous, List.headD_eq_head?_getD, h]; rfl
  exact hprevious ▸ goes_previous fun hnil => by simp [hnil] at h

lemma goes_atEnd (c : Cursor) : Goes c atEnd c.atEnd c := by
  refine .of_stands fun r hr => ?_
  rw [← hr.atEnd_eq]
  exact (goes_peek c).bind (goes_pure _ c)

/-- **A reader moves on as a cursor does**, if it has passed a token then. -/
lemma goes_advance (h : c.advance.passed ≠ []) : Goes c advance c.advance.previous c.advance := by
  refine (goes_atEnd c).bind ?_
  obtain ⟨passed, ahead, last⟩ := c
  cases ahead with
  | nil => exact goes_previous h
  | cons t rest =>
    have hmove : Goes ⟨passed, t :: rest, last⟩
        (modify fun r => { r with place := r.place + 1 }) () ⟨t :: passed, rest, last⟩ := by
      intro r hr
      refine ⟨{ r with place := r.place + 1 }, rfl, ⟨?_, ?_, hr.last, ?_, ?_⟩, rfl, rfl, rfl, rfl⟩
      · simpa using hr.tokens_eq
      · show r.place + 1 = passed.length + 1
        rw [hr.place_eq]
        rfl
      · exact fun u hu => hr.ahead u (List.mem_cons_of_mem t hu)
      · refine ⟨?_, hr.sane.trail_sorted, ?_, hr.sane.visits⟩
        · have hlength := hr.length_eq
          have hplace := hr.place_eq
          simp only [List.length_cons] at hlength
          show r.place + 1 < r.tokens.length
          omega
        · exact fun p hp => Nat.le_succ_of_le (hr.sane.trail_le p hp)
    exact hmove.bind (goes_previous h)

/-- The next token is passed. -/
lemma goes_advance_cons (passed rest : List Token) (t last : Token) :
    Goes ⟨passed, t :: rest, last⟩ advance t ⟨t :: passed, rest, last⟩ :=
  goes_advance (List.cons_ne_nil t passed : (Cursor.advance ⟨passed, t :: rest, last⟩).passed ≠ [])

/-- At the end no token is passed, and the last one is still the token before the place. -/
lemma goes_advance_nil (t last : Token) (passed : List Token) :
    Goes ⟨t :: passed, [], last⟩ advance t ⟨t :: passed, [], last⟩ :=
  goes_advance (List.cons_ne_nil t passed : (Cursor.advance ⟨t :: passed, [], last⟩).passed ≠ [])

lemma goes_check (kind : Token.Kind) (c : Cursor) : Goes c (check kind) (c.check kind) c := by
  refine (goes_atEnd c).bind ?_
  obtain ⟨passed, ahead, last⟩ := c
  cases ahead with
  | nil => exact goes_pure false _
  | cons t rest => exact (goes_peek _).bind (goes_pure _ _)

/-- **A reader takes a token as a cursor does.** -/
lemma goes_accept (kinds : List Token.Kind) (c : Cursor) :
    Goes c (accept kinds) (c.match? kinds).1 (c.match? kinds).2 := by
  induction kinds with
  | nil => exact goes_pure none c
  | cons kind kinds ih =>
    refine (goes_check kind c).bind ?_
    cases hcheck : c.check kind with
    | true =>
      have hpassed : c.advance.passed ≠ [] := by
        unfold Cursor.check at hcheck
        unfold Cursor.advance
        cases hahead : c.ahead with
        | nil => simp [hahead] at hcheck
        | cons t rest => simp
      have hmatch : c.match? (kind :: kinds) = (some c.advance.previous, c.advance) := by
        simp [Cursor.match?, hcheck]
      rw [hmatch]
      exact (goes_advance hpassed).bind (goes_pure (some c.advance.previous) c.advance)
    | false =>
      have hmatch : c.match? (kind :: kinds) = c.match? kinds := by simp [Cursor.match?, hcheck]
      rw [hmatch]
      exact ih

/-- The token in front of a cursor is taken if it is of one of the kinds. -/
lemma goes_accept_some {kinds : List Token.Kind} {passed rest : List Token} {t last : Token}
    (h : t.kind ∈ kinds) :
    Goes ⟨passed, t :: rest, last⟩ (accept kinds) (some t) ⟨t :: passed, rest, last⟩ := by
  have hgoes := goes_accept kinds ⟨passed, t :: rest, last⟩
  have hany : kinds.any (Cursor.check ⟨passed, t :: rest, last⟩) = true :=
    List.any_eq_true.2 ⟨t.kind, h, by simp [Cursor.check]⟩
  simpa [Cursor.match?, hany, Cursor.advance, Cursor.previous] using hgoes

/-- No token is taken if the one in front of a cursor is of another kind, or there is none. -/
lemma goes_accept_none {kinds : List Token.Kind} (h : ∀ t ∈ c.ahead.head?, t.kind ∉ kinds) :
    Goes c (accept kinds) none c := by
  have hgoes := goes_accept kinds c
  have hany : kinds.any c.check = false := by
    rw [List.any_eq_false]
    intro kind hkind hcheck
    obtain ⟨passed, ahead, last⟩ := c
    cases ahead with
    | nil => simp [Cursor.check] at hcheck
    | cons t rest =>
      have heq : t.kind = kind := by simpa [Cursor.check] using hcheck
      exact h t rfl (heq ▸ hkind)
  simpa [Cursor.match?, hany] using hgoes

/-! ## Readings that follow parsers -/

/-- What a reader has become when it stands at a cursor, with more faults noted. -/
structure Reached (r r' : Reader) (c : Cursor) (faults : List SyntaxFault) : Prop where
  stands : r'.Stands c
  tokens_eq : r'.tokens = r.tokens
  faults_eq : r'.faults = r.faults ++ faults
  functions_eq : r'.functions = r.functions

/-- What a reading comes to is what a parser answers. -/
inductive Answers (r : Reader) : EStateM.Result Stop Reader α → Reply α → Prop
  | ok {a : α} {r' : Reader} {c : Cursor} {faults : List SyntaxFault}
    (h : r.Reached r' c faults) : Answers r (.ok a r') (.ok a c.ahead faults)
  | failed {r' : Reader} {c : Cursor} {faults : List SyntaxFault}
    (h : r.Reached r' c faults) : Answers r (.error .failed r') (.failed c.ahead faults)
  | tooDeep {r' : Reader} (hsane : r'.Sane) (htokens : r'.tokens = r.tokens)
    (hfunctions : r'.functions = r.functions) : Answers r (.error .tooDeep r') .tooDeep

/-- From a cursor on, a reading does what a parser does. -/
def Follows (c : Cursor) (x : Reading α) (p : Parser α) : Prop :=
  ∀ r : Reader, r.Stands c → Answers r (x r) (p.run (decide (0 < r.functions)) c.ahead)

namespace Reached

lemma refl (h : r.Stands c) : r.Reached r c [] := ⟨h, rfl, (List.append_nil _).symm, rfl⟩

lemma trans {r'' : Reader} {fs gs : List SyntaxFault} (h : r.Reached r' c fs)
    (h' : r'.Reached r'' c' gs) : r.Reached r'' c' (fs ++ gs) := by
  refine ⟨h'.stands, h'.tokens_eq.trans h.tokens_eq, ?_, h'.functions_eq.trans h.functions_eq⟩
  rw [h'.faults_eq, h.faults_eq, List.append_assoc]

lemma of_shares (h : r.Shares r') (hs : r'.Stands c) : r.Reached r' c [] :=
  ⟨hs, h.tokens_eq, h.faults_eq.trans (List.append_nil _).symm, h.functions_eq⟩

end Reached

/-- What is answered after some faults were noted. -/
lemma Answers.after {result : EStateM.Result Stop Reader α} {reply : Reply α}
    {faults : List SyntaxFault} (h : r.Reached r' c faults) (ha : Answers r' result reply) :
    Answers r result (reply.after faults) := by
  cases ha with
  | ok h' => exact .ok (h.trans h')
  | failed h' => exact .failed (h.trans h')
  | tooDeep hsane htokens hfunctions =>
    exact .tooDeep hsane (htokens.trans h.tokens_eq) (hfunctions.trans h.functions_eq)

section Follows

variable {x : Reading α} {k : α → Reading β} {p : Parser α} {f : α → Parser β}

lemma follows_pure (a : α) (c : Cursor) : Follows c (pure a) (pure a) :=
  fun _ h => .ok (.refl h)

lemma follows_tooDeep (c : Cursor) : Follows c (throw .tooDeep : Reading α) Parser.tooDeep :=
  fun _ h => .tooDeep h.sane rfl rfl

/-- A parser that answers the same is followed as well. -/
lemma Follows.congr {q : Parser α} (h : Follows c x q)
    (hrun : ∀ b, p.run b c.ahead = q.run b c.ahead) : Follows c x p := by
  intro r hr
  rw [hrun]
  exact h r hr

/-- A step follows a parser that answers with its value, in front of the tokens that are left. -/
lemma Goes.answers {a : α} (hx : Goes c x a c') (hrun : ∀ b, p.run b c.ahead = .ok a c'.ahead []) :
    Follows c x p := by
  intro r hr
  obtain ⟨r', hr', hstands, hshares⟩ := hx r hr
  rw [hr', hrun]
  exact .ok (.of_shares hshares hstands)

/-- After a step that takes no token a reading follows what it follows from there. -/
lemma Goes.follows {q : Parser β} {a : α} (hx : Goes c x a c') (hk : Follows c' (k a) q)
    {p : Parser β} (hrun : ∀ b, p.run b c.ahead = q.run b c'.ahead) : Follows c (x >>= k) p := by
  intro r hr
  obtain ⟨r', hr', hstands, hshares⟩ := hx r hr
  have hanswers := (hk r' hstands).after (.of_shares hshares hstands)
  rw [Reply.after_nil, hshares.functions_eq, ← hrun] at hanswers
  simpa only [bind_apply, hr'] using hanswers

/-- After a look at the tokens a reading follows what it follows then. -/
lemma Goes.look {p : Parser β} {a : α} (hx : Goes c x a c) (hk : Follows c (k a) p) :
    Follows c (x >>= k) p := hx.follows hk fun _ => rfl

/-- **One reading after another** follows one parser after another. -/
lemma Follows.bind_of_ok (hx : Follows c x p)
    (hk : ∀ b v c' faults, p.run b c.ahead = .ok v c'.ahead faults → Follows c' (k v) (f v)) :
    Follows c (x >>= k) (p >>= f) := by
  intro r hr
  have hanswers := hx r hr
  have hgo := hk (decide (0 < r.functions))
  rw [Parser.run_bind, bind_apply]
  generalize x r = result at hanswers ⊢
  generalize p.run (decide (0 < r.functions)) c.ahead = reply at hanswers hgo ⊢
  cases hanswers with
  | @ok a r' c' faults h =>
    have hnext := hgo a c' faults rfl r' h.stands
    rw [h.functions_eq] at hnext
    exact hnext.after h
  | failed h => exact .failed h
  | tooDeep hsane htokens hfunctions => exact .tooDeep hsane htokens hfunctions

lemma Follows.bind (hx : Follows c x p) (hk : ∀ v c', Follows c' (k v) (f v)) :
    Follows c (x >>= k) (p >>= f) := hx.bind_of_ok fun _ v c' _ _ => hk v c'

end Follows

/-! ### Faults -/

/-- What is noted at the next token, or past the last one. -/
lemma Stands.noted_eq (h : r.Stands c) :
    (if c.peek.kind == .endOfSource then none else some c.peek) = c.ahead.head? := by
  rw [h.atEnd_eq]
  unfold Cursor.atEnd Cursor.peek
  cases c.ahead <;> rfl

/-- Noting a fault leaves a reader where it stands. -/
lemma Stands.noting (h : r.Stands c) (faults : List SyntaxFault) :
    r.Reached { r with faults := r.faults ++ faults } c faults :=
  ⟨⟨h.tokens_eq, h.place_eq, h.last, h.ahead, h.sane.place_lt, h.sane.trail_sorted, h.sane.trail_le,
    h.sane.visits⟩, rfl, rfl, rfl⟩

lemma note_apply (t : Token) (cause : SyntaxFault.Cause) (r : Reader) : note t cause r =
    .ok () { r with faults :=
      r.faults ++ [⟨cause, if t.kind == .endOfSource then none else some t⟩] } := rfl

lemma follows_note (cause : SyntaxFault.Cause) (c : Cursor) :
    Follows c (do note (← peek) cause) (Parser.note cause) := by
  refine (goes_peek c).look fun r hr => ?_
  rw [note_apply, hr.noted_eq]
  exact .ok (hr.noting _)

lemma follows_noteAt {t : Token} (h : t.kind ≠ .endOfSource) (cause : SyntaxFault.Cause)
    (c : Cursor) : Follows c (note t cause) (Parser.noteAt t cause) := by
  intro r hr
  rw [note_apply, if_neg (by simpa using h)]
  exact .ok (hr.noting _)

lemma follows_fail (what : Expected) (c : Cursor) :
    Follows c (fail what : Reading α) (Parser.fail what) := by
  refine (goes_peek c).look fun r hr => ?_
  rw [bind_apply, note_apply, hr.noted_eq]
  exact .failed (hr.noting _)

/-! ### Single tokens -/

lemma follows_expect (kind : Token.Kind) (what : Expected) (c : Cursor) :
    Follows c (expect kind what) (Parser.expect kind what) := by
  refine (goes_check kind c).look ?_
  obtain ⟨passed, ahead, last⟩ := c
  cases ahead with
  | nil => exact (follows_fail what _).congr fun _ => rfl
  | cons t rest =>
    have hcheck : Cursor.check ⟨passed, t :: rest, last⟩ kind = (t.kind == kind) := rfl
    by_cases hk : t.kind = kind
    · simp only [hcheck, hk, beq_self_eq_true, if_true]
      exact (goes_advance_cons passed rest t last).answers fun _ => by simp [Parser.expect, hk]
    · simp only [hcheck, beq_eq_false_iff_ne.2 hk, if_false, Bool.false_eq_true]
      exact (follows_fail what _).congr fun _ => by simp [Parser.expect, Parser.fail, hk]

/-- **A token that may be taken is taken alike.** What follows may look at it once more. -/
lemma follows_accept {kinds : List Token.Kind} {belongs : Token.Kind → Bool}
    (hbelongs : ∀ kind, belongs kind = true ↔ kind ∈ kinds) {k : Option Token → Reading β}
    {f : Option Token → Parser β} (hsome : ∀ t (c' : Cursor), t.kind ∈ kinds →
      c'.passed.head? = some t → Follows c' (k (some t)) (f (some t)))
    (hnone : Follows c (k none) (f none)) :
    Follows c (accept kinds >>= k) (Parser.acceptIf belongs >>= f) := by
  obtain ⟨passed, ahead, last⟩ := c
  cases ahead with
  | nil =>
    refine (goes_accept_none (by simp)).follows hnone fun b => ?_
    have hend : (Parser.acceptIf belongs).run b [] = .ok none [] [] := rfl
    rw [run_bind_of_ok hend, Reply.after_nil]
  | cons t rest =>
    by_cases hk : t.kind ∈ kinds
    · have hb := (hbelongs t.kind).2 hk
      refine (goes_accept_some hk).follows (hsome t _ hk rfl) fun b => ?_
      rw [run_bind_of_ok (by rw [run_acceptIf_cons, if_pos hb]), Reply.after_nil]
    · have hb : ¬ belongs t.kind = true := fun hb => hk ((hbelongs t.kind).1 hb)
      refine (goes_accept_none (by simpa using hk)).follows hnone fun b => ?_
      rw [run_bind_of_ok (by rw [run_acceptIf_cons, if_neg hb]), Reply.after_nil]

/-- **A token that selects what follows selects it alike**, if all that comes before it is passed
over. -/
lemma follows_accept_select {kinds : List Token.Kind}
    {table : Token.Kind → Option (Token → Parser β)} {k : Option Token → Reading β} {p : Parser β}
    (hsome : ∀ t (c' : Cursor), t.kind ∈ kinds → c'.passed.head? = some t →
      ∃ f, table t.kind = some f ∧ Follows c' (k (some t)) (f t))
    (hnone : (∀ t ∈ c.ahead.head?, t.kind ∉ kinds) → Follows c (k none) (Parser.select table p)) :
    Follows c (accept kinds >>= k) (Parser.select table p) := by
  obtain ⟨passed, ahead, last⟩ := c
  cases ahead with
  | nil => exact (goes_accept_none (by simp)).look (hnone (by simp))
  | cons t rest =>
    by_cases hk : t.kind ∈ kinds
    · obtain ⟨f, hf, hfollows⟩ := hsome t ⟨t :: passed, rest, last⟩ hk rfl
      exact (goes_accept_some hk).follows hfollows fun b => run_select_of_some hf b rest
    · exact (goes_accept_none (by simpa using hk)).look (hnone (by simpa using hk))

/-- One kind of token alone selects what follows. -/
lemma follows_accept_entry {kind : Token.Kind} {table : Token.Kind → Option (Token → Parser β)}
    {f : Token → Parser β} (htable : table kind = some f) {k : Option Token → Reading β}
    {p : Parser β} (hsome : ∀ t (c' : Cursor), t.kind = kind → c'.passed.head? = some t →
      Follows c' (k (some t)) (f t))
    (hnone : (∀ t ∈ c.ahead.head?, t.kind ≠ kind) → Follows c (k none) (Parser.select table p)) :
    Follows c (accept [kind] >>= k) (Parser.select table p) := by
  refine follows_accept_select (fun t c' hk ht => ?_) (by simpa using hnone)
  have hkind := List.mem_singleton.1 hk
  exact ⟨f, by rw [hkind, htable], hsome t c' hkind ht⟩

/-- A first token that selects nothing is left to what comes last. -/
lemma follows_otherwise {table : Token.Kind → Option (Token → Parser α)} {x : Reading α}
    {p : Parser α} (htable : ∀ t ∈ c.ahead.head?, table t.kind = none) (hx : Follows c x p) :
    Follows c x (Parser.select table p) :=
  hx.congr fun b => run_select_of_none htable b

lemma follows_unlessNext {x : Reading α} {p : Parser α} (kind : Token.Kind)
    (hx : Follows c x p) : Follows c (unlessNext kind x) (Grammar.unlessNext kind p) := by
  have hcheck : c.check kind = ((c.ahead.head?.map Token.kind) == some kind) := by
    unfold Cursor.check
    cases c.ahead <;> simp
  have hrun : ∀ b, (Grammar.unlessNext kind p).run b c.ahead = (if c.check kind then pure none
      else do let value ← p; return some value : Parser (Option α)).run b c.ahead := by
    intro b
    rw [Grammar.unlessNext, run_bind_of_ok (run_peek _ _), Reply.after_nil, hcheck]
  refine .congr ((goes_check kind c).look ?_) hrun
  split
  · exact follows_pure none c
  · exact hx.bind fun v c' => follows_pure (some v) c'

/-! ### Loops -/

/-- A round leaves the loop, or the loop goes on from the value that the round gives. -/
lemma rounds_succ {σ : Type} (round : σ → Reading (σ ⊕ α)) (n : Nat) (value : σ) :
    rounds round (n + 1) value = round value >>= Sum.elim (rounds round n) pure := by
  rw [rounds]
  congr 1
  funext next
  cases next <;> rfl

/-- A round that leaves the loop ends it. -/
lemma goes_rounds_leave {σ : Type} {round : σ → Reading (σ ⊕ α)} {value : σ} {a : α} {n : Nat}
    (hn : 0 < n) (h : Goes c (round value) (.inr a) c') : Goes c (rounds round n value) a c' := by
  obtain ⟨n, rfl⟩ := Nat.exists_eq_succ_of_ne_zero (Nat.ne_of_gt hn)
  rw [rounds_succ]
  exact h.bind (goes_pure a c')

/-- A loop has more rounds to go than there are tokens ahead. -/
lemma goes_loop {σ : Type} {round : σ → Reading (σ ⊕ α)} {value : σ} {a : α}
    (h : ∀ n, c.ahead.length < n → Goes c (rounds round n value) a c') :
    Goes c (loop round value) a c' := by
  intro r hr
  have hlength := hr.length_eq
  exact h (r.tokens.length + 1) (by omega) r hr

lemma follows_loop {σ : Type} {round : σ → Reading (σ ⊕ α)} {value : σ} {p : Parser α}
    (h : ∀ n, c.ahead.length < n → Follows c (rounds round n value) p) :
    Follows c (loop round value) p := by
  intro r hr
  have hlength := hr.length_eq
  exact h (r.tokens.length + 1) (by omega) r hr

lemma follows_folding {kinds : List Token.Kind} {enter : Token.Kind → Bool}
    (henter : ∀ kind, enter kind = true ↔ kind ∈ kinds) {step : α → Reading α}
    {next : α → Token → Parser α} (hstep : ∀ v t (c : Cursor), c.passed.head? = some t →
      Follows c (step v) (next v t)) (v : α) (c : Cursor) :
    Follows c (folding kinds step v) (Parser.folding enter next v) := by
  refine follows_loop fun n hn => ?_
  induction n generalizing v c with
  | zero => exact absurd hn (Nat.not_lt_zero _)
  | succ n ih =>
    rw [rounds_succ, foldingRound, bind_assoc]
    obtain ⟨passed, ahead, last⟩ := c
    cases ahead with
    | nil =>
      refine (goes_accept_none (by simp)).look ?_
      exact (follows_pure v _).congr fun b => by simp
    | cons t rest =>
      by_cases hk : t.kind ∈ kinds
      · have he := (henter t.kind).2 hk
        have hrest : Follows ⟨t :: passed, rest, last⟩ (step v >>= rounds (foldingRound kinds step) n)
            (next v t >>= Parser.folding enter next) := by
          refine (hstep v t _ rfl).bind_of_ok fun b w c' faults hr => ih w c' ?_
          have hw := (next v t).within b rest
          rw [hr] at hw
          have := List.IsSuffix.length_le hw
          simp at hn
          omega
        refine (goes_accept_some hk).follows ?_ fun b => by rw [run_folding_cons, if_pos he]
        simpa using hrest
      · have he : ¬ enter t.kind = true := fun he => hk ((henter t.kind).1 he)
        refine (goes_accept_none (by simpa using hk)).look ?_
        exact (follows_pure v _).congr fun b => by rw [run_folding_cons, if_neg he, run_pure]

/-- **Rows are read alike** if it is time to stop in front of the same tokens, and each item is read
alike in front of a token. -/
lemma follows_rows {stop : Reading Bool} {halt : Token.Kind → Bool} {x : Reading α}
    {item : Advancing α}
    (hstop : ∀ c, Goes c stop (c.ahead.head?.all (halt ·.kind)) c)
    (hitem : ∀ c : Cursor, c.ahead ≠ [] → Follows c x item.toParser) (c : Cursor) :
    Follows c (rows stop x) (Parser.rows halt item) := by
  have := parser_isLawful
  -- the values so far stand in front of those that are still to be read
  have hrounds : ∀ n values (c : Cursor), c.ahead.length < n →
      Follows c (rounds (rowsRound stop x) n values)
        ((values ++ ·) <$> Parser.rows halt item) := by
    intro n
    induction n with
    | zero => exact fun _ _ hn => absurd hn (Nat.not_lt_zero _)
    | succ n ih =>
      intro values c hn
      rw [rounds_succ, rowsRound, bind_assoc]
      refine (hstop c).look ?_
      obtain ⟨passed, ahead, last⟩ := c
      cases ahead with
      | nil =>
        refine (follows_pure values _).congr fun b => ?_
        rw [map_eq_pure_bind, run_bind_of_ok (run_rows_nil ..)]
        simp
      | cons t rest =>
        by_cases hhalt : halt t.kind = true
        · simp only [List.head?_cons, Option.all_some, hhalt, if_true, pure_bind]
          refine (follows_pure values _).congr fun b => ?_
          rw [map_eq_pure_bind, run_bind, run_rows_cons, if_pos hhalt]
          simp
        · simp only [List.head?_cons, Option.all_some, hhalt, Bool.false_eq_true, if_false,
            bind_assoc, pure_bind]
          have hmore : Follows ⟨passed, t :: rest, last⟩
              (x >>= fun v => rounds (rowsRound stop x) n (values ++ [v]))
              (item.toParser >>= fun v => ((values ++ [v]) ++ ·) <$> Parser.rows halt item) := by
            refine (hitem _ (by simp)).bind_of_ok fun b v c' faults hv => ih _ c' ?_
            have hshorter := item.advances b t rest
            rw [hv] at hshorter
            exact Nat.lt_of_lt_of_le hshorter (Nat.le_of_lt_succ hn)
          refine hmore.congr fun b => ?_
          have hrow : (Parser.rows halt item).run b (t :: rest) = ((do
              let value ← item.toParser
              let values ← Parser.rows halt item
              return value :: values).run b (t :: rest)).after [] := by
            rw [run_rows_cons, if_neg hhalt, Reply.after_nil]
          rw [map_eq_pure_bind, run_bind_of_after hrow, Reply.after_nil]
          simp
  exact follows_loop fun n hn => (hrounds n [] c hn).congr fun b => by simp

/-- Items with commas between them, the next one after those so far. -/
def listedFrom (item : Parser α) (surplus : SyntaxFault.Cause) (items : Array α) :
    Parser (List α) := do
  if maxArity ≤ items.size then Parser.note surplus
  let next ← item
  let items ← Parser.folding (· == .comma) (Grammar.listedStep item surplus) (items.push next)
  return items.toList

/-- After a comma the next item is read as the first one is. -/
lemma run_listedFrom_comma {item : Parser α} {surplus : SyntaxFault.Cause} {items : Array α}
    {t : Token} {rest : List Token} (ht : t.kind = .comma) (b : Bool) :
    (Parser.folding (· == .comma) (Grammar.listedStep item surplus) items >>=
      fun items => pure items.toList).run b (t :: rest) =
        (listedFrom item surplus items).run b rest := by
  have := parser_isLawful
  have hcomma : (Parser.folding (· == .comma) (Grammar.listedStep item surplus) items).run b
      (t :: rest) = ((Grammar.listedStep item surplus items t >>=
        Parser.folding (· == .comma) (Grammar.listedStep item surplus)).run b rest).after [] := by
    rw [run_folding_cons, if_pos (by simp [ht]), Reply.after_nil]
  rw [run_bind_of_after hcomma, Reply.after_nil, listedFrom, Grammar.listedStep]
  split <;> simp only [bind_assoc, pure_bind]

/-- An item is read alike, and if a comma follows, so is what goes on from there. -/
lemma follows_listedNext {x : Reading α} {item : Parser α} {surplus : SyntaxFault.Cause}
    {again : Array α → Reading (List α)} (items : Array α) (hitem : Follows c x item)
    (hagain : ∀ items (c' : Cursor), c'.ahead.length < c.ahead.length →
      Follows c' (again items) (listedFrom item surplus items)) :
    Follows c (x >>= fun next => (do
          if (← accept [.comma]).isSome then return Sum.inl (items.push next)
          else return Sum.inr (items.push next).toList) >>= Sum.elim again pure)
      (item >>= fun next => do
        let items ← Parser.folding (· == .comma) (Grammar.listedStep item surplus)
          (items.push next)
        return items.toList) := by
  refine hitem.bind_of_ok fun b v c' faults hv => ?_
  rw [bind_assoc]
  by_cases hcomma : ∃ t ∈ c'.ahead.head?, t.kind = .comma
  · obtain ⟨t, ht, hkind⟩ := hcomma
    obtain ⟨passed, ahead, last⟩ := c'
    obtain ⟨rest, rfl⟩ := List.head?_eq_some_iff.1 ht
    have hlength : (t :: rest).length ≤ c.ahead.length := by
      have hwithin := item.within b c.ahead
      rw [hv] at hwithin
      exact List.IsSuffix.length_le hwithin
    exact (goes_accept_some (by simp [hkind])).follows
      (hagain (items.push v) _ (Nat.lt_of_lt_of_le (Nat.lt_succ_self _) hlength))
      (run_listedFrom_comma hkind)
  · have hother : ∀ t ∈ c'.ahead.head?, t.kind ≠ .comma := fun t ht hk => hcomma ⟨t, ht, hk⟩
    refine (goes_accept_none (by simpa using hother)).look ?_
    refine (follows_pure _ c').congr fun b => ?_
    rw [run_bind_of_ok (run_folding_of_stop _ (by simpa using hother)), Reply.after_nil]

/-- **Items between commas are read alike** if each item is. -/
lemma follows_listed {x : Reading α} {item : Parser α} (hitem : ∀ c, Follows c x item)
    (surplus : SyntaxFault.Cause) (c : Cursor) :
    Follows c (listed x surplus) (Grammar.listed item surplus) := by
  have := parser_isLawful
  have hrounds : ∀ n items (c : Cursor), c.ahead.length < n →
      Follows c (rounds (listedRound x surplus) n items) (listedFrom item surplus items) := by
    intro n
    induction n with
    | zero => exact fun _ _ hn => absurd hn (Nat.not_lt_zero _)
    | succ n ih =>
      intro items c hn
      have hnext (c' : Cursor) (hle : c'.ahead.length ≤ c.ahead.length) :=
        follows_listedNext items (hitem c') fun more c'' hlt => ih more c'' (by omega)
      rw [rounds_succ, listedRound, listedFrom]
      split
      · -- a fault is noted in front of the item, and no token is taken for it
        have hnote := (follows_note surplus c).bind_of_ok fun b _ c' faults hv => hnext c' <| by
          have hwithin := (Parser.note surplus).within b c.ahead
          rw [hv] at hwithin
          exact List.IsSuffix.length_le hwithin
        simpa only [bind_assoc] using hnote
      · simpa only [bind_assoc] using hnext c (Nat.le_refl _)
  exact follows_loop fun n hn => (hrounds n #[] c hn).congr fun b => by
    simp [listedFrom, Grammar.listed_eq, maxArity]

end Reader

end LoxLang
