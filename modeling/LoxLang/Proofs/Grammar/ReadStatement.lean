import LoxLang.Proofs.Grammar.ReadExpression

set_option autoImplicit false

/-!
# Statements read by a cursor

A reader reads every form of statement as the grammar parses it, and where a declaration cannot be
read it goes on where the grammar does.

## Main definitions

* `Reader.statementOf`, `Reader.declarationOf` — what is selected by the first token.

## Main results

* `Grammar.synchronize_spec` — which tokens are passed over after a failure.
* `Reader.follows_slotted` — each call that reads a declaration is a good one, whether it fails or not.
* `Reader.follows_statement` — statements and declarations at each depth.
-/

namespace LoxLang

/-! ## After a failure -/

namespace Grammar

/-- **What is passed over after a failure.** Reading starts again behind at least one token if there is
one. No token but the first of those that are passed over begins a statement, and no token but the last
of them is a semicolon. It ends at the end, behind a semicolon or in front of a token that begins a
statement. -/
theorem synchronize_spec (tokens : List Token) : ∃ discarded,
    tokens = discarded ++ synchronize tokens ∧
      (∀ t ∈ discarded.tail, t.kind.startsStatement = false) ∧
      (∀ t ∈ discarded.dropLast, t.kind ≠ .semicolon) ∧
      (synchronize tokens = [] ∨ (∃ t ∈ discarded.getLast?, t.kind = .semicolon) ∨
        ∃ t ∈ (synchronize tokens).head?, t.kind.startsStatement = true) := by
  fun_induction synchronize tokens with
  | case1 => exact ⟨[], rfl, by simp, by simp, .inl rfl⟩
  | case2 t => exact ⟨[t], rfl, by simp, by simp, .inl rfl⟩
  | case3 skipped next rest h =>
    refine ⟨[skipped], rfl, by simp, by simp, .inr ?_⟩
    simpa using h
  | case4 skipped next rest h ih =>
    obtain ⟨hskipped, hnext⟩ : skipped.kind ≠ .semicolon ∧ next.kind.startsStatement = false := by
      simpa using h
    obtain ⟨discarded, heq, htail, hdrop, hend⟩ := ih
    obtain ⟨u, discarded, rfl⟩ : ∃ u us, discarded = u :: us := by
      refine List.exists_cons_of_ne_nil fun hnil => ?_
      have hshorter := length_synchronize_cons next rest
      rw [hnil, List.nil_append] at heq
      exact absurd (congrArg List.length heq) (Nat.ne_of_gt hshorter)
    obtain ⟨rfl, hrest⟩ := List.cons.inj heq
    refine ⟨skipped :: next :: discarded, by rw [List.cons_append, ← heq], ?_, ?_, hend⟩
    · exact List.forall_mem_cons.2 ⟨hnext, htail⟩
    · exact List.forall_mem_cons.2 ⟨hskipped, hdrop⟩

end Grammar

namespace Reader

variable {c : Cursor} {e : Reading Expr} {p : Parser Expr}

/-- Moving on ends at the end, behind a semicolon and in front of the beginning of a statement. -/
lemma goes_synchronizeRound_stop {t : Token} {passed rest : List Token} {last : Token}
    (h : t.kind = .semicolon ∨ ∀ u ∈ rest.head?, u.kind.startsStatement = true) :
    Goes ⟨t :: passed, rest, last⟩ (synchronizeRound ()) (.inr ()) ⟨t :: passed, rest, last⟩ := by
  refine (goes_atEnd _).bind ?_
  cases rest with
  | nil => exact goes_pure _ _
  | cons u rest =>
    refine (goes_previous (List.cons_ne_nil t passed)).bind ?_
    by_cases ht : t.kind = .semicolon
    · simp only [Cursor.previous, List.headD_cons, ht, beq_self_eq_true, if_true]
      exact goes_pure _ _
    · simp only [Cursor.previous, List.headD_cons, beq_eq_false_iff_ne.2 ht, Bool.false_eq_true,
        if_false]
      refine (goes_peek _).bind ?_
      simp only [Cursor.peek, List.headD_cons, h.resolve_left ht u rfl, if_true]
      exact goes_pure _ _

/-- In front of any other token moving on goes on. -/
lemma goes_synchronizeRound_next {t u : Token} {passed rest : List Token} {last : Token}
    (ht : t.kind ≠ .semicolon) (hu : u.kind.startsStatement = false) :
    Goes ⟨t :: passed, u :: rest, last⟩ (synchronizeRound ()) (.inl ())
      ⟨u :: t :: passed, rest, last⟩ := by
  refine (goes_atEnd _).bind ((goes_previous (List.cons_ne_nil t passed)).bind ?_)
  simp only [Cursor.previous, List.headD_cons, beq_eq_false_iff_ne.2 ht, Bool.false_eq_true,
    if_false]
  refine (goes_peek _).bind ?_
  simp only [Cursor.peek, List.headD_cons, hu, Bool.false_eq_true, if_false]
  exact (goes_advance_cons (t :: passed) rest u last).bind (goes_pure _ _)

/-- From behind a token that is passed over, a reader goes where the grammar starts again. -/
lemma goes_synchronizeLoop (t : Token) (rest passed : List Token) (last : Token) :
    ∃ c', c'.ahead = Grammar.synchronize (t :: rest) ∧
      Goes ⟨t :: passed, rest, last⟩ (loop synchronizeRound ()) () c' := by
  have hrounds : ∃ c', c'.ahead = Grammar.synchronize (t :: rest) ∧ ∀ n, rest.length < n →
      Goes ⟨t :: passed, rest, last⟩ (rounds synchronizeRound n ()) () c' := by
    induction rest generalizing t passed with
    | nil =>
      refine ⟨⟨t :: passed, [], last⟩, rfl, fun n hn => ?_⟩
      exact goes_rounds_leave (Nat.zero_lt_of_lt hn) (goes_synchronizeRound_stop (.inr (by simp)))
    | cons u rest ih =>
      by_cases hstop : t.kind = .semicolon ∨ u.kind.startsStatement = true
      · refine ⟨⟨t :: passed, u :: rest, last⟩, by simp [Grammar.synchronize, hstop], fun n hn => ?_⟩
        exact goes_rounds_leave (Nat.zero_lt_of_lt hn)
          (goes_synchronizeRound_stop (by simpa using hstop))
      · obtain ⟨ht, hu⟩ : t.kind ≠ .semicolon ∧ u.kind.startsStatement = false := by
          simpa using hstop
        obtain ⟨c', hahead, hgoes⟩ := ih u (t :: passed)
        refine ⟨c', by rw [hahead]; simp [Grammar.synchronize, ht, hu], fun n hn => ?_⟩
        obtain ⟨n, rfl⟩ := Nat.exists_eq_succ_of_ne_zero (Nat.ne_zero_of_lt hn)
        rw [rounds_succ]
        exact (goes_synchronizeRound_next ht hu).bind (hgoes n (Nat.lt_of_succ_lt_succ hn))
  obtain ⟨c', hahead, hgoes⟩ := hrounds
  exact ⟨c', hahead, goes_loop hgoes⟩

/-- **A reader goes where the grammar starts again**, if there is a token to pass or one that was
passed. -/
lemma goes_synchronize (h : c.ahead ≠ [] ∨ c.passed ≠ []) :
    ∃ c', c'.ahead = Grammar.synchronize c.ahead ∧ Goes c synchronize () c' := by
  obtain ⟨passed, ahead, last⟩ := c
  cases ahead with
  | nil =>
    obtain ⟨t, passed, rfl⟩ := List.exists_cons_of_ne_nil (h.resolve_left (by simp))
    refine ⟨⟨t :: passed, [], last⟩, rfl, (goes_advance_nil t last passed).bind ?_⟩
    exact goes_loop fun n hn =>
      goes_rounds_leave (Nat.zero_lt_of_lt hn) (goes_synchronizeRound_stop (.inr (by simp)))
  | cons t rest =>
    obtain ⟨c', hahead, hgoes⟩ := goes_synchronizeLoop t rest passed last
    exact ⟨c', hahead, (goes_advance_cons passed rest t last).bind hgoes⟩

/-! ## Declarations -/

variable {r r' r'' : Reader} {c' c'' : Cursor} {faults : List SyntaxFault}

/-- A reader that stands further on in the same tokens. -/
lemma Stands.index_lt (h : r.Stands c) (h' : r'.Stands c') (htokens : r'.tokens = r.tokens)
    (hlt : c'.ahead.length < c.ahead.length) : r.place < r'.place := by
  have hlength := h.length_eq
  have hlength' := h'.length_eq
  have hplace := h.place_eq
  have hplace' := h'.place_eq
  rw [htokens] at hlength'
  omega

/-- A call is good if it succeeds and the place moves on. -/
lemma Stands.good_of_ok (h : r.Stands c) (h' : r.Reached r' c' faults)
    (hlt : c'.ahead.length < c.ahead.length) :
    Visit.Good r'.tokens ⟨r.place, none, r'.place, r.functions, r'.functions⟩ where
  advances := h.index_lt h'.stands h'.tokens_eq hlt
  stop_lt := h'.stands.sane.place_lt
  functions := h'.functions_eq
  within := by simp
  passes := by simp
  skips := by simp
  stops := by simp

/-- A call is good if it fails and the reader then goes where the grammar starts again. -/
lemma Stands.good_of_failed (h : r.Stands c) (h' : r.Reached r' c' faults)
    (h'' : r'.Reached r'' c'' []) (hle : c'.ahead.length ≤ c.ahead.length)
    (hlt : c''.ahead.length < c.ahead.length)
    (hahead : c''.ahead = Grammar.synchronize c'.ahead) :
    Visit.Good r''.tokens ⟨r.place, some r'.place, r''.place, r.functions, r''.functions⟩ := by
  obtain ⟨discarded, heq, hskips, -, hstops⟩ := Grammar.synchronize_spec c'.ahead
  rw [← hahead] at heq hstops
  have hget (i : Nat) : r''.tokens[c'.index + i]? = (discarded ++ c''.ahead ++ [c'.last])[i]? := by
    rw [h''.tokens_eq, h'.stands.getElem?_add, ← heq]
  have hindex : c''.index = c'.index + discarded.length := by
    have hlength := h''.stands.length_eq
    rw [h''.tokens_eq, h'.stands.length_eq] at hlength
    have := congrArg List.length heq
    simp only [List.length_append] at this
    omega
  have hplace := h'.stands.place_eq
  have hplace' := h''.stands.place_eq
  refine ⟨h.index_lt h''.stands (h''.tokens_eq.trans h'.tokens_eq) hlt, h''.stands.sane.place_lt,
    h''.functions_eq.trans h'.functions_eq, ?_, ?_, ?_, ?_⟩
  · rintro _ ⟨⟩
    have hlength := h.length_eq
    have hlength' := h'.stands.length_eq
    rw [h'.tokens_eq] at hlength'
    have hstart := h.place_eq
    show r.place ≤ r'.place ∧ r'.place ≤ r''.place
    omega
  · rintro _ ⟨⟩ hstop
    have hnone : discarded = [] := by
      refine List.eq_nil_of_length_eq_zero ?_
      have : r'.place = r''.place := hstop
      omega
    have hend : c'.ahead = [] := by
      rw [hnone, List.nil_append, hahead] at heq
      cases hc : c'.ahead with
      | nil => rfl
      | cons t rest =>
        have hshorter := Grammar.length_synchronize_cons t rest
        rw [← hc, ← heq] at hshorter
        exact absurd hshorter (Nat.lt_irrefl _)
    rw [hplace, h''.tokens_eq, h'.stands.length_eq, hend, List.length_nil]
  · rintro _ ⟨⟩ i hlo hhi t ht
    -- the tokens between are those that were passed over behind the first one
    obtain ⟨j, rfl⟩ : ∃ j, i = c'.index + (j + 1) := ⟨i - c'.index - 1, by omega⟩
    have hj : j + 1 < discarded.length := by
      have : c'.index + (j + 1) < r''.place := hhi
      omega
    rw [hget, List.append_assoc, List.getElem?_append_left hj] at ht
    refine hskips t (List.mem_of_getElem? (i := j) ?_)
    rwa [List.getElem?_tail]
  · rintro _ ⟨⟩
    show r''.place + 1 = r''.tokens.length ∨ (∃ t ∈ r''.tokens[r''.place - 1]?, _) ∨
      ∃ t ∈ r''.tokens[r''.place]?, _
    rw [hplace']
    rcases hstops with hend | ⟨t, ht, hsemicolon⟩ | ⟨t, ht, hstarts⟩
    · left
      rw [h''.stands.length_eq, hend, List.length_nil]
    · right; left
      have hpos : 0 < discarded.length := List.length_pos_of_mem (List.mem_of_getLast? ht)
      have hlast : c''.index - 1 = c'.index + (discarded.length - 1) := by omega
      refine ⟨t, ?_, hsemicolon⟩
      rw [hlast, hget, List.append_assoc, List.getElem?_append_left (by omega),
        ← List.getLast?_eq_getElem?]
      exact ht
    · right; right
      refine ⟨t, ?_, hstarts⟩
      rw [h''.stands.getElem?_index, Cursor.peek, List.headD_eq_head?_getD, ht]
      rfl

/-- A reader with one more call noted. -/
def visiting (r : Reader) (v : Visit) : Reader := { r with visits := r.visits ++ [v] }

/-- Noting a good call leaves a reader where it stands. -/
lemma Reached.visiting {v : Visit} (h : r.Reached r' c faults) (hv : v.Good r'.tokens) :
    r.Reached (r'.visiting v) c faults := by
  refine ⟨⟨h.stands.tokens_eq, h.stands.place_eq, h.stands.last, h.stands.ahead, ?_⟩, h.tokens_eq,
    h.faults_eq, h.functions_eq⟩
  refine ⟨h.stands.sane.place_lt, h.stands.sane.trail_sorted, h.stands.sane.trail_le, fun w hw => ?_⟩
  rcases List.mem_append.1 hw with hw | hw
  · exact h.stands.sane.visits w hw
  · exact List.mem_singleton.1 hw ▸ hv

/-- A call that reads a declaration succeeds, or it fails and goes on where it may. -/
lemma slotted_apply (x : Reading Stmt) (r : Reader) : slotted x r =
    match x r with
    | .ok s r' => .ok (some s) (r'.visiting ⟨r.place, none, r'.place, r.functions, r'.functions⟩)
    | .error .failed r' =>
      (match synchronize r' with
      | .ok () r'' => .ok none
        (r''.visiting ⟨r.place, some r'.place, r''.place, r.functions, r''.functions⟩)
      | .error stop r'' => .error stop r'')
    | .error stop r' => .error stop r' := by
  show recovering _ _ r = _
  rw [recovering, bind_apply]
  cases x r with
  | ok s r' => rfl
  | error stop r' =>
    cases stop with
    | failed =>
      show ((synchronize >>= _) : Reading (Option Stmt)) r' = _
      dsimp only
      rw [bind_apply]
      cases synchronize r' <;> rfl
    | tooDeep | outside | before | endless => rfl

/-- **Each call that reads a declaration is a good one**, and it leaves what the grammar leaves. -/
lemma follows_slotted {x : Reading Stmt} {p : Advancing Stmt} (hc : c.ahead ≠ [])
    (hx : Follows c x p.toParser) : Follows c (slotted x) (Grammar.recovering p).toParser := by
  intro r hr
  have hanswers := hx r hr
  obtain ⟨t, rest, hcons⟩ := List.exists_cons_of_ne_nil hc
  have hshorter := (Grammar.recovering p).advances (decide (0 < r.functions)) t rest
  have hwithin := p.within (decide (0 < r.functions)) c.ahead
  rw [← hcons] at hshorter
  show Answers r (slotted x r) (Grammar.recover (p.run (decide (0 < r.functions)) c.ahead))
  change (Grammar.recover (p.run (decide (0 < r.functions)) c.ahead)).Shorter c.ahead at hshorter
  rw [slotted_apply]
  generalize x r = result at hanswers ⊢
  generalize p.run (decide (0 < r.functions)) c.ahead = reply at hanswers hshorter hwithin ⊢
  cases hanswers with
  | ok h => exact .ok (h.visiting (hr.good_of_ok h hshorter))
  | @failed r' c' faults h =>
    have hle : c'.ahead.length ≤ c.ahead.length := List.IsSuffix.length_le hwithin
    -- at the end there is a token before the place, as the call began in front of one
    have hbehind : c'.ahead ≠ [] ∨ c'.passed ≠ [] := by
      by_contra hnone
      obtain ⟨hahead, hpassed⟩ : c'.ahead = [] ∧ c'.passed = [] := by simpa using hnone
      have hlength := hr.length_eq
      rw [← h.tokens_eq, h.stands.length_eq, Cursor.index, hahead, hpassed, hcons] at hlength
      simp only [List.length_nil, List.length_cons] at hlength
      omega
    obtain ⟨c'', hahead, hgoes⟩ := goes_synchronize hbehind
    obtain ⟨r'', hr'', hstands, hshares⟩ := hgoes r' h.stands
    have h'' : r'.Reached r'' c'' [] := .of_shares hshares hstands
    have hgood := hr.good_of_failed h h'' hle (hahead ▸ hshorter) hahead
    simp only [hr'']
    rw [Grammar.recover, ← hahead, ← List.append_nil faults]
    exact .ok ((h.trans h'').visiting hgood)
  | tooDeep hsane htokens hfunctions => exact .tooDeep hsane htokens hfunctions

/-! ## First tokens that select nothing -/

section Tables

variable {q : Parser Stmt} {d : Advancing (Option Stmt)} {kind : Token.Kind}

lemma initialTable_eq_none (h : kind ∉ [Token.Kind.semicolon, .varWord]) :
    Grammar.initialTable p kind = none := by
  cases kind <;> first | rfl | exact absurd (by decide) h

lemma statementTable_eq_none (h : kind ∉ [Token.Kind.forWord, .ifWord, .whileWord, .printWord,
    .returnWord, .leftBrace]) : Grammar.statementTable p q d kind = none := by
  cases kind <;> first | rfl | exact absurd (by decide) h

lemma declarationTable_eq_none (h : kind ∉ [Token.Kind.funWord, .varWord]) :
    Grammar.declarationTable p d kind = none := by
  cases kind <;> first | rfl | exact absurd (by decide) h

end Tables

/-! ## Simple statements -/

lemma follows_expressionStatement (he : ∀ c, Follows c e p) (c : Cursor) :
    Follows c (expressionStatement e) (Grammar.expressionStatement p).toParser :=
  (he c).bind fun _ c => (follows_expect _ _ c).bind fun _ c => follows_pure _ c

lemma follows_variableDeclaration (he : ∀ c, Follows c e p) (c : Cursor) :
    Follows c (variableDeclaration e) (Grammar.variableDeclaration p) := by
  refine (follows_expect _ _ c).bind fun name c => ?_
  have hend : ∀ initial c, Follows c
      (do
        let _ ← expect .semicolon .semicolonAfterVariable
        return Stmt.var name initial)
      (do
        let _ ← Parser.expect .semicolon .semicolonAfterVariable
        return .var name initial) :=
    fun initial c => (follows_expect _ _ c).bind fun _ c => follows_pure _ c
  exact follows_accept (mem_kind _)
    (fun _ c _ _ => (he c).bind fun value c => (follows_pure (some value) c).bind hend)
    ((follows_pure none c).bind hend)

lemma follows_printStatement (he : ∀ c, Follows c e p) (c : Cursor) :
    Follows c (printStatement e) (Grammar.printStatement p) :=
  (he c).bind fun _ c => (follows_expect _ _ c).bind fun _ c => follows_pure _ c

/-- A `return` outside every function body is noted alike. -/
lemma follows_returnStatement {keyword : Token} (he : ∀ c, Follows c e p)
    (hkeyword : keyword.kind ≠ .endOfSource) (hpassed : c.passed.head? = some keyword) :
    Follows c (returnStatement e) (Grammar.returnStatement p keyword) := by
  have hend : ∀ c, Follows c
      (do
        let value ← unlessNext .semicolon e
        let _ ← expect .semicolon .semicolonAfterReturned
        return Stmt.return keyword value)
      (do
        let value ← Grammar.unlessNext .semicolon p
        let _ ← Parser.expect .semicolon .semicolonAfterReturned
        return .return keyword value) := fun c =>
    (follows_unlessNext _ (he c)).bind fun _ c => (follows_expect _ _ c).bind fun _ c => follows_pure _ c
  refine (goes_previous_of_head hpassed).look fun r hr => ?_
  rw [Grammar.returnStatement, Parser.run_bind_of_ok (Parser.run_inFunction _ _), Reply.after_nil]
  show Answers r ((if r.functions = 0 then _ else _ : Reading Stmt) r) _
  by_cases hout : r.functions = 0
  · have hnoted := ((follows_noteAt hkeyword .returnOutsideFunction c).bind fun _ c => hend c) r hr
    simpa [hout] using hnoted
  · have hinside := hend c r hr
    have hpos : 0 < r.functions := Nat.pos_of_ne_zero hout
    simpa [hout, hpos] using hinside

/-! ## Compound statements -/

section Compound

variable {s : Reading Stmt} {q : Parser Stmt}

lemma follows_forInitial (he : ∀ c, Follows c e p) (c : Cursor) :
    Follows c (forInitial e) (Grammar.forInitial p) := by
  rw [Grammar.forInitial_eq]
  refine follows_accept_entry rfl (fun _ c _ _ => follows_pure none c) fun hsemicolon => ?_
  refine follows_accept_entry rfl (fun _ c _ _ => ?_) fun hvar => ?_
  · exact (follows_variableDeclaration he c).bind fun _ c => follows_pure _ c
  refine follows_otherwise (fun t ht => ?_) ?_
  · exact initialTable_eq_none (by simp [hsemicolon t ht, hvar t ht])
  · exact (follows_expressionStatement he c).bind fun _ c => follows_pure _ c

lemma follows_forStatement (he : ∀ c, Follows c e p) (hs : ∀ c, Follows c s q) (c : Cursor) :
    Follows c (forStatement e s) (Grammar.forStatement p q) := by
  refine (follows_expect _ _ c).bind fun _ c => (follows_forInitial he c).bind fun initial c => ?_
  refine (follows_unlessNext _ (he c)).bind fun condition c => (follows_expect _ _ c).bind fun _ c => ?_
  refine (follows_unlessNext _ (he c)).bind fun step c => (follows_expect _ _ c).bind fun _ c => ?_
  exact (hs c).bind fun body c => follows_pure _ c

lemma follows_ifStatement (he : ∀ c, Follows c e p) (hs : ∀ c, Follows c s q) (c : Cursor) :
    Follows c (ifStatement e s) (Grammar.ifStatement p q) := by
  refine (follows_expect _ _ c).bind fun _ c => (he c).bind fun condition c => ?_
  refine (follows_expect _ _ c).bind fun _ c => (hs c).bind fun whenTrue c => ?_
  refine follows_accept (mem_kind _) (fun _ c _ _ => ?_) (follows_pure _ c)
  exact (hs c).bind fun whenFalse c => follows_pure _ c

lemma follows_whileStatement (he : ∀ c, Follows c e p) (hs : ∀ c, Follows c s q) (c : Cursor) :
    Follows c (whileStatement e s) (Grammar.whileStatement p q) := by
  refine (follows_expect _ _ c).bind fun _ c => (he c).bind fun condition c => ?_
  exact (follows_expect _ _ c).bind fun _ c => (hs c).bind fun body c => follows_pure _ c

end Compound

/-! ## Bodies -/

section Bodies

variable {d : Reading (Option Stmt)} {q : Advancing (Option Stmt)}

/-- A body ends in front of the brace that closes it, or at the end. -/
lemma goes_bodyEnd (c : Cursor) :
    Goes c (do if ← check .rightBrace then return true else atEnd)
      (c.ahead.head?.all (·.kind == .rightBrace)) c := by
  refine (goes_check .rightBrace c).bind ?_
  obtain ⟨passed, ahead, last⟩ := c
  cases ahead with
  | nil => exact goes_atEnd _
  | cons t rest =>
    by_cases hk : t.kind = .rightBrace
    · simp only [Cursor.check, List.head?_cons, Option.any_some, Option.all_some, hk,
        beq_self_eq_true, if_true]
      exact goes_pure _ _
    · simp only [Cursor.check, List.head?_cons, Option.any_some, Option.all_some,
        beq_eq_false_iff_ne.2 hk, Bool.false_eq_true, if_false]
      exact goes_atEnd _

lemma follows_blockBody (hd : ∀ c : Cursor, c.ahead ≠ [] → Follows c d q.toParser) (c : Cursor) :
    Follows c (blockBody d) (Grammar.blockBody q) :=
  (follows_rows goes_bodyEnd hd c).bind fun _ c =>
    (follows_expect _ _ c).bind fun _ c => follows_pure _ c

/-- How function bodies are counted makes no difference to where a reader stands. -/
lemma Stands.counting (h : r.Stands c) (n : Nat) : Stands { r with functions := n } c :=
  ⟨h.tokens_eq, h.place_eq, h.last, h.ahead, h.sane.place_lt, h.sane.trail_sorted, h.sane.trail_le,
    h.sane.visits⟩

/-- The count of function bodies goes up, and it goes down again in the end. -/
lemma follows_asFunctionBody {α : Type} {x : Reading α} {p : Parser α} (hx : Follows c x p) :
    Follows c (asFunctionBody x) (Parser.asFunctionBody p) := by
  intro r hr
  have hinside := hx { r with functions := r.functions + 1 } (hr.counting _)
  rw [decide_eq_true (Nat.succ_pos r.functions)] at hinside
  show Answers r (asFunctionBody x r) (p.run true c.ahead)
  rw [asFunctionBody]
  generalize x { r with functions := r.functions + 1 } = result at hinside ⊢
  generalize p.run true c.ahead = reply at hinside ⊢
  cases hinside with
  | ok h =>
    exact .ok ⟨h.stands.counting _, h.tokens_eq, h.faults_eq, congrArg (· - 1) h.functions_eq⟩
  | failed h =>
    exact .failed ⟨h.stands.counting _, h.tokens_eq, h.faults_eq, congrArg (· - 1) h.functions_eq⟩
  | tooDeep hsane htokens hfunctions =>
    exact .tooDeep ⟨hsane.place_lt, hsane.trail_sorted, hsane.trail_le, hsane.visits⟩ htokens
      (congrArg (· - 1) hfunctions)

lemma follows_functionDeclaration (hd : ∀ c : Cursor, c.ahead ≠ [] → Follows c d q.toParser)
    (c : Cursor) : Follows c (functionDeclaration d) (Grammar.functionDeclaration q) := by
  refine (follows_expect _ _ c).bind fun name c => (follows_expect _ _ c).bind fun _ c => ?_
  refine (follows_unlessNext _ (follows_listed (follows_expect _ _) _ c)).bind fun parameters c => ?_
  refine (follows_expect _ _ c).bind fun _ c => (follows_expect _ _ c).bind fun _ c => ?_
  exact (follows_asFunctionBody (follows_blockBody hd c)).bind fun body c => follows_pure _ c

end Bodies

/-! ## All depths -/

/-- A statement by its first token. -/
def statementOf (e : Reading Expr) (s : Reading Stmt) (d : Reading (Option Stmt)) :
    Reading Stmt := do
  if (← accept [.forWord]).isSome then forStatement e s
  else if (← accept [.ifWord]).isSome then ifStatement e s
  else if (← accept [.whileWord]).isSome then whileStatement e s
  else if (← accept [.printWord]).isSome then printStatement e
  else if (← accept [.returnWord]).isSome then returnStatement e
  else if (← accept [.leftBrace]).isSome then
    let body ← blockBody d
    return .block body
  else expressionStatement e

/-- A declaration by its first token. -/
def declarationOf (e : Reading Expr) (s : Reading Stmt) (d : Reading (Option Stmt)) :
    Reading Stmt := do
  if (← accept [.funWord]).isSome then functionDeclaration d
  else if (← accept [.varWord]).isSome then variableDeclaration e
  else s

lemma statementAt_succ (depth : Nat) : statementAt (depth + 1) =
    statementOf (expressionAt depth) (statementAt depth) (declarationAt depth) := rfl

lemma declarationAt_succ (depth : Nat) : declarationAt (depth + 1) =
    slotted (declarationOf (expressionAt depth) (statementAt depth) (declarationAt depth)) := rfl

section Selected

variable {s : Reading Stmt} {q : Parser Stmt} {d : Reading (Option Stmt)}
  {item : Advancing (Option Stmt)}

/-- A statement is selected by its first token, and read alike if its parts are. -/
lemma follows_statementOf (he : ∀ c, Follows c e p) (hs : ∀ c, Follows c s q)
    (hd : ∀ c : Cursor, c.ahead ≠ [] → Follows c d item.toParser) (c : Cursor) :
    Follows c (statementOf e s d) (Parser.select (Grammar.statementTable p q item)
      (Grammar.expressionStatement p).toParser) := by
  refine follows_accept_entry rfl (fun _ c _ _ => follows_forStatement he hs c) fun hfor => ?_
  refine follows_accept_entry rfl (fun _ c _ _ => follows_ifStatement he hs c) fun hif => ?_
  refine follows_accept_entry rfl (fun _ c _ _ => follows_whileStatement he hs c) fun hwhile => ?_
  refine follows_accept_entry rfl (fun _ c _ _ => follows_printStatement he c) fun hprint => ?_
  refine follows_accept_entry rfl (fun t c hk ht => follows_returnStatement he ?_ ht) fun hreturn => ?_
  · rw [hk]
    decide
  refine follows_accept_entry rfl (fun _ c _ _ => ?_) fun hbrace => ?_
  · exact (follows_blockBody hd c).bind fun _ c => follows_pure _ c
  refine follows_otherwise (fun t ht => statementTable_eq_none ?_) (follows_expressionStatement he c)
  simp [hfor t ht, hif t ht, hwhile t ht, hprint t ht, hreturn t ht, hbrace t ht]

/-- A declaration is selected by its first token, and read alike if its parts are. -/
lemma follows_declarationOf (he : ∀ c, Follows c e p) (hs : ∀ c, Follows c s q)
    (hd : ∀ c : Cursor, c.ahead ≠ [] → Follows c d item.toParser) (c : Cursor) :
    Follows c (declarationOf e s d) (Parser.select (Grammar.declarationTable p item) q) := by
  refine follows_accept_entry rfl (fun _ c _ _ => follows_functionDeclaration hd c) fun hfun => ?_
  refine follows_accept_entry rfl (fun _ c _ _ => follows_variableDeclaration he c) fun hvar => ?_
  refine follows_otherwise (fun t ht => declarationTable_eq_none ?_) (hs c)
  simp [hfun t ht, hvar t ht]

end Selected

/-- Statements and declarations are read alike at a depth. -/
def FollowsAt (depth : Nat) : Prop :=
  (∀ c, Follows c (statementAt depth) (Grammar.statementAt depth).toParser) ∧
    ∀ c : Cursor, c.ahead ≠ [] →
      Follows c (declarationAt depth) (Grammar.declarationAt depth).toParser

/-- The parts of a statement are read one depth further in. -/
lemma follows_statementAt_succ {depth : Nat} (h : FollowsAt depth) (c : Cursor) :
    Follows c (statementAt (depth + 1)) (Grammar.statementAt (depth + 1)).toParser := by
  rw [Grammar.statementAt_succ, statementAt_succ]
  exact follows_statementOf (follows_expression depth).1 h.1 h.2 c

lemma follows_declarationAt_succ {depth : Nat} (h : FollowsAt depth) {c : Cursor}
    (hc : c.ahead ≠ []) :
    Follows c (declarationAt (depth + 1)) (Grammar.declarationAt (depth + 1)).toParser := by
  have hslotted : Grammar.declarationAt (depth + 1) = Grammar.recovering (.select
      (Grammar.declarationTable (Grammar.expressionAt depth) (Grammar.declarationAt depth))
      (Grammar.statementAt depth)) := by
    rw [Grammar.declarationAt]
    rfl
  rw [hslotted, declarationAt_succ]
  exact follows_slotted hc (follows_declarationOf (follows_expression depth).1 h.1 h.2 c)

/-- **Statements and declarations are read alike** at each depth. -/
theorem follows_statement (depth : Nat) : FollowsAt depth := by
  induction depth with
  | zero => exact ⟨follows_tooDeep, fun c _ => follows_tooDeep c⟩
  | succ depth ih => exact ⟨follows_statementAt_succ ih, fun _ hc => follows_declarationAt_succ ih hc⟩

end Reader

end LoxLang
