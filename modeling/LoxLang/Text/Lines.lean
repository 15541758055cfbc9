/-!
# The lines of a text

A line is closed by a line end, which is not part of it. What stands behind the last line end is a
line too if there is anything.

## Main definitions

* `Text.lines` — the lines of a text.

## Main results

* `Text.lines_line_append`, `Text.lines_of_notMem` — the lines of a text, the first one first.
* `Text.exists_lines_eq` — the lines put together give the text back.
* `Text.lines_closed_append` — a closed text has its lines, whatever stands behind it.
* `Text.length_lines_closed` — a closed text has a line for each line end.
* `Text.exists_lines_append_closed` — what stands in front of a text belongs to its first line.
-/

namespace LoxLang.Text

/-- The lines of a text. -/
def lines (text : String) : List String :=
  let parts := (text.toList.splitOn '\n').map String.ofList
  if parts.getLast? == some "" then parts.dropLast else parts

/-- There are no lines in an empty text. -/
@[simp] theorem lines_empty : lines "" = [] := rfl

/-- A text with something behind a line end, as characters. -/
theorem toList_append_lineEnd_append (text rest : String) :
    (text ++ "\n" ++ rest).toList = text.toList ++ '\n' :: rest.toList := by
  simp

/-- Behind a line end the lines begin anew. -/
theorem lines_append_parts (text rest : String) :
    lines (text ++ "\n" ++ rest) = (text.toList.splitOn '\n').map String.ofList ++ lines rest := by
  have hne : (rest.toList.splitOn '\n').map String.ofList ≠ [] := by
    simp [List.splitOn_ne_nil]
  unfold lines
  rw [toList_append_lineEnd_append, List.splitOn_append_cons_self, List.map_append]
  dsimp only
  rw [List.getLast?_append, List.dropLast_append_of_ne_nil hne,
    Option.or_of_isSome (by simp [Option.isSome_iff_ne_none, List.splitOn_ne_nil])]
  split <;> rfl

/-- **The first line comes first.** -/
theorem lines_line_append {line : String} (h : '\n' ∉ line.toList) (rest : String) :
    lines (line ++ "\n" ++ rest) = line :: lines rest := by
  rw [lines_append_parts, List.splitOn_eq_singleton h]
  simp

/-- A text without a line end is one line, unless it is empty. -/
theorem lines_of_notMem {line : String} (h : '\n' ∉ line.toList) :
    lines line = if line = "" then [] else [line] := by
  unfold lines
  rw [List.splitOn_eq_singleton h]
  by_cases hline : line = "" <;> simp [hline]

/-- A closed text has its lines, whatever stands behind it. -/
theorem lines_closed_append (text rest : String) :
    lines (text ++ "\n" ++ rest) = lines (text ++ "\n") ++ lines rest := by
  have hclosed : text ++ "\n" = text ++ "\n" ++ "" := by simp
  rw [lines_append_parts, hclosed, lines_append_parts]
  simp

/-- A text is a line that is not closed, or a closed one in front of another text. -/
theorem lines_induction {motive : String → Prop}
    (last : ∀ line, '\n' ∉ line.toList → motive line)
    (closed : ∀ line rest, '\n' ∉ line.toList → motive rest → motive (line ++ "\n" ++ rest))
    (text : String) : motive text := by
  induction hn : text.toList.length using Nat.strongRecOn generalizing text with
  | ind n ih =>
    by_cases hmem : '\n' ∈ text.toList
    · obtain ⟨line, rest, htext, hline⟩ := List.eq_append_cons_of_mem hmem
      have hsplit : text = String.ofList line ++ "\n" ++ String.ofList rest := by
        rw [← String.toList_inj, toList_append_lineEnd_append]
        simpa using htext
      rw [hsplit]
      refine closed _ _ (by simpa using hline) (ih _ ?_ _ rfl)
      rw [← hn, htext, String.toList_ofList, List.length_append, List.length_cons]
      omega
    · exact last text hmem

/-- **The lines put together give the text back**: all but the last one are closed, and what stands
behind the last line end is a line unless it is empty. -/
theorem exists_lines_eq (text : String) : ∃ (closed : List String) (last : String),
    text = String.join (closed.map (· ++ "\n")) ++ last ∧
    lines text = closed ++ (if last = "" then [] else [last]) ∧
    ∀ line ∈ last :: closed, '\n' ∉ line.toList := by
  induction text using lines_induction with
  | last line hline => exact ⟨[], line, by simp, by simp [lines_of_notMem hline], by simpa using hline⟩
  | closed line rest hline ih =>
    obtain ⟨closed, last, hrest, hlines, hall⟩ := ih
    refine ⟨line :: closed, last, ?_, ?_, ?_⟩
    · simp only [List.map_cons, String.join_cons, String.append_assoc, ← hrest]
    · rw [lines_line_append hline, hlines, List.cons_append]
    · intro other hother
      rcases List.mem_cons.1 hother with rfl | hother
      · exact hall _ (by simp)
      rcases List.mem_cons.1 hother with rfl | hother
      · exact hline
      · exact hall other (List.mem_cons_of_mem _ hother)

/-- A closed text has a line for each line end. -/
theorem length_lines_closed (text : String) :
    (lines (text ++ "\n")).length = text.toList.count '\n' + 1 := by
  induction text using lines_induction with
  | last line hline =>
    have hclosed : line ++ "\n" = line ++ "\n" ++ "" := by simp
    rw [hclosed, lines_line_append hline, List.count_eq_zero_of_not_mem hline]
    rfl
  | closed line rest hline ih =>
    rw [String.append_assoc, lines_line_append hline, List.length_cons, ih,
      toList_append_lineEnd_append, List.count_append, List.count_eq_zero_of_not_mem hline]
    simp

/-- What stands in front of a closed text belongs to its first line. -/
theorem exists_lines_append_closed {line : String} (h : '\n' ∉ line.toList) (text : String) :
    ∃ first more, lines (line ++ text ++ "\n") = (line ++ first) :: more := by
  induction text using lines_induction with
  | last first hfirst =>
    have hline : '\n' ∉ (line ++ first).toList := by simp [h, hfirst]
    have hclosed : line ++ first ++ "\n" = line ++ first ++ "\n" ++ "" := by simp
    exact ⟨first, [], by rw [hclosed, lines_line_append hline, lines_empty]⟩
  | closed first rest hfirst _ =>
    have hline : '\n' ∉ (line ++ first).toList := by simp [h, hfirst]
    have hsplit : line ++ (first ++ "\n" ++ rest) ++ "\n" =
        line ++ first ++ "\n" ++ (rest ++ "\n") := by
      simp only [String.append_assoc]
    exact ⟨first, _, by rw [hsplit, lines_line_append hline]⟩

end LoxLang.Text
