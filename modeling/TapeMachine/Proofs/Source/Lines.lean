import TapeMachine.Proofs.Source.Position
import TapeMachine.Source.Excerpt

/-!
# Lines and places

A place has a line and a column by the newlines in front of it; a text has lines as they are shown.
What is in front of a place is whole lines and the left part of its own line (`exists_wholeLines`),
so the line with its number is shown, and a character that is not dropped at the end of a line is
shown in its column (`sourceLines_of_place`).
-/

namespace TapeMachine

/-! ## The lines of a text -/

theorem sourceLines_append_newline {line : List Char} (h : '\n' ∉ line) (text : List Char) :
    sourceLines (line ++ '\n' :: text) = withoutReturn line :: sourceLines text := by
  have hparts : (line ++ '\n' :: text).splitOn '\n' = line :: text.splitOn '\n' :=
    List.splitOn_append_cons_self_of_not_mem h text
  have hne : text.splitOn '\n' ≠ [] := List.splitOn_ne_nil _ _
  rw [sourceLines, sourceLines, hparts]
  rw [List.dropLast_cons_of_ne_nil hne, List.getLast?_cons, List.getLast?_eq_some_getLast hne,
    Option.getD_some, List.map_cons]
  cases (text.splitOn '\n').getLast hne <;> rfl

/-- Lines with a newline behind each are shown as they are. -/
theorem sourceLines_flatMap {lines : List (List Char)}
    (h : ∀ line ∈ lines, '\n' ∉ line ∧ line.getLast? ≠ some '\r') :
    sourceLines (lines.flatMap (· ++ ['\n'])) = lines := by
  induction lines with
  | nil => rfl
  | cons line lines ih =>
    obtain ⟨⟨hnewline, hreturn⟩, hlines⟩ := List.forall_mem_cons.mp h
    rw [List.flatMap_cons, List.append_assoc, List.singleton_append,
      sourceLines_append_newline hnewline, ih hlines, withoutReturn, if_neg hreturn]

/-- What is behind the last newline is a line as it is, if it is anything. -/
theorem sourceLines_of_last {line : List Char} (h : '\n' ∉ line) (hne : line ≠ []) :
    sourceLines line = [line] := by
  obtain ⟨c, rest, rfl⟩ := List.exists_cons_of_ne_nil hne
  rw [sourceLines, List.splitOn_eq_singleton h]
  rfl

/-- Only a carriage return at the very end of a line is dropped. -/
theorem withoutReturn_append_cons (left : List Char) {c : Char} (hc : c ≠ '\r')
    (tail : List Char) : ∃ tail', withoutReturn (left ++ c :: tail) = left ++ c :: tail' := by
  unfold withoutReturn
  split
  · next hreturn =>
    have hne : tail ≠ [] := by
      rintro rfl
      simp [hc] at hreturn
    refine ⟨tail.dropLast, ?_⟩
    rw [List.dropLast_append_of_ne_nil (List.cons_ne_nil c tail),
      List.dropLast_cons_of_ne_nil hne]
  · exact ⟨tail, rfl⟩

/-! ## Whole lines -/

/-- Text that is nothing but lines with their newlines. -/
inductive WholeLines : List Char → Prop
  | nil : WholeLines []
  | cons {line text : List Char} (noNewline : '\n' ∉ line) (rest : WholeLines text) :
      WholeLines (line ++ '\n' :: text)

theorem WholeLines.length_sourceLines {above : List Char} (h : WholeLines above) :
    (sourceLines above).length = above.count '\n' := by
  induction h with
  | nil => rfl
  | cons noNewline _ ih =>
    rw [sourceLines_append_newline noNewline, List.length_cons, ih, List.count_append,
      List.count_eq_zero_of_not_mem noNewline, List.count_cons_self, Nat.zero_add]

theorem WholeLines.sourceLines_append {above : List Char} (h : WholeLines above)
    (text : List Char) : sourceLines (above ++ text) = sourceLines above ++ sourceLines text := by
  induction h with
  | nil => rfl
  | cons noNewline _ ih =>
    rw [List.append_assoc, List.cons_append, sourceLines_append_newline noNewline,
      sourceLines_append_newline noNewline, ih, List.cons_append]

/-- In front of every place are whole lines and the left part of one. -/
theorem exists_wholeLines (front : List Char) :
    ∃ above left, front = above ++ left ∧ WholeLines above ∧ '\n' ∉ left := by
  induction front with
  | nil => exact ⟨[], [], rfl, .nil, List.not_mem_nil⟩
  | cons c front ih =>
    obtain ⟨above, left, rfl, habove, hleft⟩ := ih
    by_cases hc : c = '\n'
    · subst hc
      exact ⟨'\n' :: above, left, rfl, .cons List.not_mem_nil habove, hleft⟩
    · cases habove with
      | nil =>
        have hleft : '\n' ∉ c :: left := List.not_mem_cons_of_ne_of_not_mem (Ne.symm hc) hleft
        exact ⟨[], c :: left, rfl, .nil, hleft⟩
      | @cons line text noNewline rest =>
        have hline : '\n' ∉ c :: line := List.not_mem_cons_of_ne_of_not_mem (Ne.symm hc) noNewline
        exact ⟨(c :: line) ++ '\n' :: text, left, rfl, .cons hline rest, hleft⟩

theorem WholeLines.eq_nil_or_getLast? {above : List Char} (h : WholeLines above) :
    above = [] ∨ above.getLast? = some '\n' := by
  induction h with
  | nil => exact .inl rfl
  | @cons line text _ _ ih =>
    refine .inr (List.getLast?_eq_some_iff.mpr ?_)
    rcases ih with rfl | hlast
    · exact ⟨line, rfl⟩
    · obtain ⟨init, rfl⟩ := List.getLast?_eq_some_iff.mp hlast
      exact ⟨line ++ '\n' :: init, (List.append_assoc line ('\n' :: init) ['\n']).symm⟩

theorem newline_notMem_withoutReturn {line : List Char} (h : '\n' ∉ line) :
    '\n' ∉ withoutReturn line := by
  unfold withoutReturn
  split
  · exact fun hmem => h ((List.dropLast_sublist line).mem hmem)
  · exact h

theorem WholeLines.newline_notMem {above line : List Char} (h : WholeLines above)
    (hmem : line ∈ sourceLines above) : '\n' ∉ line := by
  induction h with
  | nil => contradiction
  | cons noNewline _ ih =>
    rw [sourceLines_append_newline noNewline] at hmem
    rcases List.mem_cons.mp hmem with rfl | hmem
    · exact newline_notMem_withoutReturn noNewline
    · exact ih hmem

/-- A line that is shown is one line. -/
theorem newline_notMem_of_mem_sourceLines {s line : List Char} (h : line ∈ sourceLines s) :
    '\n' ∉ line := by
  obtain ⟨above, left, rfl, habove, hleft⟩ := exists_wholeLines s
  rw [habove.sourceLines_append] at h
  rcases List.mem_append.mp h with h | h
  · exact habove.newline_notMem h
  · cases left with
    | nil => contradiction
    | cons c rest =>
      rw [sourceLines_of_last hleft (List.cons_ne_nil c rest)] at h
      rwa [List.mem_singleton.mp h]

/-- The column of a place counts what is left of it on its line, and its line the lines above. -/
theorem WholeLines.behind_append {above left : List Char} (h : WholeLines above)
    (hleft : '\n' ∉ left) :
    (Position.behind (above ++ left)).line = above.count '\n' + 1 ∧
      (Position.behind (above ++ left)).column = left.length + 1 := by
  have hleftCount := List.count_eq_zero_of_not_mem hleft
  have hpass : ∀ c ∈ left.reverse, decide (c ≠ '\n') = true := by
    intro c hc
    have hc := List.mem_reverse.mp hc
    exact decide_eq_true fun heq => hleft (heq ▸ hc)
  have hstop : above.reverse.takeWhile (· ≠ '\n') = [] := by
    rcases h.eq_nil_or_getLast? with rfl | hlast
    · rfl
    · rw [← List.head?_reverse] at hlast
      obtain ⟨rest, hrest⟩ := List.head?_eq_some_iff.mp hlast
      rw [hrest]
      exact List.takeWhile_cons_of_neg (by simp)
  refine ⟨?_, ?_⟩
  · rw [Position.behind, List.count_append, hleftCount, Nat.add_zero, Nat.add_comm]
  · simp only [Position.behind]
    rw [List.reverse_append, List.takeWhile_append_of_pos hpass, hstop, List.append_nil,
      List.length_reverse, Nat.add_comm]

/-- A character that is neither newline nor carriage return is shown where its place says. -/
theorem sourceLines_of_place {above left : List Char} (h : WholeLines above) (hleft : '\n' ∉ left)
    {c : Char} (hnewline : c ≠ '\n') (hreturn : c ≠ '\r') (behind : List Char) :
    ∃ tail below, sourceLines (above ++ left ++ c :: behind) =
      sourceLines above ++ (left ++ c :: tail) :: below := by
  rw [List.append_assoc, h.sourceLines_append]
  have hline : ∀ {tail : List Char}, '\n' ∉ tail → '\n' ∉ left ++ c :: tail := by
    intro tail htail hmem
    rcases List.mem_append.mp hmem with hmem | hmem
    · exact hleft hmem
    · rcases List.mem_cons.mp hmem with heq | hmem
      · exact hnewline heq.symm
      · exact htail hmem
  by_cases hmore : '\n' ∈ behind
  · obtain ⟨tail, text, rfl, htail⟩ := List.eq_append_cons_of_mem hmore
    have hsplit : left ++ c :: (tail ++ '\n' :: text) = (left ++ c :: tail) ++ '\n' :: text := by
      rw [List.append_assoc, List.cons_append]
    obtain ⟨tail', htail'⟩ := withoutReturn_append_cons left hreturn tail
    rw [hsplit, sourceLines_append_newline (hline htail), htail']
    exact ⟨tail', sourceLines text, rfl⟩
  · rw [sourceLines_of_last (hline hmore) (by simp)]
    exact ⟨behind, [], rfl⟩

end TapeMachine
