import TapeMachine.Proofs.Numerals
import TapeMachine.Proofs.Program.CallSites
import TapeMachine.Proofs.Program.Concatenation
import TapeMachine.Proofs.Source.Balance
import TapeMachine.Proofs.Source.Lines

/-!
# Excerpts show what is wrong

Whatever compiling a source finds wrong, the excerpt about it shows the lines around the place, and
its mark stands under the character that is to blame (`excerpts_point_at_errors`). The mark is as
far to the right as the column says, behind a field as wide as those of the line numbers.
-/

namespace TapeMachine

namespace Excerpt

variable (source : String) (line column : Nat)

/-- The number of the first line that is shown about a line. -/
def first : Nat := max 1 (line - 2)

def last : Nat := min (sourceLines source.toList).length (line + 2)

/-- The width of the field for line numbers. -/
def width : Nat := decimalWidth (last source line)

/-- The line above and below all others. -/
def rule : String := String.ofList (List.replicate (width source line + 1) '-') ++ "|--"

def lineText (number : Nat) : List Char := (sourceLines source.toList)[number - 1]?.getD []

/-- A line of the source, with its number, in the excerpt about line `line`. -/
def row (number : Nat) : String :=
  padLeft ' ' (width source line) (toString number) ++ " | "
    ++ String.ofList (lineText source number)

/-- The line that points at a column of the line above. -/
def mark : String :=
  String.ofList (List.replicate (width source line) ' ') ++ " | "
    ++ String.ofList (List.replicate (column - 1) ' ') ++ "^"

/-- The rows of the lines from number `i` up to number `j`. -/
def rows (i j : Nat) : List String := (List.range' i (j + 1 - i)).map (row source line)

/-- Texts on lines of their own. -/
def unlines (texts : List String) : String := String.join (texts.map (· ++ "\n"))

end Excerpt

open Excerpt

/-! ## The lines of an excerpt -/

/-- The lines from number `first` up to number `last`, with their numbers. -/
theorem zipIdx_drop_take {α : Type} (ls : List (List α)) {first last : Nat} (hfirst : 0 < first)
    (hlast : last ≤ ls.length) :
    ((ls.take last).drop (first - 1)).zipIdx first =
      (List.range' first (last + 1 - first)).map fun k => (ls[k - 1]?.getD [], k) := by
  apply List.ext_getElem
  · simp only [List.length_zipIdx, List.length_drop, List.length_take, List.length_map,
      List.length_range']
    omega
  · intro i hi hi'
    simp only [List.length_zipIdx, List.length_drop, List.length_take] at hi
    have hindex : first + i - 1 = first - 1 + i := by omega
    have hbound : first - 1 + i < ls.length := by omega
    simp [hindex, List.getElem?_eq_getElem hbound]

theorem range'_split {first line last : Nat} (hfirst : first ≤ line) (hlast : line ≤ last) :
    List.range' first (last + 1 - first) =
      List.range' first (line - first) ++
        line :: List.range' (line + 1) (last + 1 - (line + 1)) := by
  obtain ⟨i, rfl⟩ := Nat.exists_eq_add_of_le hfirst
  obtain ⟨j, rfl⟩ := Nat.exists_eq_add_of_le hlast
  have hall : first + i + j + 1 - first = i + (j + 1) := by omega
  have hbehind : first + i + j + 1 - (first + i + 1) = j := by omega
  rw [hall, hbehind, Nat.add_sub_cancel_left, ← List.range'_append_1, List.range'_succ]

theorem unlines_append (a b : List String) : unlines (a ++ b) = unlines a ++ unlines b := by
  rw [unlines, List.map_append, String.join_append, unlines, unlines]

theorem unlines_cons (text : String) (texts : List String) :
    unlines (text :: texts) = text ++ "\n" ++ unlines texts := by
  rw [unlines, List.map_cons, String.join_cons, unlines]

/-- What is shown about line number `number`: the line and, below the line in question, the mark. -/
def shown (source : String) (line column number : Nat) : List String :=
  row source line number :: if number = line then [mark source line column] else []

theorem flatMap_shown {line : Nat} {numbers : List Nat} (h : line ∉ numbers) (source : String)
    (column : Nat) :
    numbers.flatMap (shown source line column) = numbers.map (row source line) := by
  induction numbers with
  | nil => rfl
  | cons number numbers ih =>
    obtain ⟨hnumber, hnumbers⟩ := List.ne_and_not_mem_of_not_mem_cons h
    rw [List.flatMap_cons, ih hnumbers, shown, if_neg (Ne.symm hnumber)]
    rfl

theorem join_map_unlines {α : Type} (f : α → List String) (xs : List α) :
    String.join (xs.map fun x => unlines (f x)) = unlines (xs.flatMap f) := by
  induction xs with
  | nil => rfl
  | cons x xs ih =>
    rw [List.map_cons, String.join_cons, ih, List.flatMap_cons, unlines_append]

/-- An excerpt about a line of the source is the lines around it, and the mark right below it. -/
theorem excerpt_eq {source : String} {line : Nat} (hpos : 0 < line)
    (hle : line ≤ (sourceLines source.toList).length) (column : Nat) :
    excerpt source line column =
      unlines (rule source line :: (rows source line (first line) line ++
        mark source line column :: rows source line (line + 1) (last source line) ++
          [rule source line])) := by
  have hfirst : max (line - excerptMargin) 1 = first line := Nat.max_comm ..
  have hlast : min (line + excerptMargin) (sourceLines source.toList).length = last source line :=
    Nat.min_comm ..
  have hfirst_le : first line ≤ line := Nat.max_le.mpr ⟨hpos, Nat.sub_le ..⟩
  have hle_last : line ≤ last source line := Nat.le_min.mpr ⟨hle, Nat.le_add_right ..⟩
  have hlast_le : last source line ≤ (sourceLines source.toList).length := Nat.min_le_left ..
  have hfirst_pos : 0 < first line := Nat.le_max_left ..
  have hout : ¬(line = 0 ∨ (sourceLines source.toList).length < line) := by omega
  have hrule : unlines [rule source line] =
      String.ofList (List.replicate (decimalWidth (last source line) + 1) '-') ++ "|--\n" := by
    simp [unlines, rule, width, String.append_assoc]
  have htexts : ∀ k, unlines (shown source line column k) =
      padLeft ' ' (decimalWidth (last source line)) (toString k) ++ " | " ++
        String.ofList ((sourceLines source.toList)[k - 1]?.getD []) ++ "\n" ++
        if k = line then
          padLeft ' ' (decimalWidth (last source line)) "" ++ " | " ++
            String.ofList (List.replicate (column - 1) ' ') ++ "^\n"
        else "" := by
    intro k
    unfold shown
    split <;> simp [unlines, row, mark, padLeft, width, lineText, String.append_assoc]
  simp only [excerpt, if_neg hout, hfirst, hlast, zipIdx_drop_take _ hfirst_pos hlast_le,
    List.map_map, Function.comp_def, ← htexts, ← hrule, join_map_unlines]
  have habove : line ∉ List.range' (first line) (line - first line) := by
    simp only [List.mem_range'_1]
    omega
  have hbelow : line ∉ List.range' (line + 1) (last source line + 1 - (line + 1)) := by
    simp only [List.mem_range'_1]
    omega
  have hrows : rows source line (first line) line =
      (List.range' (first line) (line - first line)).map (row source line) ++
        [row source line line] := by
    rw [rows, range'_split hfirst_le (Nat.le_refl line), Nat.sub_self, List.map_append]
    rfl
  have hmark : shown source line column line = [row source line line, mark source line column] := by
    rw [shown, if_pos rfl]
  rw [range'_split hfirst_le hle_last, List.flatMap_append, List.flatMap_cons, flatMap_shown habove,
    flatMap_shown hbelow, hrows, hmark, ← unlines_append, ← unlines_append, rows]
  simp

/-! ## What an excerpt points at -/

/-- The excerpt about the place `p` of a source shows the lines around it and points at the
character `c`. -/
structure PointsAt (source : String) (p : Position) (c : Char) : Prop where
  nonempty : excerpt source p.line p.column ≠ ""
  /-- The lines in order, with the mark right below the line in question. -/
  shown : excerpt source p.line p.column =
    unlines (rule source p.line :: (rows source p.line (first p.line) p.line ++
      mark source p.line p.column :: rows source p.line (p.line + 1) (last source p.line) ++
        [rule source p.line]))
  within : first p.line ≤ p.line ∧ p.line ≤ last source p.line
  /-- What is shown with a number is the line with this number, and the numbers are of one width. -/
  numbered : ∀ k, first p.line ≤ k → k ≤ last source p.line →
    (sourceLines source.toList)[k - 1]? = some (lineText source k) ∧
      '\n' ∉ lineText source k ∧
      (padLeft ' ' (width source p.line) (toString k)).length = width source p.line
  column : (lineText source p.line)[p.column - 1]? = some c
  /-- It is the character at that place: behind whole lines and what its line shows left of it. -/
  place : ∃ above rest, WholeLines above ∧
    p = .behind (above ++ (lineText source p.line).take (p.column - 1)) ∧
      source.toList = above ++ (lineText source p.line).take (p.column - 1) ++ c :: rest
  /-- In the line above the mark the character stands over the caret. -/
  above : (row source p.line p.line).toList[(mark source p.line p.column).toList.idxOf '^']? =
    some c

theorem idxOf_mark (source : String) (line column : Nat) :
    (mark source line column).toList.idxOf '^' = width source line + 3 + (column - 1) := by
  have htext : (mark source line column).toList =
      (List.replicate (width source line) ' ' ++ [' ', '|', ' '] ++
        List.replicate (column - 1) ' ') ++ ['^'] := by
    simp [mark]
  have hnot : '^' ∉ List.replicate (width source line) ' ' ++ [' ', '|', ' '] ++
      List.replicate (column - 1) ' ' := by
    simp
  rw [htext, List.idxOf_append, if_neg hnot]
  simp
  omega

theorem row_getElem? {source : String} {line : Nat} (h : line ≤ last source line) (i : Nat) :
    (row source line line).toList[width source line + 3 + i]? = (lineText source line)[i]? := by
  have hlength : (padLeft ' ' (width source line) (toString line) ++ " | ").toList.length =
      width source line + 3 := by
    rw [String.length_toList, String.length_append, width, length_padLeft_toString ' ' h]
    rfl
  rw [row, String.toList_append, String.toList_ofList, ← hlength,
    List.getElem?_append_right (Nat.le_add_right _ i), Nat.add_sub_cancel_left]

/-- The excerpt about the place of a character that can be seen points at the character. -/
theorem pointsAt_of_place {source : String} {front rest : List Char} {c : Char}
    (h : source.toList = front ++ c :: rest) (hnewline : c ≠ '\n') (hreturn : c ≠ '\r') :
    PointsAt source (.behind front) c := by
  obtain ⟨above, left, rfl, habove, hleft⟩ := exists_wholeLines front
  obtain ⟨hline, hcolumn⟩ := habove.behind_append hleft
  obtain ⟨tail, below, hlines⟩ := sourceLines_of_place habove hleft hnewline hreturn rest
  have hlength := habove.length_sourceLines
  rw [← h] at hlines
  generalize hp : Position.behind (above ++ left) = p at hline hcolumn
  have hpos : 0 < p.line := hline ▸ Nat.succ_pos _
  have hle : p.line ≤ (sourceLines source.toList).length := by
    rw [hlines, hline, List.length_append, hlength]
    simp
  have hlast : p.line ≤ last source p.line := Nat.le_min.mpr ⟨hle, Nat.le_add_right ..⟩
  have htext : lineText source p.line = left ++ c :: tail := by
    rw [lineText, hlines, hline, Nat.add_sub_cancel, ← hlength,
      List.getElem?_append_right (Nat.le_refl _), Nat.sub_self]
    rfl
  have hleftText : (lineText source p.line).take (p.column - 1) = left := by
    rw [htext, hcolumn, Nat.add_sub_cancel, List.take_left]
  have hchar : (lineText source p.line)[p.column - 1]? = some c := by
    rw [htext, hcolumn, Nat.add_sub_cancel, List.getElem?_append_right (Nat.le_refl _),
      Nat.sub_self]
    rfl
  have hshown := excerpt_eq hpos hle p.column
  refine ⟨?_, hshown, ⟨Nat.max_le.mpr ⟨hpos, Nat.sub_le ..⟩, hlast⟩, ?_, hchar, ?_, ?_⟩
  · rw [hshown, unlines_cons, rule]
    simp
  · intro k hfirst hk
    have hbound : k - 1 < (sourceLines source.toList).length := by
      have := Nat.le_trans hk (Nat.min_le_left ..)
      have : 0 < first p.line := Nat.le_max_left ..
      omega
    have hget : (sourceLines source.toList)[k - 1]? = some (lineText source k) := by
      rw [lineText, List.getElem?_eq_getElem hbound, Option.getD_some]
    have hline := newline_notMem_of_mem_sourceLines (List.mem_of_getElem? hget)
    exact ⟨hget, hline, length_padLeft_toString ' ' hk⟩
  · rw [hleftText]
    exact ⟨above, rest, habove, hp.symm, h⟩
  · rw [idxOf_mark, row_getElem? hlast, hchar]

/-! ## What compiling finds wrong -/

/-- The bracket that is blamed. -/
def BracketError.bracket : BracketError → Char
  | unmatchedClose _ => ']'
  | unmatchedOpen _ => '['

theorem BracketError.bracket_ne (e : BracketError) : e.bracket ≠ '\n' ∧ e.bracket ≠ '\r' := by
  cases e <;> simp [bracket]

/-- What makes the bracket between `front` and `rest` the one to blame: all that is in front of a
closing bracket is balanced, or all that is behind an opening one. -/
def BracketError.Blames (front rest : List Char) : BracketError → Prop
  | unmatchedClose _ => Balanced front
  | unmatchedOpen _ => Balanced rest

theorem checkBrackets_of_compile_error {settings : CompilerSettings} {source : String}
    {e : BracketError} (h : compile settings source = .error e) :
    checkBrackets source = .error e := by
  cases hcheck : checkBrackets source with
  | ok =>
    obtain ⟨c, hc⟩ := exists_compile hcheck settings
    rw [hc] at h
    contradiction
  | error e' =>
    simp only [compile, hcheck] at h
    rw [Except.error.inj h]

/-- The bracket that is blamed stands at the place that is reported. -/
theorem exists_bracket_of_compile_error {settings : CompilerSettings} {source : String}
    {e : BracketError} (h : compile settings source = .error e) :
    ∃ front rest, source.toList = front ++ e.bracket :: rest ∧ e.position = .behind front ∧
      e.Blames front rest := by
  rcases blamed_of_checkBrackets_error (checkBrackets_of_compile_error h) with
    ⟨front, rest, hs, hfront, rfl⟩ | ⟨front, rest, hs, hrest, rfl⟩
  · exact ⟨front, rest, hs, rfl, hfront⟩
  · exact ⟨front, rest, hs, rfl, hrest⟩

/-- The call whose digits are reported stands at the place that is reported. -/
theorem exists_call_of_diagnostic {settings : CompilerSettings} {source : String} {c : Compiled}
    (h : compile settings source = .ok c) {d : ArgumentError} (hd : d ∈ c.diagnostics) :
    ∃ front rest, source.toList = front ++ (d.name.toList ++ d.literal.toList) ++ rest ∧
      d.position = .behind front ∧ d.name.toList.head? = some '\x7b' := by
  have hstands := (cut_lexemes settings.customInstructions source.toList).standsIn []
  rw [textOf_lexemes, List.nil_append, ← Position.advanceAll_start, Position.advanceAll_nil]
    at hstands
  rw [diagnostics_of_compile h, argumentErrors_eq] at hd
  obtain ⟨s, hs, rfl⟩ := List.mem_map.mp hd
  obtain ⟨front, rest, hsource, hposition, -⟩ := hstands s (List.mem_filter.mp hs).1
  refine ⟨front, rest, ?_, hposition, ?_⟩
  · simp [hsource, CallSite.error, CallSite.name, CallSite.literal]
  · simp [CallSite.error, CallSite.name]

/-- Whatever compiling a source finds wrong, the excerpt about its line and column shows the lines
around it and points at it: at the bracket without a partner, or at the brace of the call whose
digits are too large. -/
theorem excerpts_point_at_errors (settings : CompilerSettings) (source : String) :
    (∀ e, compile settings source = .error e → ∃ front rest,
      source.toList = front ++ e.bracket :: rest ∧ e.position = .behind front ∧
        e.Blames front rest ∧ PointsAt source e.position e.bracket) ∧
    ∀ c, compile settings source = .ok c → ∀ d ∈ c.diagnostics, ∃ front rest,
      source.toList = front ++ (d.name.toList ++ d.literal.toList) ++ rest ∧
        d.position = .behind front ∧ d.name.toList.head? = some '\x7b' ∧
        PointsAt source d.position '\x7b' := by
  constructor
  · intro e he
    obtain ⟨front, rest, hsource, hposition, hblames⟩ := exists_bracket_of_compile_error he
    have ⟨hnewline, hreturn⟩ := e.bracket_ne
    exact ⟨front, rest, hsource, hposition, hblames,
      hposition ▸ pointsAt_of_place hsource hnewline hreturn⟩
  · intro c hc d hd
    obtain ⟨front, rest, hsource, hposition, hbrace⟩ := exists_call_of_diagnostic hc hd
    obtain ⟨tail, htail⟩ := List.head?_eq_some_iff.mp hbrace
    have hplace : source.toList = front ++ '\x7b' :: (tail ++ d.literal.toList ++ rest) := by
      simp [hsource, htail]
    exact ⟨front, rest, hsource, hposition, hbrace,
      hposition ▸ pointsAt_of_place hplace (by decide) (by decide)⟩

/-- The carriage return behind the bracket is not shown, and the bracket is the third character of
its line, whatever the width of the second in bytes. -/
theorem excerpts_point_at_errors_second_line :
    ∃ e front rest, compile {} "+\r\n-é]\r\n+" = .error e ∧ e.position = ⟨2, 3, 6⟩ ∧
      "+\r\n-é]\r\n+".toList = front ++ ']' :: rest ∧ Balanced front ∧
      PointsAt "+\r\n-é]\r\n+" ⟨2, 3, 6⟩ ']' ∧
      excerpt "+\r\n-é]\r\n+" 2 3 = "--|--\n1 | +\n2 | -é]\n  |   ^\n3 | +\n--|--\n" ∧
    ∃ c d, compile {} "\n \x7ba\x7d9223372036854775808" = .ok c ∧ d ∈ c.diagnostics ∧
      d.position = ⟨2, 2, 2⟩ ∧ PointsAt "\n \x7ba\x7d9223372036854775808" ⟨2, 2, 2⟩ '\x7b' := by
  have hclose : compile {} "+\r\n-é]\r\n+" = .error (.unmatchedClose ⟨2, 3, 6⟩) := by
    with_unfolding_all rfl
  have hcall : compile {} "\n \x7ba\x7d9223372036854775808" =
      .ok ⟨⟨#[.call "\x7ba\x7d" 0]⟩, [⟨"\x7ba\x7d", "9223372036854775808", ⟨2, 2, 2⟩⟩]⟩ := by
    with_unfolding_all rfl
  obtain ⟨front, rest, hsource, -, hblames, hpoints⟩ :=
    (excerpts_point_at_errors {} "+\r\n-é]\r\n+").1 _ hclose
  obtain ⟨-, -, -, -, -, hbrace⟩ :=
    (excerpts_point_at_errors {} "\n \x7ba\x7d9223372036854775808").2 _ hcall _ List.mem_cons_self
  exact ⟨_, front, rest, hclose, rfl, hsource, hblames, hpoints, by with_unfolding_all rfl, _, _,
    hcall, List.mem_cons_self, rfl, hbrace⟩

end TapeMachine
