import TapeMachine.Source.Position

/-!
# Positions by counting

A position is made by walking over the characters in front of it. It can also be found by counting
in the text in front of it (`Position.advanceAll_start`), and from its byte offset alone
(`Position.locate_offset`).
-/

namespace TapeMachine

namespace Position

/-- The place behind a text. Its column counts from the latest newline, or from the start of the
text if there is none. -/
def behind (text : List Char) : Position where
  line := 1 + text.count '\n'
  column := 1 + (text.reverse.takeWhile (· ≠ '\n')).length
  offset := (String.ofList text).utf8ByteSize

theorem offset_behind_toList (source : String) :
    (behind source.toList).offset = source.utf8ByteSize := by
  rw [behind, String.ofList_toList]

theorem utf8ByteSize_concat (text : List Char) (c : Char) :
    (String.ofList (text ++ [c])).utf8ByteSize =
      (String.ofList text).utf8ByteSize + c.utf8Size := by
  rw [String.ofList_append, String.utf8ByteSize_append, ← String.singleton_eq_ofList,
    String.utf8ByteSize_singleton]

theorem behind_concat (text : List Char) (c : Char) :
    behind (text ++ [c]) = (behind text).advance c := by
  rw [behind, utf8ByteSize_concat]
  by_cases hc : c = '\n'
  · subst hc
    simp only [advance, behind, if_true, mk.injEq, and_true]
    simp [Nat.add_assoc]
  · simp only [advance, behind, hc, if_false, mk.injEq, and_true]
    simp [hc, Nat.add_assoc]

theorem advanceAll_behind (front text : List Char) :
    (behind front).advanceAll text = behind (front ++ text) := by
  induction text generalizing front with
  | nil => rw [advanceAll_nil, List.append_nil]
  | cons c text ih => rw [advanceAll_cons, ← behind_concat, ih, List.append_assoc]; rfl

/-- Walking over a text from its start leads to the place behind it. -/
theorem advanceAll_start (text : List Char) : start.advanceAll text = behind text :=
  advanceAll_behind [] text

/-! ## The way back from a byte offset -/

theorem offset_lt_advance (p : Position) (c : Char) : p.offset < (p.advance c).offset := by
  have hsize := c.utf8Size_pos
  unfold advance
  split
  · exact Nat.lt_add_of_pos_right hsize
  · exact Nat.lt_add_of_pos_right hsize

theorem offset_le_advanceAll (p : Position) (text : List Char) :
    p.offset ≤ (p.advanceAll text).offset := by
  induction text generalizing p with
  | nil => exact Nat.le_refl p.offset
  | cons c text ih => exact Nat.le_trans (Nat.le_of_lt (p.offset_lt_advance c)) (ih (p.advance c))

theorem seek_advanceAll (p : Position) (front rest : List Char) :
    seek (p.advanceAll front).offset p (front ++ rest) = p.advanceAll front := by
  induction front generalizing p with
  | nil =>
    cases rest with
    | nil => rfl
    | cons c rest => exact if_pos (Nat.le_refl p.offset)
  | cons c front ih =>
    have hlt : p.offset < ((p.advance c).advanceAll front).offset :=
      Nat.lt_of_lt_of_le (p.offset_lt_advance c) ((p.advance c).offset_le_advanceAll front)
    rw [advanceAll_cons, List.cons_append, seek, if_neg (Nat.not_le.mpr hlt)]
    exact ih (p.advance c)

/-- The byte offset of a place between two characters is enough to find the place again. -/
theorem locate_offset {source : String} {front rest : List Char}
    (h : source.toList = front ++ rest) :
    locate source (behind front).offset = behind front := by
  rw [locate, h, ← advanceAll_start]
  exact seek_advanceAll start front rest

end Position

end TapeMachine
