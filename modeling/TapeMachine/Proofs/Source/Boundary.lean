import Mathlib.Data.Prod.Lex
import Mathlib.Data.Set.Function
import Mathlib.Order.Bounds.Defs
import TapeMachine.Proofs.Source.Balance
import TapeMachine.Proofs.Source.Lines

/-!
# Places of byte offsets

Between two characters of a text there is one byte offset and one place. `Position.locate` finds the
place of an offset by walking over the text until it has come as far (`Position.exists_seek`), so
that an offset inside a character has the place behind this character. Nothing is lost by keeping
the line and the column of a place only, since every character moves them on
(`Position.lineColumn_lt_advance`).
-/

namespace TapeMachine

/-! ## Boundaries between characters -/

/-- A character of the source starts at byte `k`, or the source ends there. -/
def IsBoundary (source : String) (k : Nat) : Prop := (String.Pos.Raw.mk k).IsValid source

instance (source : String) (k : Nat) : Decidable (IsBoundary source k) :=
  inferInstanceAs (Decidable ((String.Pos.Raw.mk k).IsValid source))

variable {source : String}

theorem isBoundary_iff {k : Nat} :
    IsBoundary source k ↔
      ∃ front rest, source.toList = front ++ rest ∧ k = (Position.behind front).offset := by
  rw [IsBoundary, String.Pos.Raw.isValid_iff_exists_append]
  constructor
  · rintro ⟨front, rest, rfl, hk⟩
    refine ⟨front.toList, rest.toList, String.toList_append, ?_⟩
    rw [Position.behind, String.ofList_toList]
    exact congrArg String.Pos.Raw.byteIdx hk
  · rintro ⟨front, rest, hsource, rfl⟩
    refine ⟨String.ofList front, String.ofList rest, ?_, rfl⟩
    rw [← String.ofList_append, ← hsource, String.ofList_toList]

theorem isBoundary_behind {front rest : List Char} (h : source.toList = front ++ rest) :
    IsBoundary source (Position.behind front).offset :=
  isBoundary_iff.mpr ⟨front, rest, h, rfl⟩

/-! ## Lines and columns in order -/

namespace Position

/-- The line and the column of a place, in the order of reading. -/
def lineColumn (p : Position) : Nat ×ₗ Nat := toLex (p.line, p.column)

theorem lineColumn_lt_advance (p : Position) (c : Char) :
    p.lineColumn < (p.advance c).lineColumn := by
  rw [lineColumn, lineColumn, Prod.Lex.toLex_lt_toLex, advance]
  split
  · exact .inl (Nat.lt_succ_self p.line)
  · exact .inr ⟨rfl, Nat.lt_succ_self p.column⟩

theorem lineColumn_le_advanceAll (p : Position) (text : List Char) :
    p.lineColumn ≤ (p.advanceAll text).lineColumn := by
  induction text generalizing p with
  | nil => exact le_refl p.lineColumn
  | cons c text ih => exact le_trans (le_of_lt (p.lineColumn_lt_advance c)) (ih (p.advance c))

/-- A text that is not empty leads to another line or column. -/
theorem lineColumn_lt_advanceAll (p : Position) {text : List Char} (h : text ≠ []) :
    p.lineColumn < (p.advanceAll text).lineColumn := by
  obtain ⟨c, rest, rfl⟩ := List.exists_cons_of_ne_nil h
  exact lt_of_lt_of_le (p.lineColumn_lt_advance c) (lineColumn_le_advanceAll (p.advance c) rest)

/-! ## Seeking an offset -/

/-- Seeking an offset leads over the shortest part of the text that comes as far, or over all. -/
theorem exists_seek (k : Nat) (p : Position) (text : List Char) :
    ∃ front rest, text = front ++ rest ∧ seek k p text = p.advanceAll front ∧
      (k ≤ (p.advanceAll front).offset ∨ rest = []) ∧
      ∀ other, other <+: text → k ≤ (p.advanceAll other).offset → front <+: other := by
  induction text generalizing p with
  | nil => exact ⟨[], [], rfl, rfl, .inr rfl, fun other _ _ => List.nil_prefix⟩
  | cons c text ih =>
    by_cases hk : k ≤ p.offset
    · exact ⟨[], c :: text, rfl, if_pos hk, .inl hk, fun other _ _ => List.nil_prefix⟩
    · obtain ⟨front, rest, rfl, hseek, hfar, hshortest⟩ := ih (p.advance c)
      refine ⟨c :: front, rest, rfl, ?_, hfar, ?_⟩
      · rw [seek, if_neg hk, hseek, advanceAll_cons]
      · intro other hother hle
        rcases List.prefix_cons_iff.mp hother with rfl | ⟨t, rfl, ht⟩
        · exact absurd hle hk
        · exact List.cons_prefix_cons.mpr ⟨rfl, hshortest t ht hle⟩

theorem exists_locate (source : String) (k : Nat) :
    ∃ front rest, source.toList = front ++ rest ∧ locate source k = behind front ∧
      (k ≤ (behind front).offset ∨ rest = []) ∧
      ∀ b, IsBoundary source b → k ≤ b → (behind front).offset ≤ b := by
  obtain ⟨front, rest, hsource, hseek, hfar, hshortest⟩ := exists_seek k start source.toList
  rw [advanceAll_start] at hseek hfar
  refine ⟨front, rest, hsource, hseek, hfar, ?_⟩
  intro b hb hk
  obtain ⟨other, more, hother, rfl⟩ := isBoundary_iff.mp hb
  have hprefix : other <+: source.toList := ⟨more, hother.symm⟩
  obtain ⟨t, rfl⟩ := hshortest other hprefix (by rwa [advanceAll_start])
  rw [← advanceAll_behind]
  exact offset_le_advanceAll (behind front) t

theorem lineColumn_le_seek (k : Nat) (p : Position) (text : List Char) :
    p.lineColumn ≤ (seek k p text).lineColumn := by
  obtain ⟨front, -, -, hseek, -⟩ := exists_seek k p text
  rw [hseek]
  exact lineColumn_le_advanceAll p front

theorem lineColumn_seek_mono {j k : Nat} (h : j ≤ k) (p : Position) (text : List Char) :
    (seek j p text).lineColumn ≤ (seek k p text).lineColumn := by
  induction text generalizing p with
  | nil => exact le_refl p.lineColumn
  | cons c text ih =>
    by_cases hj : j ≤ p.offset
    · rw [seek, if_pos hj]
      exact lineColumn_le_seek k p (c :: text)
    · have hk : ¬k ≤ p.offset := fun hk => hj (Nat.le_trans h hk)
      rw [seek, if_neg hj, seek, if_neg hk]
      exact ih (p.advance c)

/-- Two fronts of one text that lead to the same line and column are the same. -/
theorem front_eq_of_lineColumn_eq {a b text : List Char} (ha : a <+: text) (hb : b <+: text)
    (h : (behind a).lineColumn = (behind b).lineColumn) : a = b := by
  have hshort : ∀ {a b : List Char}, a <+: b →
      (behind a).lineColumn = (behind b).lineColumn → a = b := by
    rintro a _ ⟨t, rfl⟩ h
    by_cases ht : t = []
    · rw [ht, List.append_nil]
    · rw [← advanceAll_behind] at h
      exact absurd h (ne_of_lt (lineColumn_lt_advanceAll (behind a) ht))
  rcases List.prefix_or_prefix_of_prefix ha hb with hab | hba
  · exact hshort hab h
  · exact (hshort hba h.symm).symm

end Position

/-! ## The places that the check of the brackets comes to -/

/-- Reading `front` leads the check of the brackets to the place `p`, whatever is behind it, unless
the check has blamed a bracket of `front`. -/
def LeadsCheckTo (front : List Char) (p : Position) : Prop :=
  (∃ q, ∀ text, scanBrackets .start [] (front ++ text) = .error (.unmatchedClose q)) ∨
    ∃ opened, ∀ text, scanBrackets .start [] (front ++ text) = scanBrackets p opened text

theorem scanBrackets_front (p : Position) (opened : Stack Position) (front : List Char) :
    (∃ q, ∀ text, scanBrackets p opened (front ++ text) = .error (.unmatchedClose q)) ∨
      ∃ opened', ∀ text,
        scanBrackets p opened (front ++ text) = scanBrackets (p.advanceAll front) opened' text := by
  induction front generalizing p opened with
  | nil => exact .inr ⟨opened, fun _ => rfl⟩
  | cons c front ih =>
    by_cases hopen : c = '['
    · subst hopen
      exact ih (p.advance '[') (opened.push p)
    by_cases hclose : c = ']'
    · subst hclose
      cases opened with
      | nil => exact .inl ⟨p, fun _ => rfl⟩
      | cons q outer => exact ih (p.advance ']') outer
    · have hpass : ∀ text, scanBrackets p opened (c :: text) =
          scanBrackets (p.advance c) opened text := by
        intro text
        rw [scanBrackets, if_neg hopen, if_neg hclose]
      simp only [List.cons_append, hpass]
      exact ih (p.advance c) opened

theorem leadsCheckTo_behind (front : List Char) : LeadsCheckTo front (.behind front) := by
  rw [← Position.advanceAll_start]
  exact scanBrackets_front .start [] front

/-! ## The place of a byte offset -/

/-- What the place `p` of byte `k` of a source is. -/
structure IsPlaceOf (source : String) (k : Nat) (p : Position) : Prop where
  /-- It is at the next boundary, or at the end of the source if no boundary is as far. -/
  next : IsLeast {b | IsBoundary source b ∧ k ≤ b} p.offset ∨
    (∀ b, IsBoundary source b → b < k) ∧ p.offset = source.utf8ByteSize
  /-- Its line counts the newlines in front of it, and its column the characters behind the last of
  them. -/
  counted : ∃ above left rest, source.toList = above ++ left ++ rest ∧
    p.offset = (String.ofList (above ++ left)).utf8ByteSize ∧
    (above = [] ∨ above.getLast? = some '\n') ∧ '\n' ∉ left ∧
    p.line = 1 + (above ++ left).count '\n' ∧ p.column = 1 + left.length

namespace Position

theorem isPlaceOf_locate (source : String) (k : Nat) : IsPlaceOf source k (locate source k) := by
  obtain ⟨front, rest, hsource, hlocate, hfar, hleast⟩ := exists_locate source k
  rw [hlocate]
  refine ⟨?_, ?_⟩
  · have hboundary := isBoundary_behind hsource
    by_cases hk : k ≤ (behind front).offset
    · exact .inl ⟨⟨hboundary, hk⟩, fun b hb => hleast b hb.1 hb.2⟩
    · have hrest : rest = [] := hfar.resolve_left hk
      rw [hrest, List.append_nil] at hsource
      rw [← hsource, offset_behind_toList] at hk ⊢
      refine .inr ⟨fun b hb => ?_, rfl⟩
      have hle : b ≤ source.utf8ByteSize := hb.le_utf8ByteSize
      exact Nat.lt_of_le_of_lt hle (Nat.not_le.mp hk)
  · obtain ⟨above, left, rfl, habove, hleft⟩ := exists_wholeLines front
    obtain ⟨-, hcolumn⟩ := habove.behind_append hleft
    exact ⟨above, left, rest, hsource, rfl, habove.eq_nil_or_getLast?, hleft, rfl,
      hcolumn.trans (Nat.add_comm left.length 1)⟩

theorem locate_utf8ByteSize {front rest : List Char} (h : source.toList = front ++ rest) :
    locate source (String.ofList front).utf8ByteSize = behind front :=
  locate_offset h

/-- The place of a byte offset is that of the next boundary between characters, by counting lines
and columns. Places are in the order of their offsets, and those of boundaries all differ. In front
of a character it is where walking over the text in front of the character leads to, and with this
place the check of the brackets comes to the character; so are the places that the check reports. -/
theorem locate_counts_to_next_boundary (source : String) :
    (∀ k, IsPlaceOf source k (locate source k)) ∧
    (Monotone fun k => (locate source k).lineColumn) ∧
    (Set.InjOn (fun k => (locate source k).lineColumn) {k | IsBoundary source k}) ∧
    (∀ front c rest, source.toList = front ++ c :: rest →
      locate source (String.ofList front).utf8ByteSize = front.foldl advance start ∧
      LeadsCheckTo front (locate source (String.ofList front).utf8ByteSize)) ∧
    ∀ e, checkBrackets source = .error e → locate source e.position.offset = e.position := by
  refine ⟨isPlaceOf_locate source, fun j k h => lineColumn_seek_mono h start source.toList, ?_,
    ?_, ?_⟩
  · intro a ha b hb h
    obtain ⟨front, rest, hfront, rfl⟩ := isBoundary_iff.mp ha
    obtain ⟨front', rest', hfront', rfl⟩ := isBoundary_iff.mp hb
    simp only [locate_offset hfront, locate_offset hfront'] at h
    rw [front_eq_of_lineColumn_eq ⟨rest, hfront.symm⟩ ⟨rest', hfront'.symm⟩ h]
  · intro front c rest h
    rw [locate_utf8ByteSize h]
    exact ⟨(advanceAll_start front).symm, leadsCheckTo_behind front⟩
  · intro e he
    rcases blamed_of_checkBrackets_error he with
      ⟨front, rest, hsource, -, rfl⟩ | ⟨front, rest, hsource, -, rfl⟩
    · exact locate_offset hsource
    · exact locate_offset hsource

/-- Byte 4 is inside the second of two wide characters, whose end is the place of the bracket, and
byte 9 is past the end. The bracket is blamed at its place, and it has another column than the
boundary in front of the wide character. -/
theorem locate_counts_to_next_boundary_inside_character :
    locate "é\n中[" 4 = ⟨2, 2, 6⟩ ∧ IsPlaceOf "é\n中[" 4 ⟨2, 2, 6⟩ ∧
      locate "é\n中[" 9 = ⟨2, 3, 7⟩ ∧ IsPlaceOf "é\n中[" 9 ⟨2, 3, 7⟩ ∧
      (locate "é\n中[" 4).lineColumn ≤ (locate "é\n中[" 9).lineColumn ∧
      IsBoundary "é\n中[" 3 ∧ IsBoundary "é\n中[" 6 ∧
      (locate "é\n中[" 3).lineColumn ≠ (locate "é\n中[" 6).lineColumn ∧
      LeadsCheckTo ['é', '\n', '中'] ⟨2, 2, 6⟩ ∧
      checkBrackets "é\n中[" = .error (.unmatchedOpen ⟨2, 2, 6⟩) ∧
      locate "é\n中[" 6 = ⟨2, 2, 6⟩ := by
  obtain ⟨hplace, hmono, hinj, hfront, hblame⟩ := locate_counts_to_next_boundary "é\n中["
  have hbracket : checkBrackets "é\n中[" = .error (.unmatchedOpen ⟨2, 2, 6⟩) := by
    with_unfolding_all rfl
  have hinside : locate "é\n中[" 4 = ⟨2, 2, 6⟩ := by with_unfolding_all rfl
  have hpast : locate "é\n中[" 9 = ⟨2, 3, 7⟩ := by with_unfolding_all rfl
  have hthree : IsBoundary "é\n中[" 3 := by with_unfolding_all decide
  have hsix : IsBoundary "é\n中[" 6 := by with_unfolding_all decide
  have hleads := (hfront ['é', '\n', '中'] '[' [] (by with_unfolding_all rfl)).2
  exact ⟨hinside, hinside ▸ hplace 4, hpast, hpast ▸ hplace 9, hmono (by decide), hthree, hsix,
    fun h => absurd (hinj hthree hsix h) (by decide), hleads, hbracket, hblame _ hbracket⟩

end Position

end TapeMachine
