import TapeMachine.Proofs.Source.Position

/-!
# Sources as bytes

A source is a text, and in memory it is the bytes of the text in UTF-8. A character below 128 is one
byte, the same number; every other character is several bytes, none of them below 128. So whoever
looks for small characters only may look at the bytes instead (`takeWhile_bytesOf`).
-/

namespace TapeMachine

/-- The bytes of a text. -/
def bytesOf (text : List Char) : List UInt8 := text.flatMap String.utf8EncodeChar

/-- The character with the number of a byte. -/
def byteChar (b : UInt8) : Char := Char.ofNat b.toNat

/-- A character that is one byte long. -/
def IsSmall (c : Char) : Prop := c.toNat < 128

instance (c : Char) : Decidable (IsSmall c) := inferInstanceAs (Decidable (c.toNat < 128))

@[simp] theorem bytesOf_nil : bytesOf [] = [] := rfl

@[simp] theorem bytesOf_cons (c : Char) (text : List Char) :
    bytesOf (c :: text) = String.utf8EncodeChar c ++ bytesOf text := rfl

@[simp] theorem bytesOf_append (a b : List Char) : bytesOf (a ++ b) = bytesOf a ++ bytesOf b :=
  List.flatMap_append

theorem toUTF8_eq_bytesOf (source : String) :
    source.toUTF8.data.toList = bytesOf source.toList := by
  have h := String.toByteArray_ofList (l := source.toList)
  rw [String.ofList_toList] at h
  rw [String.toUTF8_eq_toByteArray, h, List.utf8Encode, List.data_toByteArray]
  rfl

/-- The byte offset of a place is the number of bytes in front of it. -/
theorem length_bytesOf (text : List Char) :
    (bytesOf text).length = (Position.behind text).offset := by
  have hsize : (bytesOf text).toByteArray.size = (String.ofList text).utf8ByteSize := by
    rw [← String.size_toByteArray, String.toByteArray_ofList]
    rfl
  rwa [List.size_toByteArray] at hsize

theorem length_bytesOf_toList (source : String) :
    (bytesOf source.toList).length = source.utf8ByteSize := by
  rw [length_bytesOf, Position.offset_behind_toList]

/-- From the offset of a place on come the bytes of the text behind it. -/
theorem drop_bytesOf {text front rest : List Char} (h : text = front ++ rest) :
    (bytesOf text).drop (Position.behind front).offset = bytesOf rest := by
  rw [h, bytesOf_append, ← length_bytesOf, List.drop_left]

/-! ## One character -/

theorem toNat_byteChar (b : UInt8) : (byteChar b).toNat = b.toNat := by
  have hvalid : b.toNat.isValidChar := .inl (Nat.lt_of_lt_of_le b.toNat_lt (by decide))
  rw [byteChar, Char.ofNat, dif_pos hvalid]
  rfl

theorem byteChar_inj {a b : UInt8} (h : byteChar a = byteChar b) : a = b := by
  apply UInt8.toNat_inj.mp
  rw [← toNat_byteChar, h, toNat_byteChar]

theorem encode_of_isSmall {c : Char} (h : IsSmall c) :
    ∃ b, String.utf8EncodeChar c = [b] ∧ byteChar b = c := by
  have hle : c.val.toNat ≤ 127 := Nat.le_of_lt_succ h
  have hbyte : c.val.toNat < 256 := by omega
  refine ⟨UInt8.ofNat c.val.toNat, by simp only [String.utf8EncodeChar, hle, if_true], ?_⟩
  rw [byteChar, UInt8.toNat_ofNat_of_lt' hbyte]
  exact Char.ofNat_toNat c

/-- No byte of a large character is that of a small one. -/
theorem not_isSmall_of_mem_encode {c : Char} (h : ¬IsSmall c) {b : UInt8}
    (hb : b ∈ String.utf8EncodeChar c) : ¬IsSmall (byteChar b) := by
  have hlt : ¬c.val.toNat ≤ 127 := fun hle => h (Nat.lt_succ_of_le hle)
  rw [IsSmall, toNat_byteChar]
  simp only [String.utf8EncodeChar, hlt, if_false] at hb
  split at hb
  · simp only [List.mem_cons, List.not_mem_nil, or_false] at hb
    rcases hb with rfl | rfl <;> simp <;> omega
  split at hb
  all_goals
    simp only [List.mem_cons, List.not_mem_nil, or_false] at hb
    rcases hb with rfl | rfl | rfl | rfl <;> simp <;> omega

theorem encode_ne_nil (c : Char) : String.utf8EncodeChar c ≠ [] := by
  apply List.length_pos_iff.mp
  rw [String.length_utf8EncodeChar]
  exact c.utf8Size_pos

theorem offset_advance (p : Position) (c : Char) :
    (p.advance c).offset = p.offset + (String.utf8EncodeChar c).length := by
  rw [String.length_utf8EncodeChar, Position.advance]
  split <;> rfl

theorem offset_advanceAll (p : Position) (text : List Char) :
    (p.advanceAll text).offset = p.offset + (bytesOf text).length := by
  induction text generalizing p with
  | nil => rfl
  | cons c text ih =>
    rw [Position.advanceAll_cons, ih, offset_advance, bytesOf_cons, List.length_append,
      Nat.add_assoc]

/-! ## Classes of small characters -/

/-- The first byte is that of a small character if and only if the first character is that one. -/
theorem head_bytesOf_iff {c : Char} (hc : IsSmall c) (text : List Char) :
    (bytesOf text)[0]?.map byteChar = some c ↔ text.head? = some c := by
  cases text with
  | nil => simp
  | cons d text =>
    by_cases hd : IsSmall d
    · obtain ⟨b, hb, rfl⟩ := encode_of_isSmall hd
      simp [hb]
    · obtain ⟨b, bs, hb⟩ := List.exists_cons_of_ne_nil (encode_ne_nil d)
      have hlarge : ¬IsSmall (byteChar b) := not_isSmall_of_mem_encode hd (by simp [hb])
      have hbyte : byteChar b ≠ c := by
        rintro rfl
        exact hlarge hc
      have hchar : d ≠ c := by
        rintro rfl
        exact hd hc
      simp [hb, hbyte, hchar]

/-- The longest run of small characters of a class is the longest run of bytes of that class. -/
theorem takeWhile_bytesOf {P : UInt8 → Bool} {Q : Char → Bool} (hsmall : ∀ c, Q c → IsSmall c)
    (hsame : ∀ b, P b = Q (byteChar b)) (text : List Char) :
    (bytesOf text).takeWhile P = bytesOf (text.takeWhile Q) := by
  induction text with
  | nil => rfl
  | cons c text ih =>
    by_cases hc : IsSmall c
    · obtain ⟨b, hb, rfl⟩ := encode_of_isSmall hc
      rw [bytesOf_cons, hb, List.singleton_append, List.takeWhile_cons, List.takeWhile_cons, hsame]
      split
      · rw [bytesOf_cons, hb, ih, List.singleton_append]
      · rfl
    · obtain ⟨b, bs, hb⟩ := List.exists_cons_of_ne_nil (encode_ne_nil c)
      have hlarge : ¬IsSmall (byteChar b) := not_isSmall_of_mem_encode hc (by simp [hb])
      have hP : ¬P b := by
        intro h
        exact hlarge (hsmall _ (hsame b ▸ h))
      have hQ : ¬Q c := fun h => hc (hsmall c h)
      rw [bytesOf_cons, hb, List.cons_append, List.takeWhile_cons_of_neg hP,
        List.takeWhile_cons_of_neg hQ]
      rfl

theorem length_bytesOf_of_isSmall {text : List Char} (h : ∀ c ∈ text, IsSmall c) :
    (bytesOf text).length = text.length := by
  induction text with
  | nil => rfl
  | cons c text ih =>
    obtain ⟨b, hb, -⟩ := encode_of_isSmall (h c List.mem_cons_self)
    have htail := ih fun d hd => h d (List.mem_cons_of_mem c hd)
    simp [hb, htail]

theorem offset_behind_append {front text : List Char} (h : ∀ c ∈ text, IsSmall c) :
    (Position.behind (front ++ text)).offset = (Position.behind front).offset + text.length := by
  rw [← length_bytesOf, ← length_bytesOf, bytesOf_append, List.length_append,
    length_bytesOf_of_isSmall h]

theorem isSmall_of_mem_takeWhile {Q : Char → Bool} (hsmall : ∀ c, Q c → IsSmall c)
    (text : List Char) : ∀ c ∈ text.takeWhile Q, IsSmall c :=
  fun c hc => hsmall c (List.all_eq_true.mp List.all_takeWhile c hc)

theorem length_takeWhile_bytesOf {P : UInt8 → Bool} {Q : Char → Bool}
    (hsmall : ∀ c, Q c → IsSmall c) (hsame : ∀ b, P b = Q (byteChar b)) (text : List Char) :
    ((bytesOf text).takeWhile P).length = (text.takeWhile Q).length := by
  rw [takeWhile_bytesOf hsmall hsame]
  exact length_bytesOf_of_isSmall (isSmall_of_mem_takeWhile hsmall text)

theorem drop_length_takeWhile_bytesOf {Q : Char → Bool} (hsmall : ∀ c, Q c → IsSmall c)
    (text : List Char) :
    (bytesOf text).drop (text.takeWhile Q).length = bytesOf (text.dropWhile Q) := by
  have hlength := length_bytesOf_of_isSmall (isSmall_of_mem_takeWhile hsmall text)
  have hsplit : bytesOf text = bytesOf (text.takeWhile Q) ++ bytesOf (text.dropWhile Q) := by
    rw [← bytesOf_append, List.takeWhile_append_dropWhile]
  rw [hsplit, ← hlength, List.drop_left]

theorem map_byteChar_bytesOf {text : List Char} (h : ∀ c ∈ text, IsSmall c) :
    (bytesOf text).map byteChar = text := by
  induction text with
  | nil => rfl
  | cons c text ih =>
    obtain ⟨b, hb, hc⟩ := encode_of_isSmall (h c List.mem_cons_self)
    have htail := ih fun d hd => h d (List.mem_cons_of_mem c hd)
    simp [hb, hc, htail]

/-! ## From bytes back to characters -/

/-- A byte of a small character at the front of a text in bytes is the front of the text. -/
theorem exists_of_bytesOf_cons {text : List Char} {b : UInt8} {more : List UInt8}
    (h : bytesOf text = b :: more) (hsmall : IsSmall (byteChar b)) :
    ∃ rest, text = byteChar b :: rest ∧ bytesOf rest = more := by
  cases text with
  | nil => contradiction
  | cons c rest =>
    by_cases hc : IsSmall c
    · obtain ⟨b', hb, rfl⟩ := encode_of_isSmall hc
      rw [bytesOf_cons, hb, List.singleton_append] at h
      obtain ⟨rfl, hmore⟩ := List.cons.inj h
      exact ⟨rest, rfl, hmore⟩
    · obtain ⟨b', bs, hb⟩ := List.exists_cons_of_ne_nil (encode_ne_nil c)
      rw [bytesOf_cons, hb, List.cons_append] at h
      obtain ⟨rfl, -⟩ := List.cons.inj h
      have hlarge := not_isSmall_of_mem_encode hc (hb ▸ List.mem_cons_self)
      exact absurd hsmall hlarge

theorem exists_of_bytesOf_append {text : List Char} {bytes more : List UInt8}
    (h : bytesOf text = bytes ++ more) (hsmall : ∀ b ∈ bytes, IsSmall (byteChar b)) :
    ∃ rest, text = bytes.map byteChar ++ rest ∧ bytesOf rest = more := by
  induction bytes generalizing text with
  | nil => exact ⟨text, rfl, h⟩
  | cons b bytes ih =>
    obtain ⟨hb, hbytes⟩ := List.forall_mem_cons.mp hsmall
    obtain ⟨rest, rfl, hrest⟩ := exists_of_bytesOf_cons h hb
    obtain ⟨rest, rfl, hmore⟩ := ih hrest hbytes
    exact ⟨rest, rfl, hmore⟩

/-- Wherever there is a byte of a small character, there is that character in the text. -/
theorem exists_front_of_drop {text : List Char} {i : Nat} {b : UInt8} {more : List UInt8}
    (h : (bytesOf text).drop i = b :: more) (hsmall : IsSmall (byteChar b)) :
    ∃ front rest, text = front ++ byteChar b :: rest ∧ (bytesOf front).length = i ∧
      bytesOf rest = more := by
  induction text generalizing i with
  | nil => simp at h
  | cons c text ih =>
    rw [bytesOf_cons] at h
    by_cases hbehind : (String.utf8EncodeChar c).length ≤ i
    · obtain ⟨j, rfl⟩ := Nat.exists_eq_add_of_le hbehind
      rw [List.drop_length_add_append] at h
      obtain ⟨front, rest, rfl, hfront, hrest⟩ := ih h
      refine ⟨c :: front, rest, rfl, ?_, hrest⟩
      rw [bytesOf_cons, List.length_append, hfront]
    · rw [Nat.not_le] at hbehind
      -- The byte is one of those of `c`, so `c` is small, and it has no other byte.
      have hmem : b ∈ String.utf8EncodeChar c := by
        rw [List.drop_append_of_le_length (Nat.le_of_lt hbehind)] at h
        obtain ⟨d, ds, hd⟩ := List.exists_cons_of_length_pos
          (l := (String.utf8EncodeChar c).drop i) (by rw [List.length_drop]; omega)
        rw [hd, List.cons_append] at h
        obtain ⟨rfl, -⟩ := List.cons.inj h
        exact List.mem_of_mem_drop (hd ▸ List.mem_cons_self)
      have hc : IsSmall c := by
        apply Decidable.byContradiction
        intro hlarge
        exact not_isSmall_of_mem_encode hlarge hmem hsmall
      obtain ⟨d, hd, -⟩ := encode_of_isSmall hc
      have hi : i = 0 := by
        rw [hd, List.length_singleton] at hbehind
        omega
      subst hi
      rw [List.drop_zero, ← bytesOf_cons] at h
      obtain ⟨rest, hrest, hmore⟩ := exists_of_bytesOf_cons h hsmall
      exact ⟨[], rest, hrest, rfl, hmore⟩

end TapeMachine
