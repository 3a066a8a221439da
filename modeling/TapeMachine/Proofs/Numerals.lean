import Mathlib.Data.List.Basic
import TapeMachine.Decimal

/-!
# Numerals in fields

A number is written with more digits the larger it is, so a field that is as wide as the largest of
several numbers holds all of them (`length_padLeft_toString`). A numeral has digits in it and at
most a minus sign, and tells its number; and what is in front of a separator can be told from what
is behind it (`append_cons_inj`).
-/

namespace TapeMachine

/-! ## Fields -/

/-- What is in front of the first separator, and what is behind it. -/
theorem append_cons_inj {α : Type} {separator : α} {a b s t : List α} (ha : separator ∉ a)
    (hb : separator ∉ b) (h : a ++ separator :: s = b ++ separator :: t) : a = b ∧ s = t := by
  induction a generalizing b with
  | nil =>
    cases b with
    | nil => exact ⟨rfl, (List.cons.inj h).2⟩
    | cons x b => exact absurd (List.mem_cons.mpr (.inl (List.cons.inj h).1)) hb
  | cons x a ih =>
    cases b with
    | nil => exact absurd (List.mem_cons.mpr (.inl (List.cons.inj h).1.symm)) ha
    | cons y b =>
      obtain ⟨rfl, htail⟩ := List.cons.inj h
      have htails := ih (List.not_mem_of_not_mem_cons ha) (List.not_mem_of_not_mem_cons hb) htail
      exact htails.imp_left (congrArg (x :: ·))

theorem decimalWidth_mono {m n : Nat} (h : m ≤ n) : decimalWidth m ≤ decimalWidth n := by
  have hpos : 0 < decimalWidth n := Nat.length_repr_pos
  have hlt : n < 10 ^ decimalWidth n := (Nat.length_repr_le_iff hpos).mp (Nat.le_refl _)
  exact (Nat.length_repr_le_iff hpos).mpr (Nat.lt_of_le_of_lt h hlt)

theorem length_padLeft {width : Nat} {text : String} (fill : Char) (h : text.length ≤ width) :
    (padLeft fill width text).length = width := by
  rw [padLeft, String.length_append, String.length_ofList, List.length_replicate,
    Nat.sub_add_cancel h]

/-- A field for the larger number is filled by the numeral of the smaller one. -/
theorem length_padLeft_toString {m n : Nat} (fill : Char) (h : m ≤ n) :
    (padLeft fill (decimalWidth n) (toString m)).length = decimalWidth n :=
  length_padLeft fill (decimalWidth_mono h)

/-! ## Numerals with a sign -/

theorem toList_toString_int (n : Int) :
    (toString n).toList =
      if 0 ≤ n then Nat.toDigits 10 n.toNat else '-' :: Nat.toDigits 10 (-n).toNat := by
  rw [Int.toString_eq_repr, Int.repr_eq_if]
  split
  · exact Nat.toList_repr
  · rw [String.toList_append, Nat.toList_repr]
    rfl

theorem toDigits_inj {m n : Nat} (h : Nat.toDigits 10 m = Nat.toDigits 10 n) : m = n := by
  have hvalue := congrArg (Nat.ofDigitChars 10 · 0) h
  simpa only [Nat.ofDigitChars_ten_toDigits] using hvalue

theorem toString_nat_inj {m n : Nat} (h : toString m = toString n) : m = n := by
  have h := congrArg String.toList h
  exact toDigits_inj (Nat.toList_repr.symm.trans (h.trans Nat.toList_repr))

/-- Only the numeral of 0 starts with 0. -/
theorem eq_zero_of_head?_toDigits {n : Nat} (h : (Nat.toDigits 10 n).head? = some '0') : n = 0 := by
  induction n using Nat.strongRecOn with
  | ind n ih =>
    by_cases hn : n < 10
    · rw [Nat.toDigits_of_lt_base hn] at h
      have hdigit : ∀ d < 10, d.digitChar = '0' → d = 0 := by decide
      exact hdigit n hn (Option.some.inj h)
    · have hle : 10 ≤ n := Nat.le_of_not_lt hn
      rw [Nat.toDigits_of_base_le (by decide) hle,
        List.head?_append_of_ne_nil _ Nat.toDigits_ne_nil] at h
      have := ih (n / 10) (by omega) h
      omega

/-- A numeral starts with a digit. -/
theorem toDigits_append_ne_cons {c : Char} (hc : ¬c.isDigit) (n : Nat) (behind rest : List Char) :
    Nat.toDigits 10 n ++ behind ≠ c :: rest := by
  intro h
  obtain ⟨d, ds, hds⟩ := List.exists_cons_of_ne_nil (Nat.toDigits_ne_nil (n := n) (b := 10))
  have hdigit : d.isDigit :=
    Nat.isDigit_of_mem_toDigits (by decide) (by decide) (hds ▸ List.mem_cons_self)
  rw [hds] at h
  exact hc ((List.cons.inj h).1 ▸ hdigit)

theorem toList_toString_int_ne_nil (n : Int) : (toString n).toList ≠ [] := by
  rw [toList_toString_int]
  split
  · exact Nat.toDigits_ne_nil
  · exact List.cons_ne_nil _ _

theorem toString_int_inj {a b : Int} (h : toString a = toString b) : a = b := by
  have h := congrArg String.toList h
  rw [toList_toString_int, toList_toString_int] at h
  split at h <;> split at h
  · have := toDigits_inj h
    omega
  · exact absurd ((List.append_nil _).trans h) (toDigits_append_ne_cons (by decide) _ [] _)
  · exact absurd ((List.append_nil _).trans h.symm) (toDigits_append_ne_cons (by decide) _ [] _)
  · have := toDigits_inj (List.cons.inj h).2
    omega

theorem eq_minus_or_isDigit_of_mem_toString {n : Int} {c : Char} (h : c ∈ (toString n).toList) :
    c = '-' ∨ c.isDigit := by
  rw [toList_toString_int] at h
  split at h
  · exact .inr (Nat.isDigit_of_mem_toDigits (by decide) (by decide) h)
  · exact (List.mem_cons.mp h).imp_right (Nat.isDigit_of_mem_toDigits (by decide) (by decide))

end TapeMachine
