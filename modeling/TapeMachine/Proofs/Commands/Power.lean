import Mathlib.Data.Int.ModEq
import Mathlib.NumberTheory.Multiplicity
import Mathlib.RingTheory.Int.Basic
import TapeMachine.Commands
import TapeMachine.Program.Compile
import TapeMachine.Proofs.Machine.LongerTape

/-!
# Powers of a cell

Powers wrap as all arithmetic of cells does: they are right modulo `2 ^ 64` (`Cell.toInt_power`).
But an exponent above `Commands.maxExponent` counts as that one, and then the result is only the
power that was asked for if both exponents lead to the same cell. They do for an even cell, whose
powers have all become zero by then, and for an odd one if their difference is a period of it
(`Cell.pow_modEq_one_iff`).
-/

namespace TapeMachine

namespace Cell

/-- Squaring and multiplying gives the power, up to a multiple of `2 ^ 64`. -/
theorem toInt_power (c : Cell) (exponent : Nat) :
    (c.power exponent).toInt ≡ c.toInt ^ exponent [ZMOD 2 ^ 64] := by
  have toInt_mul : ∀ a b : Cell, (a * b).toInt ≡ a.toInt * b.toInt [ZMOD 2 ^ 64] := by
    intro a b
    rw [Int64.toInt_mul]
    exact Int.bmod_emod
  fun_induction power c exponent with
  | case1 c => rw [Int64.toInt_one, pow_zero]
  | case2 c exponent pos rest odd ih =>
    have hexponent : exponent = 2 * (exponent / 2) + 1 := by omega
    calc (c * rest).toInt
        ≡ c.toInt * rest.toInt [ZMOD 2 ^ 64] := toInt_mul c rest
      _ ≡ c.toInt * (c * c).toInt ^ (exponent / 2) [ZMOD 2 ^ 64] := ih.mul_left _
      _ ≡ c.toInt * (c.toInt * c.toInt) ^ (exponent / 2) [ZMOD 2 ^ 64] :=
          ((toInt_mul c c).pow _).mul_left _
      _ = c.toInt ^ exponent := by
          conv_rhs => rw [hexponent]
          rw [pow_succ', pow_mul, pow_two]
  | case3 c exponent pos rest even ih =>
    have hexponent : exponent = 2 * (exponent / 2) := by omega
    calc rest.toInt
        ≡ (c * c).toInt ^ (exponent / 2) [ZMOD 2 ^ 64] := ih
      _ ≡ (c.toInt * c.toInt) ^ (exponent / 2) [ZMOD 2 ^ 64] := (toInt_mul c c).pow _
      _ = c.toInt ^ exponent := by
          conv_rhs => rw [hexponent]
          rw [pow_mul, pow_two]

/-! ## Periods -/

/-- The odd cell `c` has the same powers if the exponent becomes greater by `d`. -/
def IsPeriod (c : Cell) (d : Nat) : Prop :=
  if Even d then 2 ^ 65 ∣ (c.toInt ^ 2 - 1) * d else c = 1

instance (c : Cell) (d : Nat) : Decidable (c.IsPeriod d) :=
  inferInstanceAs (Decidable (if Even d then 2 ^ 65 ∣ (c.toInt ^ 2 - 1) * d else c = 1))

theorem eq_one_of_modEq {c : Cell} (h : c.toInt ≡ 1 [ZMOD 2 ^ 64]) : c = 1 := by
  have hlt : c.toInt < 2 ^ 63 := c.toInt_lt
  have hge : -2 ^ 63 ≤ c.toInt := c.le_toInt
  apply Int64.toInt_inj.mp
  rw [Int64.toInt_one]
  have hmod : c.toInt % 2 ^ 64 = 1 % 2 ^ 64 := h
  omega

/-- How often two divides the distance of a power to one is known from the cell and the exponent. -/
theorem pow_modEq_one_iff {c : Cell} (odd : Odd c.toInt) (d : Nat) :
    c.toInt ^ d ≡ 1 [ZMOD 2 ^ 64] ↔ c.IsPeriod d := by
  have hbelow : (2 : Int) ∣ c.toInt - 1 := (odd.sub_odd odd_one).two_dvd
  have hnot : ¬(2 : Int) ∣ c.toInt := by
    rw [← even_iff_two_dvd, Int.not_even_iff_odd]
    exact odd
  have hdvd : c.toInt ^ d ≡ 1 [ZMOD 2 ^ 64] ↔ (2 : Int) ^ 64 ∣ c.toInt ^ d - 1 ^ d := by
    rw [Int.modEq_comm, Int.modEq_iff_dvd, one_pow]
  rw [hdvd, pow_dvd_iff_le_emultiplicity, IsPeriod]
  split
  · next heven =>
    have hcount := Int.two_pow_sub_pow hbelow hnot heven
    have hfactors : (c.toInt ^ 2 - 1) * d = (c.toInt + 1) * (c.toInt - 1) * d := by ring
    rw [hfactors, pow_dvd_iff_le_emultiplicity, emultiplicity_mul Int.prime_two,
      emultiplicity_mul Int.prime_two, ← hcount]
    exact (ENat.add_le_add_iff_right ENat.one_ne_top).symm
  · next hodd =>
    have hd : ¬(2 : Int) ∣ (d : Int) := by
      rwa [← even_iff_two_dvd, Int.even_coe_nat]
    rw [emultiplicity_pow_sub_pow_of_prime Int.prime_two hbelow hnot hd,
      ← pow_dvd_iff_le_emultiplicity]
    constructor
    · intro h
      exact eq_one_of_modEq (Int.modEq_iff_dvd.mpr h).symm
    · rintro rfl
      exact dvd_zero _

/-- The powers of an even cell become zero. -/
theorem pow_modEq_zero {c : Cell} (even : Even c.toInt) {exponent : Nat} (h : 64 ≤ exponent) :
    c.toInt ^ exponent ≡ 0 [ZMOD 2 ^ 64] := by
  have hdvd : (2 : Int) ^ 64 ∣ c.toInt ^ exponent :=
    (pow_dvd_pow_of_dvd even.two_dvd 64).trans (pow_dvd_pow _ h)
  exact Int.modEq_zero_iff_dvd.mpr hdvd

/-- An exponent may be cut down to `most` if the powers of the cell come to the same. -/
theorem pow_min_modEq_iff (c : Cell) (exponent : Nat) {most : Nat} (h : 64 ≤ most) :
    c.toInt ^ min exponent most ≡ c.toInt ^ exponent [ZMOD 2 ^ 64] ↔
      exponent ≤ most ∨ Even c.toInt ∨ c.IsPeriod (exponent - most) := by
  rcases Nat.le_total exponent most with hle | hge
  · rw [Nat.min_eq_left hle]
    exact iff_of_true rfl (.inl hle)
  rw [Nat.min_eq_right hge]
  rcases Int.even_or_odd c.toInt with even | odd
  · refine iff_of_true ?_ (.inr (.inl even))
    exact (pow_modEq_zero even h).trans (pow_modEq_zero even (h.trans hge)).symm
  have hnot : ¬Even c.toInt := Int.not_even_iff_odd.mpr odd
  have hpower : c.toInt ^ exponent = c.toInt ^ most * c.toInt ^ (exponent - most) := by
    rw [← pow_add, Nat.add_sub_of_le hge]
  -- A power of an odd cell can be cancelled.
  have hcancel : c.toInt ^ most ≡ c.toInt ^ exponent [ZMOD 2 ^ 64] ↔
      c.toInt ^ (exponent - most) ≡ 1 [ZMOD 2 ^ 64] := by
    have hcoprime : IsCoprime ((2 : Int) ^ 64) (c.toInt ^ most) :=
      (Int.isCoprime_two_left.mpr odd).pow
    rw [hpower, Int.modEq_iff_dvd, Int.modEq_comm, Int.modEq_iff_dvd, ← mul_sub_one]
    exact ⟨hcoprime.dvd_of_dvd_mul_left, fun hdvd => hdvd.mul_left _⟩
  rw [hcancel, pow_modEq_one_iff odd]
  constructor
  · exact fun hperiod => .inr (.inr hperiod)
  · rintro (hle | heven | hperiod)
    · rw [Nat.sub_eq_zero_of_le hle, IsPeriod, if_pos .zero, Nat.cast_zero, mul_zero]
      exact dvd_zero _
    · exact absurd heven hnot
    · exact hperiod

end Cell

/-! ## The built-in command -/

namespace Commands

variable {n : Nat}

theorem call_power (argument : Cell) (t : Tape n) (notes : List CommandNote) :
    host.call "\x7bpower\x7d" argument t notes =
      (t.write (t.current.power (exponent argument)), notes) := rfl

theorem exponent_of_nonneg {argument : Cell} (h : 0 ≤ argument.toInt) :
    exponent argument = min argument.toInt.toNat maxExponent := if_pos h

/-- The call of `power` raises the current cell to the power of its argument, but to that of the
largest exponent if the argument is greater, and leaves all else alone. The cell is then congruent
to the power that was asked for if and only if the argument is no greater than the largest exponent,
the cell was even, or the excess is a period of it. -/
theorem power_of_argument (t : Tape n) (notes : List CommandNote) {argument : Cell}
    (h : 0 ≤ argument.toInt) :
    ∃ t', host.call "\x7bpower\x7d" argument t notes = (t', notes) ∧
      t'.head = t.head ∧ (∀ i (hi : i < n), i ≠ t.head → t'.cells[i] = t.cells[i]) ∧
      t'.current.toInt ≡ t.current.toInt ^ min argument.toInt.toNat maxExponent [ZMOD 2 ^ 64] ∧
      (t'.current.toInt ≡ t.current.toInt ^ argument.toInt.toNat [ZMOD 2 ^ 64] ↔
        argument.toInt ≤ maxExponent ∨ Even t.current.toInt ∨
          t.current.IsPeriod (argument.toInt.toNat - maxExponent)) := by
  have hpower := t.current.toInt_power (min argument.toInt.toNat maxExponent)
  have hmost : 64 ≤ maxExponent := by decide
  have hcut := t.current.pow_min_modEq_iff argument.toInt.toNat hmost
  have hle : argument.toInt.toNat ≤ maxExponent ↔ argument.toInt ≤ maxExponent := by omega
  refine ⟨_, call_power argument t notes, Tape.head_write _ _,
    fun i hi hne => Tape.cells_write_of_ne hi hne _, ?_⟩
  rw [exponent_of_nonneg h, Tape.current_write]
  refine ⟨hpower, ?_⟩
  rw [← hle, ← hcut]
  exact ⟨hpower.symm.trans, hpower.trans⟩

/-- An odd cell and an argument one past the largest exponent: the powers of minus one have the
period two, and the excess is one. -/
theorem power_of_argument_past_largest :
    (0 : Int) ≤ (4294967296 : Cell).toInt ∧
    ∃ t', host.call "\x7bpower\x7d" 4294967296 (⟨#v[-1, 5], ⟨0, by decide⟩⟩ : Tape 2) [] =
        (t', []) ∧
      t'.cells[1]? = some 5 ∧
      t'.current.toInt ≡ (-1) ^ 4294967295 [ZMOD 2 ^ 64] ∧
      ¬t'.current.toInt ≡ (-1) ^ 4294967296 [ZMOD 2 ^ 64] := by
  have hargument : (0 : Int) ≤ (4294967296 : Cell).toInt := by decide
  obtain ⟨t', hcall, -, hother, hpower, hright⟩ :=
    power_of_argument (⟨#v[-1, 5], ⟨0, by decide⟩⟩ : Tape 2) [] hargument
  have hsecond : t'.cells[1]? = some 5 :=
    Vector.getElem?_eq_some_iff.mpr ⟨by decide, hother 1 (by decide) (by decide)⟩
  refine ⟨hargument, t', hcall, hsecond, hpower, ?_⟩
  intro hcongr
  have hcases := hright.mp hcongr
  exact absurd hcases (by decide)

/-- The power of a cell with an argument that the compiler can give is not always right: minus one
to an even power stays minus one. -/
theorem power_of_minus_one :
    ∃ c, compile {} "-\x7bpower\x7d4294967296" = .ok c ∧
      c.program.instructions[1]? = some (.call "\x7bpower\x7d" 4294967296) ∧
      ¬(host.call "\x7bpower\x7d" 4294967296 (⟨#v[-1], 0⟩ : Tape 1) []).1.current.toInt ≡
        (-1) ^ 4294967296 [ZMOD 2 ^ 64] := by
  have hcompile : compile {} "-\x7bpower\x7d4294967296" =
      .ok ⟨⟨#[.run .decrement 1, .call "\x7bpower\x7d" 4294967296]⟩, []⟩ := by
    with_unfolding_all rfl
  refine ⟨_, hcompile, rfl, ?_⟩
  have hodd : (-1 : Cell).toInt ^ maxExponent = -1 := Odd.neg_one_pow (by decide)
  have heven : (-1 : Int) ^ 4294967296 = 1 := Even.neg_one_pow (by decide)
  have hpower := (-1 : Cell).toInt_power maxExponent
  rw [hodd] at hpower
  rw [heven]
  intro hcongr
  have hone : (-1 : Int) ≡ 1 [ZMOD 2 ^ 64] := hpower.symm.trans hcongr
  exact absurd hone (by decide)

end Commands

end TapeMachine
