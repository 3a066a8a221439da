import Mathlib.Data.Option.Basic
import TapeMachine.Json.Token
import TapeMachine.Json.Writer
import TapeMachine.Proofs.Numerals
import TapeMachine.Proofs.Source.Cut

/-!
# Scalars are read as they are written

A string is written in quotes with some of its characters by name or by code, and reading undoes
this one character at a time (`Json.pieces?_escape`). An integer is written as its numeral, and is
read as an integer if nothing behind it goes on with a number (`Json.scalar?_toString`).
-/

namespace TapeMachine.Json

/-! ## Strings -/

theorem hexValue?_hexDigit : ∀ n < 16, hexValue? (hexDigit n) = some n := by decide

/-- A control character is written by its code. -/
theorem coded?_hexDigit {c : Char} (h : c < ' ') :
    coded? '0' '0' (hexDigit (c.toNat / 16)) (hexDigit (c.toNat % 16)) = some (.char c) := by
  have hsmall : c.toNat < 32 := h
  have hzero : hexValue? '0' = some 0 := rfl
  have hhigh := hexValue?_hexDigit (c.toNat / 16) (by omega)
  have hlow := hexValue?_hexDigit (c.toNat % 16) (by omega)
  have hcode : ((0 * 16 + 0) * 16 + c.toNat / 16) * 16 + c.toNat % 16 = c.toNat := by omega
  have hnoHalf : ¬(0xd800 ≤ c.toNat ∧ c.toNat < 0xe000) := by omega
  simp only [coded?, hzero, hhigh, hlow, Option.bind_eq_bind, Option.bind_some, hcode, hnoHalf,
    if_false, Char.ofNat_toNat, Option.pure_def]

/-- The pieces of a string in which the character `c` comes next. -/
def charThen (c : Char) (found : Option (List Piece × List Char)) :
    Option (List Piece × List Char) :=
  found.map fun (pieces, rest) => (.char c :: pieces, rest)

theorem pieces?_escaped {e c : Char} (h : escaped? e = some c) (text : List Char) :
    pieces? ('\\' :: e :: text) = charThen c (pieces? text) := by
  have hcode : e ≠ 'u' := by
    rintro rfl
    contradiction
  rw [charThen, Option.map_eq_bind, pieces?.eq_4 e text fun _ _ _ _ _ he _ => hcode he, h]
  rfl

/-- However a character is written inside a string, it is read as itself. -/
theorem pieces?_escape (c : Char) (text : List Char) :
    pieces? (escape c ++ text) = charThen c (pieces? text) := by
  unfold escape
  split_ifs with hquote hslash hnewline hreturn htab hback hfeed hcontrol
  · subst hquote
    exact pieces?_escaped rfl text
  · subst hslash
    exact pieces?_escaped rfl text
  · subst hnewline
    exact pieces?_escaped rfl text
  · subst hreturn
    exact pieces?_escaped rfl text
  · subst htab
    exact pieces?_escaped rfl text
  · subst hback
    exact pieces?_escaped rfl text
  · subst hfeed
    exact pieces?_escaped rfl text
  · have hcoded := coded?_hexDigit hcontrol
    simp only [List.cons_append, List.nil_append, pieces?, hcoded, Option.bind_eq_bind,
      Option.bind_some, charThen, Option.map_eq_bind]
    rfl
  · rw [List.singleton_append, pieces?, if_neg hcontrol, charThen, Option.map_eq_bind]
    · rfl
    · exact hquote
    · exact fun _ _ _ _ _ hc _ => hslash hc
    · exact fun _ _ hc _ => hslash hc

theorem pieces?_flatMap_escape (cs rest : List Char) :
    pieces? (cs.flatMap escape ++ '"' :: rest) = some (cs.map .char, rest) := by
  induction cs with
  | nil => rw [List.flatMap_nil, List.nil_append, pieces?]; rfl
  | cons c cs ih => rw [List.flatMap_cons, List.append_assoc, pieces?_escape, ih]; rfl

theorem joinPieces?_map_char (cs : List Char) : joinPieces? (cs.map .char) = some cs := by
  induction cs with
  | nil => rfl
  | cons c cs ih => rw [List.map_cons, joinPieces?, ih]; rfl

theorem toList_quote (s : String) :
    (quote s).toList = '"' :: (s.toList.flatMap escape ++ ['"']) := by
  simp [quote]

theorem ofPieces_map_char (s : String) : ofPieces (s.toList.map .char) = string s := by
  rw [ofPieces, joinPieces?_map_char]
  exact congrArg string String.ofList_toList

theorem scalar?_quote (s : String) (rest : List Char) :
    scalar? ((quote s).toList ++ rest) = some (string s, rest) := by
  rw [toList_quote, List.cons_append, List.append_assoc, List.singleton_append, scalar?,
    pieces?_flatMap_escape, Option.map_some, ← ofPieces_map_char]

/-! ## Numbers and words -/

/-- Text that does not go on with a number. -/
def EndsNumber (rest : List Char) : Prop :=
  ∀ c, rest.head? = some c → ¬c.isDigit ∧ c ≠ '.' ∧ c ≠ 'e' ∧ c ≠ 'E'

theorem digits?_toDigits (n : Nat) {rest : List Char} (h : EndsNumber rest) :
    digits? (Nat.toDigits 10 n ++ rest) = some (Nat.toDigits 10 n, rest) := by
  have hdigits : ∀ c ∈ Nat.toDigits 10 n, c.isDigit :=
    fun c => Nat.isDigit_of_mem_toDigits (by decide) (by decide)
  have hspan := takeWhile_dropWhile_append hdigits fun c hc => (h c hc).1
  obtain ⟨d, ds, hds⟩ := List.exists_cons_of_ne_nil (Nat.toDigits_ne_nil (n := n) (b := 10))
  rw [hds] at hspan ⊢
  simp only [digits?, hspan]

theorem fraction?_of_endsNumber {rest : List Char} (h : EndsNumber rest) :
    fraction? rest = some ([], rest) := by
  rw [fraction?]
  rintro rest' rfl
  exact (h '.' rfl).2.1 rfl

theorem exponent?_of_endsNumber {rest : List Char} (h : EndsNumber rest) :
    exponent? rest = some ([], rest) := by
  cases rest with
  | nil => rfl
  | cons c rest =>
    obtain ⟨-, -, hsmall, hlarge⟩ := h c rfl
    rw [exponent?.eq_def]
    exact if_neg (not_or.mpr ⟨hsmall, hlarge⟩)

/-- A numeral has no zeros in front. -/
theorem guard_toDigits (n : Nat) :
    guard ((Nat.toDigits 10 n).length = 1 ∨ (Nat.toDigits 10 n).head? ≠ some '0') =
      some () := by
  apply if_pos
  by_cases hn : n = 0
  · subst hn
    exact .inl rfl
  · exact .inr fun h => hn (eq_zero_of_head?_toDigits h)

theorem number?_toString (n : Int) {rest : List Char} (h : EndsNumber rest) :
    number? ((toString n).toList ++ rest) = some (int n, rest) := by
  rw [toList_toString_int]
  split
  · next hn =>
    have hvalue : (n.toNat : Int) = n := Int.toNat_of_nonneg hn
    have hdigits : decimalValue (Nat.toDigits 10 n.toNat) = n.toNat := Nat.ofDigitChars_ten_toDigits
    have hsign := toDigits_append_ne_cons (c := '-') (by decide) n.toNat rest
    rw [number?.eq_2 _ hsign, digits?_toDigits _ h]
    dsimp only [Option.bind_eq_bind, Option.bind_some]
    rw [guard_toDigits, fraction?_of_endsNumber h]
    simp [exponent?_of_endsNumber h, hdigits, -Int.ofNat_toNat, hvalue]
  · next hn =>
    have hvalue : ((-n).toNat : Int) = -n := Int.toNat_of_nonneg (by omega)
    have hdigits : decimalValue (Nat.toDigits 10 (-n).toNat) = (-n).toNat :=
      Nat.ofDigitChars_ten_toDigits
    have hne : n ≠ 0 := by omega
    rw [List.cons_append, number?.eq_1, digits?_toDigits _ h]
    dsimp only [Option.bind_eq_bind, Option.bind_some]
    rw [guard_toDigits, fraction?_of_endsNumber h]
    simp [exponent?_of_endsNumber h, hdigits, -Int.ofNat_toNat, hvalue, hne]

/-- A number is read as a value whatever else could be. -/
theorem scalar?_toString (n : Int) {rest : List Char} (h : EndsNumber rest) :
    scalar? ((toString n).toList ++ rest) = some (int n, rest) := by
  have hstart : ∀ c, ¬c.isDigit → c ≠ '-' → ∀ rest',
      (toString n).toList ++ rest ≠ c :: rest' := by
    intro c hdigit hsign rest'
    rw [toList_toString_int]
    split
    · exact toDigits_append_ne_cons hdigit _ rest rest'
    · exact fun heq => hsign (List.cons.inj heq).1.symm
  have hliteral : literal? ((toString n).toList ++ rest) = none := by
    rw [literal?]
    · exact fun _ => hstart 'n' (by decide) (by decide) _
    · exact fun _ => hstart 't' (by decide) (by decide) _
    · exact fun _ => hstart 'f' (by decide) (by decide) _
  rw [scalar?.eq_2 _ (hstart '"' (by decide) (by decide)), hliteral, number?_toString n h,
    Option.none_or]

/-- No value starts with a blank or with punctuation. -/
theorem scalar?_eq_none {c : Char} (h : isBlank c ∨ isMark c) (rest : List Char) :
    scalar? (c :: rest) = none := by
  simp only [isBlank, isMark, decide_eq_true_eq, List.mem_cons, List.not_mem_nil, or_false] at h
  rcases h with (rfl | rfl | rfl | rfl) | (rfl | rfl | rfl | rfl | rfl | rfl) <;> rfl

end TapeMachine.Json
