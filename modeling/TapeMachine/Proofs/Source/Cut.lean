import TapeMachine.Proofs.Source.Nesting

/-!
# How a text is cut

A text can be written as lexemes in many ways, and only one of them is the one that reading from
left to right finds: each lexeme must go as far as it can. `Lexeme.EndsBefore` says this of one
lexeme and the text behind it, and `Cut` of all lexemes of a text. Lexemes are those of their text
if and only if they are cut like that (`lexemes_eq_iff`), so that parts of a text can be taken out,
or replaced, without reading it again.
-/

namespace TapeMachine

variable {calls : Bool}

/-! ## Longest runs of a class -/

/-- A run of a class with nothing of the class behind it is the longest one. -/
theorem takeWhile_dropWhile_append {p : Char → Bool} {a b : List Char} (inside : ∀ c ∈ a, p c)
    (stop : ∀ c, b.head? = some c → ¬p c) :
    (a ++ b).takeWhile p = a ∧ (a ++ b).dropWhile p = b := by
  rw [List.takeWhile_append_of_pos inside, List.dropWhile_append_of_pos inside]
  cases b with
  | nil => simp
  | cons c b =>
    have hc := stop c rfl
    rw [List.takeWhile_cons_of_neg hc, List.dropWhile_cons_of_neg hc, List.append_nil]
    exact ⟨rfl, rfl⟩

/-! ## One lexeme -/

namespace Lexeme

theorem call?_eq_some_iff {s name digits rest : List Char} :
    call? s = some (name, digits, rest) ↔
      s = name ++ '\x7d' :: (digits ++ rest) ∧ name ≠ [] ∧ (∀ c ∈ name, c.isLower) ∧
        (∀ c ∈ digits, c.isDigit) ∧ ∀ c, rest.head? = some c → ¬c.isDigit := by
  constructor
  · intro h
    refine ⟨call?_eq_some h, ?_⟩
    cases call?_wellFormed h with
    | call name_ne lower digit =>
      refine ⟨name_ne, lower, digit, ?_⟩
      unfold call? at h
      split at h
      · next c cs after _ _ =>
        simp only [Option.some.injEq, Prod.mk.injEq] at h
        obtain ⟨-, -, rfl⟩ := h
        intro d hd
        have hstop := List.head?_dropWhile_not Char.isDigit after
        simp only [hd] at hstop
        exact ne_true_of_eq_false hstop
      · contradiction
  · rintro ⟨rfl, name_ne, lower, digit, stop⟩
    have hbrace : ∀ c, ('\x7d' :: (digits ++ rest)).head? = some c → ¬c.isLower := by
      intro c hc
      obtain rfl := Option.some.inj hc
      decide
    have hname := takeWhile_dropWhile_append lower hbrace
    have hdigits := takeWhile_dropWhile_append digit stop
    obtain ⟨c, cs, rfl⟩ := List.exists_cons_of_ne_nil name_ne
    simp only [call?, hname, hdigits]

/-- A name and a closing brace are a call, with the digits behind them. -/
theorem call?_of_name {name : List Char} (name_ne : name ≠ []) (lower : ∀ c ∈ name, c.isLower)
    (after : List Char) :
    call? (name ++ '\x7d' :: after) =
      some (name, after.takeWhile Char.isDigit, after.dropWhile Char.isDigit) := by
  refine call?_eq_some_iff.mpr ⟨?_, name_ne, lower, ?_, ?_⟩
  · rw [List.takeWhile_append_dropWhile]
  · exact List.all_eq_true.mp List.all_takeWhile
  · intro c hc
    have hstop := List.head?_dropWhile_not Char.isDigit after
    simp only [hc] at hstop
    exact ne_true_of_eq_false hstop

/-- What is no call in front of more text is none without it. -/
theorem call?_eq_none_of_append {s more : List Char} (h : call? (s ++ more) = none) :
    call? s = none := by
  cases hs : call? s with
  | none => rfl
  | some found =>
    obtain ⟨name, digits, rest⟩ := found
    obtain ⟨rfl, name_ne, lower, -, -⟩ := call?_eq_some_iff.mp hs
    -- With more text behind it the call may have more digits.
    rw [List.append_assoc, List.cons_append, call?_of_name name_ne lower] at h
    contradiction

/-- A lexeme that a text may start with if `after` is the rest of the text. -/
def EndsBefore (calls : Bool) (after : List Char) : Lexeme → Prop
  | run op n => 0 < n ∧ after.head? ≠ some op.symbol
  | opening | closing => True
  | call name digits => calls ∧ name ≠ [] ∧ (∀ c ∈ name, c.isLower) ∧ (∀ c ∈ digits, c.isDigit) ∧
      ∀ c, after.head? = some c → ¬c.isDigit
  | comment c => Operator.ofSymbol? c = none ∧ c ≠ '[' ∧ c ≠ ']' ∧
      (c = '\x7b' ∧ calls → call? after = none)

theorem EndsBefore.of_append {l : Lexeme} {after more : List Char}
    (h : l.EndsBefore calls (after ++ more)) : l.EndsBefore calls after := by
  have hhead : ∀ c, after.head? = some c → (after ++ more).head? = some c := by
    intro c hc
    obtain ⟨rest, rfl⟩ := List.head?_eq_some_iff.mp hc
    rfl
  cases l with
  | run op n => exact ⟨h.1, fun hc => h.2 (hhead _ hc)⟩
  | opening => trivial
  | closing => trivial
  | call name digits =>
    obtain ⟨hcalls, name_ne, lower, digit, stop⟩ := h
    exact ⟨hcalls, name_ne, lower, digit, fun c hc => stop c (hhead c hc)⟩
  | comment c =>
    obtain ⟨noOperator, noOpening, noClosing, noCall⟩ := h
    exact ⟨noOperator, noOpening, noClosing, fun hc => call?_eq_none_of_append (noCall hc)⟩

/-- A character that no call goes past. -/
def StopsCalls (c : Char) : Prop := ¬c.isLower ∧ ¬c.isDigit ∧ c ≠ '\x7d'

instance (c : Char) : Decidable (StopsCalls c) :=
  inferInstanceAs (Decidable (¬c.isLower ∧ ¬c.isDigit ∧ c ≠ '\x7d'))

theorem head?_append_cons {P : Char → Prop} {s t : List Char} {c : Char}
    (h : ∀ d, s.head? = some d → P d) (hc : P c) : ∀ d, (s ++ c :: t).head? = some d → P d := by
  intro d hd
  cases s with
  | nil =>
    obtain rfl := Option.some.inj hd
    exact hc
  | cons e s => exact h d hd

/-- A character that stops calls does not make a call of what is none. -/
theorem call?_append_of_stopsCalls {s t : List Char} {c : Char} (hc : StopsCalls c)
    (h : call? s = none) : call? (s ++ c :: t) = none := by
  cases hmore : call? (s ++ c :: t) with
  | none => rfl
  | some found =>
    obtain ⟨name, digits, rest⟩ := found
    obtain ⟨htext, name_ne, lower, -, -⟩ := call?_eq_some_iff.mp hmore
    -- The name and its closing brace are in front of the character, as neither holds it.
    rcases List.append_eq_append_iff.mp htext with ⟨u, hname, hu⟩ | ⟨u, hs, hu⟩
    · cases u with
      | nil =>
        obtain ⟨hbrace, -⟩ := List.cons.inj hu
        exact absurd hbrace hc.2.2
      | cons d u =>
        obtain ⟨rfl, -⟩ := List.cons.inj hu
        exact absurd (lower c (by simp [hname])) hc.1
    · cases u with
      | nil =>
        obtain ⟨hbrace, -⟩ := List.cons.inj hu
        exact absurd hbrace.symm hc.2.2
      | cons d u =>
        obtain ⟨rfl, -⟩ := List.cons.inj hu
        rw [hs, call?_of_name name_ne lower] at h
        contradiction

/-- What ends before a text ends before a longer one, if the character behind the text would not
have gone on with it. -/
theorem EndsBefore.append_of_stopsCalls {l : Lexeme} {after more : List Char} {c : Char}
    (hc : StopsCalls c) (hrun : ∀ op n, l = run op n → op.symbol ≠ c)
    (h : l.EndsBefore calls after) : l.EndsBefore calls (after ++ c :: more) := by
  cases l with
  | run op n =>
    obtain ⟨pos, stop⟩ := h
    refine ⟨pos, ?_⟩
    intro hhead
    exact head?_append_cons (P := (· ≠ op.symbol)) (fun d hd hsame => stop (hsame ▸ hd))
      (hrun op n rfl).symm _ hhead rfl
  | opening => trivial
  | closing => trivial
  | call name digits =>
    obtain ⟨hcalls, name_ne, lower, digit, stop⟩ := h
    exact ⟨hcalls, name_ne, lower, digit, head?_append_cons stop hc.2.1⟩
  | comment d =>
    obtain ⟨noOperator, noOpening, noClosing, noCall⟩ := h
    exact ⟨noOperator, noOpening, noClosing, fun hd => call?_append_of_stopsCalls hc (noCall hd)⟩

theorem EndsBefore.wellFormed {l : Lexeme} {after : List Char} (h : l.EndsBefore calls after) :
    l.WellFormed := by
  cases l with
  | run op n => exact .run op h.1
  | opening => exact .opening
  | closing => exact .closing
  | call name digits =>
    obtain ⟨-, name_ne, lower, digit, -⟩ := h
    exact .call name_ne lower digit
  | comment c =>
    obtain ⟨noOperator, noOpening, noClosing, -⟩ := h
    exact .comment noOperator noOpening noClosing

/-- A lexeme is the whole of its own text. -/
theorem WellFormed.endsBefore_nil {l : Lexeme} (h : l.WellFormed) : l.EndsBefore true [] := by
  cases h with
  | run op pos => exact ⟨pos, nofun⟩
  | opening => trivial
  | closing => trivial
  | call name_ne lower digit => exact ⟨rfl, name_ne, lower, digit, nofun⟩
  | comment noOperator noOpening noClosing =>
    exact ⟨noOperator, noOpening, noClosing, fun _ => rfl⟩

theorem endsBefore_next (calls : Bool) (c : Char) (rest : List Char) :
    (next calls c rest).1.EndsBefore calls (next calls c rest).2 := by
  unfold next
  split
  · next op hop =>
    obtain rfl := Operator.ofSymbol?_eq_some_iff.mp hop
    refine ⟨Nat.succ_pos _, ?_⟩
    intro hhead
    have hstop := List.head?_dropWhile_not (· == op.symbol) rest
    simp only [hhead, beq_self_eq_true] at hstop
    contradiction
  · next hop =>
    split
    · trivial
    split
    · trivial
    next hopen hclose =>
    split
    · next hbrace =>
      split
      · next hcall => exact ⟨hbrace.2, (call?_eq_some_iff.mp hcall).2⟩
      · next hcall => exact ⟨hop, hopen, hclose, fun _ => hcall⟩
    · next hbrace => exact ⟨hop, hopen, hclose, fun h => absurd h hbrace⟩

theorem next_of_endsBefore {c : Char} {l : Lexeme} {rest after : List Char}
    (htext : c :: rest = l.text ++ after) (h : l.EndsBefore calls after) :
    next calls c rest = (l, after) := by
  cases l with
  | run op n =>
    obtain ⟨m, rfl⟩ := Nat.exists_eq_succ_of_ne_zero (Nat.ne_of_gt h.1)
    obtain ⟨rfl, rfl⟩ := List.cons.inj htext
    have hall : ∀ d ∈ List.replicate m op.symbol, (d == op.symbol) = true := by
      intro d hd
      simp [List.eq_of_mem_replicate hd]
    have hstop : ∀ d, after.head? = some d → ¬(d == op.symbol) = true := by
      intro d hd heq
      exact h.2 (eq_of_beq heq ▸ hd)
    simp [next, takeWhile_dropWhile_append hall hstop]
  | opening =>
    obtain ⟨rfl, rfl⟩ := List.cons.inj htext
    rfl
  | closing =>
    obtain ⟨rfl, rfl⟩ := List.cons.inj htext
    rfl
  | call name digits =>
    obtain ⟨hcalls, hends⟩ := h
    simp only [text, bracedName, List.cons_append, List.append_assoc, List.nil_append] at htext
    obtain ⟨rfl, hrest⟩ := List.cons.inj htext
    have hcall := call?_eq_some_iff.mpr ⟨hrest, hends⟩
    simp [next, Operator.ofSymbol?, hcalls, hcall]
  | comment d =>
    obtain ⟨noOperator, noOpening, noClosing, noCall⟩ := h
    obtain ⟨rfl, rfl⟩ := List.cons.inj htext
    simp only [next, noOperator, noOpening, noClosing, if_false]
    split
    · next hbrace => rw [noCall hbrace]
    · rfl

/-- Only blocks have operators in their text. -/
theorem WellFormed.noOperator {l : Lexeme} (h : l.WellFormed) (hrun : ∀ op n, l ≠ .run op n) :
    ∀ c ∈ l.text, Operator.ofSymbol? c = none := by
  cases h with
  | run op _ => exact absurd rfl (hrun op _)
  | opening => simp [text, Operator.ofSymbol?]
  | closing => simp [text, Operator.ofSymbol?]
  | call _ lower digit =>
    intro c hc
    cases hop : Operator.ofSymbol? c with
    | none => rfl
    | some op =>
      obtain rfl := Operator.ofSymbol?_eq_some_iff.mp hop
      simp only [text, bracedName, List.mem_append, List.mem_cons, List.not_mem_nil, or_false] at hc
      rcases hc with (hc | hc | hc) | hc
      · cases op <;> contradiction
      · have := lower _ hc
        cases op <;> contradiction
      · cases op <;> contradiction
      · have := digit _ hc
        cases op <;> contradiction
  | comment noOperator =>
    intro c hc
    rwa [List.mem_singleton.mp hc]

end Lexeme

/-! ## Whole texts -/

/-- Lexemes that each go as far as they can in the text that they make up. -/
def Cut (calls : Bool) : List Lexeme → Prop
  | [] => True
  | l :: ls => l.EndsBefore calls (textOf ls) ∧ Cut calls ls

theorem Cut.of_append {a b : List Lexeme} (h : Cut calls (a ++ b)) : Cut calls a ∧ Cut calls b := by
  induction a with
  | nil => exact ⟨trivial, h⟩
  | cons l a ih =>
    obtain ⟨hl, htail⟩ := h
    obtain ⟨ha, hb⟩ := ih htail
    have hends : l.EndsBefore calls (textOf a ++ textOf b) := textOf_append a b ▸ hl
    exact ⟨⟨hends.of_append, ha⟩, hb⟩

theorem Cut.wellFormed {ls : List Lexeme} (h : Cut calls ls) : ∀ l ∈ ls, l.WellFormed := by
  induction ls with
  | nil => nofun
  | cons l ls ih =>
    intro k hk
    rcases List.mem_cons.mp hk with rfl | hk
    · exact h.1.wellFormed
    · exact ih h.2 k hk

theorem cut_lexemes (calls : Bool) (s : List Char) : Cut calls (lexemes calls s) := by
  fun_induction lexemes calls s with
  | case1 => trivial
  | case2 c rest ih =>
    refine ⟨?_, ih⟩
    rw [textOf_lexemes]
    exact Lexeme.endsBefore_next calls c rest

/-- A text starts with the lexeme that ends before the rest of it. -/
theorem lexemes_of_endsBefore {l : Lexeme} {after : List Char} (h : l.EndsBefore calls after) :
    lexemes calls (l.text ++ after) = l :: lexemes calls after := by
  obtain ⟨c, rest, htext⟩ := List.exists_cons_of_ne_nil h.wellFormed.text_ne_nil
  have hall : l.text ++ after = c :: (rest ++ after) := congrArg (· ++ after) htext
  rw [hall, lexemes, Lexeme.next_of_endsBefore hall.symm h]

theorem Cut.lexemes_textOf {ls : List Lexeme} (h : Cut calls ls) :
    lexemes calls (textOf ls) = ls := by
  induction ls with
  | nil => simp [lexemes]
  | cons l ls ih =>
    obtain ⟨hends, htail⟩ := h
    rw [textOf_cons, lexemes_of_endsBefore hends, ih htail]

/-- The lexemes of a text are the only ones that make it up and go as far as they can. -/
theorem lexemes_eq_iff {s : List Char} {ls : List Lexeme} :
    lexemes calls s = ls ↔ textOf ls = s ∧ Cut calls ls := by
  constructor
  · rintro rfl
    exact ⟨textOf_lexemes calls s, cut_lexemes calls s⟩
  · rintro ⟨rfl, h⟩
    exact h.lexemes_textOf

end TapeMachine
