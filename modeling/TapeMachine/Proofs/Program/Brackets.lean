import TapeMachine.Proofs.Program.Bytes

/-!
# One notion of brackets

The check of the brackets reads characters and knows nothing but brackets; assembly reads lexemes
and passes over calls as a whole; a scan over bytes does not even know characters. At every lexeme
they have the same number of open brackets (`agree_addAll`), so they find the same fault or none
(`compile_eq_error_iff`).
-/

namespace TapeMachine

/-- What a check of brackets says of an assembly of the same text. An assembly cannot know a bracket
that stays open: it ends with loops that have no end. -/
def Agree (check : Except BracketError Unit) (result : Except BracketError Assembly) : Prop :=
  match check with
  | .ok () => ∃ a, result = .ok a ∧ a.opened = []
  | .error (.unmatchedClose p) => result = .error (.unmatchedClose p)
  | .error (.unmatchedOpen _) => ∃ a, result = .ok a ∧ a.opened ≠ []

/-- A lexeme that is no bracket leaves the open loops alone. -/
theorem Assembly.add_of_not_bracket {l : Lexeme} (hopen : l ≠ .opening) (hclose : l ≠ .closing)
    (a : Assembly) :
    ∃ b, a.add l = .ok b ∧ b.position = a.position.advanceAll l.text ∧ b.opened = a.opened := by
  cases l with
  | comment c => exact ⟨_, a.add_comment c, by simp [extend, textOf], rfl⟩
  | run op n => exact ⟨_, a.add_single rfl, by simp [extend, textOf], rfl⟩
  | call letters digits => exact ⟨_, a.add_single rfl, by simp [extend, textOf], rfl⟩
  | opening => exact absurd rfl hopen
  | closing => exact absurd rfl hclose

theorem Assembly.add_closing_of_opened {a : Assembly} {start : Nat} {outer : Stack Nat}
    (h : a.opened = start :: outer) :
    ∃ b, a.add .closing = .ok b ∧ b.position = a.position.advance ']' ∧ b.opened = outer := by
  simp only [add, place, closeLoop, h, Stack.pop, List.head?_cons, List.tail_cons, Except.map]
  exact ⟨_, rfl, rfl, rfl⟩

/-- Check and assembly agree from every place on at which as many brackets are open as loops. -/
theorem agree_addAll {ls : List Lexeme} (hwf : ∀ l ∈ ls, l.WellFormed) (a : Assembly)
    (opened : Stack Position) (h : opened.length = a.opened.length) :
    Agree (scanBrackets a.position opened (textOf ls)) (a.addAll ls) := by
  induction ls generalizing a opened with
  | nil =>
    cases opened with
    | nil => exact ⟨a, rfl, List.length_eq_zero_iff.mp h.symm⟩
    | cons p outer =>
      refine ⟨a, rfl, ?_⟩
      intro hnil
      rw [hnil] at h
      contradiction
  | cons l ls ih =>
    have htail : ∀ l ∈ ls, l.WellFormed := fun k hk => hwf k (List.mem_cons_of_mem l hk)
    by_cases hopen : l = .opening
    · subst hopen
      have hlength :
          (opened.push a.position).length = (a.opened.push a.instructions.size).length := by
        rw [Stack.length_push, Stack.length_push, h]
      exact ih htail { a.openLoop with position := a.position.advance '[' } _ hlength
    by_cases hclose : l = .closing
    · subst hclose
      cases opened with
      | nil =>
        have hnil : a.opened = [] := List.length_eq_zero_iff.mp h.symm
        simp only [Assembly.addAll, Assembly.add, Assembly.place, Assembly.closeLoop, hnil]
        rfl
      | cons p outer =>
        obtain ⟨start, loops, hloops⟩ : ∃ start loops, a.opened = start :: loops :=
          List.exists_cons_of_length_pos (h ▸ Nat.succ_pos outer.length)
        obtain ⟨b, hadd, hposition, hopened⟩ := Assembly.add_closing_of_opened hloops
        have hlength : outer.length = b.opened.length := by
          rw [hopened]
          exact Nat.succ.inj (h.trans (congrArg List.length hloops))
        have hrest := ih htail b outer hlength
        rw [hposition] at hrest
        rw [Assembly.addAll, hadd]
        exact hrest
    · obtain ⟨b, hadd, hposition, hopened⟩ := a.add_of_not_bracket hopen hclose
      have hplain := (hwf l List.mem_cons_self).noBracket hopen hclose
      rw [textOf_cons, scanBrackets_append hplain, ← hposition, Assembly.addAll, hadd]
      exact ih htail b opened (h.trans (congrArg List.length hopened.symm))

theorem agree_lexemes (calls : Bool) (source : String) :
    Agree (checkBrackets source) (Assembly.addAll {} (lexemes calls source.toList)) := by
  have hwf : ∀ l ∈ lexemes calls source.toList, l.WellFormed := fun _ => wellFormed_of_mem_lexemes
  have h := agree_addAll hwf {} [] rfl
  rwa [textOf_lexemes] at h

/-- Compiling fails if and only if the check of the brackets does, with the same error. If the check
succeeds, the scan over the bytes meets no bracket without a partner, ends with no loop open and has
made the program. Without the check the scan would itself blame the same closing bracket, or end
with a loop open if a bracket is. -/
theorem compile_eq_error_iff (settings : CompilerSettings) (source : String) :
    (∀ e, compile settings source = .error e ↔ checkBrackets source = .error e) ∧
    (checkBrackets source = .ok () → ∃ s,
      ByteScan.ofSource settings.customInstructions source = .ok s ∧ s.opened = [] ∧
        compile settings source = .ok ⟨⟨s.instructions⟩, s.diagnostics.toList⟩) ∧
    (∀ p, ByteScan.ofSource settings.customInstructions source = .error (.unmatchedClose p) ↔
      checkBrackets source = .error (.unmatchedClose p)) ∧
    ((∃ s, ByteScan.ofSource settings.customInstructions source = .ok s ∧ s.opened ≠ []) ↔
      ∃ p, checkBrackets source = .error (.unmatchedOpen p)) := by
  have hagree := agree_lexemes settings.customInstructions source
  rw [ByteScan.ofSource_eq, compile]
  revert hagree
  cases checkBrackets source with
  | ok =>
    rintro ⟨a, hadd, hopened⟩
    rw [hadd]
    refine ⟨by simp, fun _ => ⟨a.scan, rfl, hopened, rfl⟩, by simp [Except.map], ?_, ?_⟩
    · rintro ⟨s, hs, hne⟩
      obtain rfl := Except.ok.inj hs
      exact absurd hopened hne
    · rintro ⟨p, hp⟩
      contradiction
  | error e =>
    cases e with
    | unmatchedClose p =>
      intro hadd
      have hscan : Assembly.addAll {} (lexemes settings.customInstructions source.toList) =
          .error (.unmatchedClose p) := hadd
      rw [hscan]
      refine ⟨by simp, by simp, by simp [Except.map], ?_, ?_⟩
      · rintro ⟨s, hs, -⟩
        contradiction
      · rintro ⟨q, hq⟩
        exact absurd (Except.error.inj hq) (by simp)
    | unmatchedOpen p =>
      rintro ⟨a, hadd, hopened⟩
      rw [hadd]
      exact ⟨by simp, by simp, by simp [Except.map], fun _ => ⟨p, rfl⟩,
        fun _ => ⟨a.scan, rfl, hopened⟩⟩

end TapeMachine
