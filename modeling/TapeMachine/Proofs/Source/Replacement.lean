import TapeMachine.Proofs.Source.Cut

/-!
# Other text in the place of calls

Some calls of a text are replaced by other text. If the new text starts with a character that no
call goes past, the lexemes around it stay what they are: a brace in front that is no call does not
become one, and a lexeme ends where it ended. Only a block of the operator that the new text starts
with grows, and what does not tell a block from its parts does not see that either
(`CallsReplaced.flatMap_lexemes`).
-/

namespace TapeMachine

/-- The second text is the first with some of its calls replaced; `Q` tells by what a call with
given letters and digits can be. -/
inductive CallsReplaced (Q : List Char → List Char → List Char → Prop) :
    List Char → List Char → Prop
  | nil : CallsReplaced Q [] []
  | keep (c : Char) {s t : List Char} (rest : CallsReplaced Q s t) :
      CallsReplaced Q (c :: s) (c :: t)
  | replace {letters digits new s t : List Char}
      (call : (Lexeme.call letters digits).EndsBefore true s) (h : Q letters digits new)
      (rest : CallsReplaced Q s t) :
      CallsReplaced Q ((Lexeme.call letters digits).text ++ s) (new ++ t)

/-- In the text of a lexeme an opening brace can only be the first character. -/
theorem Lexeme.WellFormed.brace_notMem_tail {l : Lexeme} (h : l.WellFormed) {c : Char}
    {tail : List Char} (htext : l.text = c :: tail) : '\x7b' ∉ tail := by
  intro hbrace
  obtain ⟨front, behind, rfl⟩ := List.append_of_mem hbrace
  have htext : l.text = (c :: front) ++ '\x7b' :: behind := htext
  have hnil := (h.eq_of_brace htext).1
  contradiction

namespace CallsReplaced

variable {Q : List Char → List Char → List Char → Prop} {s t after : List Char}

/-- Text in front is kept. -/
theorem append_left (u : List Char) (h : CallsReplaced Q s t) :
    CallsReplaced Q (u ++ s) (u ++ t) := by
  induction u with
  | nil => exact h
  | cons c u ih => exact .keep c ih

/-- Without brackets in the new texts the brackets are those that were there. -/
theorem brackets_eq (h : CallsReplaced Q s t)
    (noBracket : ∀ {letters digits new}, Q letters digits new → Lexeme.NoBracket new) :
    brackets s = brackets t := by
  induction h with
  | nil => rfl
  | keep c _ ih =>
    rw [← List.singleton_append, brackets_append, ih, ← brackets_append, List.singleton_append]
  | replace call hnew _ ih =>
    rw [brackets_append, brackets_append, ih, (noBracket hnew).brackets_eq,
      (call.wellFormed.noBracket nofun nofun).brackets_eq]

/-- Text without an opening brace is kept. -/
theorem of_noBrace {u : List Char} (hu : '\x7b' ∉ u) (h : CallsReplaced Q (u ++ s) t) :
    ∃ t', t = u ++ t' ∧ CallsReplaced Q s t' := by
  induction u generalizing t with
  | nil => exact ⟨t, rfl, h⟩
  | cons c u ih =>
    obtain ⟨hc, hu⟩ := List.ne_and_not_mem_of_not_mem_cons hu
    generalize htext : c :: u ++ s = text at h
    cases h with
    | nil => contradiction
    | keep d rest =>
      obtain ⟨rfl, rfl⟩ := List.cons.inj htext
      obtain ⟨t', rfl, ht'⟩ := ih hu rest
      exact ⟨t', rfl, ht'⟩
    | replace => exact absurd (List.cons.inj htext).1.symm hc

/-- The first lexeme of a text is kept, or it is a call and replaced. -/
theorem lexeme_cases {l : Lexeme} (hl : l.EndsBefore true after)
    (h : CallsReplaced Q (l.text ++ after) t) :
    (∃ t', t = l.text ++ t' ∧ CallsReplaced Q after t') ∨
      ∃ letters digits new t', l = .call letters digits ∧ Q letters digits new ∧ t = new ++ t' ∧
        CallsReplaced Q after t' := by
  obtain ⟨c, tail, htext⟩ := List.exists_cons_of_ne_nil hl.wellFormed.text_ne_nil
  generalize hall : l.text ++ after = text at h
  cases h with
  | nil =>
    rw [htext] at hall
    contradiction
  | keep d rest =>
    rw [htext] at hall
    obtain ⟨rfl, rfl⟩ := List.cons.inj hall
    obtain ⟨t', rfl, ht'⟩ := rest.of_noBrace (hl.wellFormed.brace_notMem_tail htext)
    exact .inl ⟨t', by rw [htext]; rfl, ht'⟩
  | replace call hnew rest =>
    -- A text starts with one lexeme only.
    have hsame := (lexemes_of_endsBefore hl).symm.trans
      ((congrArg (lexemes true) hall).trans (lexemes_of_endsBefore call))
    obtain ⟨rfl, -⟩ := List.cons.inj hsame
    obtain rfl := List.append_cancel_left hall
    exact .inr ⟨_, _, _, _, rfl, hnew, rfl, rest⟩

section

variable {c : Char} (starts : ∀ {letters digits new}, Q letters digits new → ∃ u, new = c :: u)

include starts

/-- The texts are the same up to where the first new text starts, if there is one. -/
theorem eq_or_starts (h : CallsReplaced Q s t) :
    s = t ∨ ∃ front u v, s = front ++ u ∧ t = front ++ c :: v := by
  induction h with
  | nil => exact .inl rfl
  | keep d _ ih =>
    rcases ih with rfl | ⟨front, u, v, rfl, rfl⟩
    · exact .inl rfl
    · exact .inr ⟨d :: front, u, v, rfl, rfl⟩
  | @replace _ _ _ _ t _ hnew _ _ =>
    obtain ⟨u, rfl⟩ := starts hnew
    exact .inr ⟨[], _, u ++ t, rfl, rfl⟩

/-- A lexeme ends before the new text if it ended before the old one. -/
theorem endsBefore (hc : Lexeme.StopsCalls c) (h : CallsReplaced Q s t) {l : Lexeme}
    (hrun : ∀ op n, l = .run op n → op.symbol ≠ c) (hl : l.EndsBefore true s) :
    l.EndsBefore true t := by
  rcases h.eq_or_starts starts with rfl | ⟨front, u, v, rfl, rfl⟩
  · exact hl
  · exact hl.of_append.append_of_stopsCalls hc hrun

/-- What is made of each lexeme, in order, stays the same if as much is made of the new text as of
the call, and if a block makes the same wherever it ends. -/
theorem flatMap_lexemes {α : Type} {L : Lexeme → List α} (hc : Lexeme.StopsCalls c)
    (replaced : ∀ {letters digits new}, Q letters digits new → ∀ t,
      (lexemes true (new ++ t)).flatMap L = L (.call letters digits) ++ (lexemes true t).flatMap L)
    (grown : ∀ op n, op.symbol = c → ∀ t,
      (lexemes true ((Lexeme.run op n).text ++ t)).flatMap L =
        L (.run op n) ++ (lexemes true t).flatMap L)
    (h : CallsReplaced Q s t) : (lexemes true s).flatMap L = (lexemes true t).flatMap L := by
  fun_induction lexemes true s generalizing t with
  | case1 =>
    cases h
    rw [lexemes, List.flatMap_nil]
  | case2 d rest ih =>
    have hends := Lexeme.endsBefore_next true d rest
    rw [← Lexeme.text_next true d rest] at h
    generalize (Lexeme.next true d rest).1 = l, (Lexeme.next true d rest).2 = after at h hends ih
    rw [List.flatMap_cons]
    rcases h.lexeme_cases hends with
      ⟨t, rfl, hrest⟩ | ⟨letters, digits, new, t, rfl, hnew, rfl, hrest⟩
    · rw [ih hrest]
      by_cases hgrows : ∃ op n, l = .run op n ∧ op.symbol = c
      · obtain ⟨op, n, rfl, hop⟩ := hgrows
        exact (grown op n hop t).symm
      · have hkept := hrest.endsBefore starts hc (fun op n hl hop => hgrows ⟨op, n, hl, hop⟩) hends
        rw [lexemes_of_endsBefore hkept, List.flatMap_cons]
    · rw [ih hrest, replaced hnew]

end

end CallsReplaced

end TapeMachine
