import TapeMachine.Source.Brackets
import TapeMachine.Source.Lexeme

/-!
# Nesting of loops

Brackets are checked character by character, while loops are made lexeme by lexeme. This module
brings the two together: no bracket hides in a call, in a run or in a comment, so a source whose
brackets match is cut into lexemes that are well nested (`nested_lexemes`).
-/

namespace TapeMachine

namespace Lexeme

/-- What every lexeme of a text has: a block is not empty, the parts of a call are letters and
digits, and no comment is a character with a meaning of its own. -/
inductive WellFormed : Lexeme → Prop
  | run (op : Operator) {n : Nat} (pos : 0 < n) : WellFormed (run op n)
  | opening : WellFormed opening
  | closing : WellFormed closing
  | call {name digits : List Char} (name_ne : name ≠ []) (lower : ∀ c ∈ name, c.isLower)
      (digit : ∀ c ∈ digits, c.isDigit) : WellFormed (call name digits)
  | comment {c : Char} (noOperator : Operator.ofSymbol? c = none) (noOpening : c ≠ '[')
      (noClosing : c ≠ ']') : WellFormed (comment c)

theorem call?_wellFormed {s name digits rest : List Char}
    (h : call? s = some (name, digits, rest)) : (call name digits).WellFormed := by
  unfold call? at h
  split at h
  · next c cs after hname hafter =>
    simp only [Option.some.injEq, Prod.mk.injEq] at h
    obtain ⟨rfl, rfl, rfl⟩ := h
    refine .call (by simp) (fun d hd => ?_) (fun d hd => ?_)
    · exact List.all_eq_true.mp List.all_takeWhile d (hname ▸ hd)
    · exact List.all_eq_true.mp List.all_takeWhile d hd
  · contradiction

theorem wellFormed_next (calls : Bool) (c : Char) (rest : List Char) :
    (next calls c rest).1.WellFormed := by
  unfold next
  split
  · exact .run _ (Nat.succ_pos _)
  · next hop =>
    split
    · exact .opening
    split
    · exact .closing
    next hopen hclose =>
    split
    · split
      · next hcall => exact call?_wellFormed hcall
      · exact .comment hop hopen hclose
    · exact .comment hop hopen hclose

theorem WellFormed.text_ne_nil {l : Lexeme} (h : l.WellFormed) : l.text ≠ [] := by
  cases h with
  | run op hn => simpa [Lexeme.text] using Nat.ne_of_gt hn
  | _ => simp [Lexeme.text, Lexeme.bracedName]

/-- An opening brace is the start of a call or a comment. -/
theorem WellFormed.eq_of_brace {l : Lexeme} (h : l.WellFormed) {front tail : List Char}
    (htext : l.text = front ++ '\x7b' :: tail) :
    front = [] ∧ (l = .comment '\x7b' ∧ tail = [] ∨
      ∃ letters digits, l = .call letters digits ∧ tail = letters ++ '\x7d' :: digits) := by
  have hmem : '\x7b' ∈ l.text := by simp [htext]
  cases h with
  | run op =>
    have hop := List.eq_of_mem_replicate hmem
    cases op <;> contradiction
  | opening => simp [text] at hmem
  | closing => simp [text] at hmem
  | @call letters digits _ lower digit =>
    cases front with
    | nil =>
      refine ⟨rfl, .inr ⟨letters, digits, rfl, ?_⟩⟩
      simpa [text, bracedName] using (List.cons.inj htext).2.symm
    | cons c front =>
      -- Behind the first brace there are letters, the other brace and digits.
      have htail : letters ++ '\x7d' :: digits = front ++ '\x7b' :: tail := by
        simpa [text, bracedName] using (List.cons.inj htext).2
      have hbrace : '\x7b' ∈ letters ++ '\x7d' :: digits := by simp [htail]
      rcases List.mem_append.mp hbrace with hbrace | hbrace
      · exact absurd (lower _ hbrace) (by decide)
      · rcases List.mem_cons.mp hbrace with hbrace | hbrace
        · contradiction
        · exact absurd (digit _ hbrace) (by decide)
  | @comment c =>
    cases front with
    | nil =>
      obtain ⟨rfl, rfl⟩ := List.cons.inj htext
      exact ⟨rfl, .inl ⟨rfl, rfl⟩⟩
    | cons d front =>
      obtain ⟨-, hnil⟩ := List.cons.inj htext
      simp at hnil

/-- Text without loop brackets. -/
def NoBracket (text : List Char) : Prop := ∀ c ∈ text, c ≠ '[' ∧ c ≠ ']'

/-- A lexeme that is no loop bracket has none in its text. -/
theorem WellFormed.noBracket {l : Lexeme} (h : l.WellFormed) (hopen : l ≠ .opening)
    (hclose : l ≠ .closing) : NoBracket l.text := by
  cases h with
  | run op _ =>
    intro c hc
    rw [List.eq_of_mem_replicate hc]
    cases op <;> decide
  | opening => exact absurd rfl hopen
  | closing => exact absurd rfl hclose
  | call _ lower digit =>
    intro c hc
    simp only [text, bracedName, List.mem_append, List.mem_cons, List.not_mem_nil, or_false] at hc
    rcases hc with (rfl | hc | rfl) | hc
    · decide
    · have := lower c hc
      constructor <;> rintro rfl <;> contradiction
    · decide
    · have := digit c hc
      constructor <;> rintro rfl <;> contradiction
  | comment _ noOpening noClosing =>
    intro c hc
    rw [List.mem_singleton.mp hc]
    exact ⟨noOpening, noClosing⟩

end Lexeme

/-- The text of lexemes, put together. -/
def textOf (ls : List Lexeme) : List Char := ls.flatMap Lexeme.text

@[simp] theorem textOf_nil : textOf [] = [] := rfl

@[simp] theorem textOf_cons (l : Lexeme) (ls : List Lexeme) :
    textOf (l :: ls) = l.text ++ textOf ls := rfl

@[simp] theorem textOf_append (a b : List Lexeme) : textOf (a ++ b) = textOf a ++ textOf b :=
  List.flatMap_append

@[simp] theorem textOf_lexemes (calls : Bool) (s : List Char) : textOf (lexemes calls s) = s :=
  flatMap_text_lexemes calls s

theorem wellFormed_of_mem_lexemes {calls : Bool} {s : List Char} {l : Lexeme}
    (h : l ∈ lexemes calls s) : l.WellFormed := by
  fun_induction lexemes calls s with
  | case1 => contradiction
  | case2 c rest ih =>
    rcases List.mem_cons.mp h with rfl | h
    · exact Lexeme.wellFormed_next calls c rest
    · exact ih h

/-! ## Nested lexemes -/

/-- Lexemes in which every loop is closed. -/
inductive Nested : List Lexeme → Prop
  | nil : Nested []
  | plain {l : Lexeme} {ls : List Lexeme} (hopen : l ≠ .opening) (hclose : l ≠ .closing)
      (rest : Nested ls) : Nested (l :: ls)
  | loop {body ls : List Lexeme} (inside : Nested body) (rest : Nested ls) :
      Nested (.opening :: (body ++ .closing :: ls))

/-- Lexemes that close `depth` loops which have been opened before them. -/
inductive Closes : (depth : Nat) → List Lexeme → Prop
  | done {ls : List Lexeme} (h : Nested ls) : Closes 0 ls
  | close {depth : Nat} {inside ls : List Lexeme} (h : Nested inside) (rest : Closes depth ls) :
      Closes (depth + 1) (inside ++ .closing :: ls)

/-- What can be put in front of nested lexemes can be put in front of any. -/
theorem Closes.append_left {w : List Lexeme} (hw : ∀ ls, Nested ls → Nested (w ++ ls)) {depth : Nat}
    {ls : List Lexeme} (h : Closes depth ls) : Closes depth (w ++ ls) := by
  cases h with
  | done h => exact .done (hw _ h)
  | close h rest =>
    rw [← List.append_assoc]
    exact .close (hw _ h) rest

theorem scanBrackets_append {t : List Char} (ht : Lexeme.NoBracket t) (p : Position)
    (opened : Stack Position) (rest : List Char) :
    scanBrackets p opened (t ++ rest) = scanBrackets (p.advanceAll t) opened rest := by
  induction t generalizing p with
  | nil => rfl
  | cons c t ih =>
    have hc := ht c List.mem_cons_self
    have htail : Lexeme.NoBracket t := fun d hd => ht d (List.mem_cons_of_mem c hd)
    simp only [List.cons_append, scanBrackets, hc.1, hc.2, if_false, Position.advanceAll_cons]
    exact ih htail (p.advance c)

/-- The check of the brackets and the lexemes agree: a scan that succeeds with `opened` loops has
read lexemes that close exactly these. -/
theorem closes_of_scanBrackets {ls : List Lexeme} (hwf : ∀ l ∈ ls, l.WellFormed) {p : Position}
    {opened : Stack Position} (h : scanBrackets p opened (textOf ls) = .ok ()) :
    Closes opened.length ls := by
  induction ls generalizing p opened with
  | nil =>
    cases opened with
    | nil => exact .done .nil
    | cons q outer => simp [textOf, scanBrackets, Stack.peek?] at h
  | cons l ls ih =>
    have hl := hwf l List.mem_cons_self
    have htail : ∀ l ∈ ls, l.WellFormed := fun k hk => hwf k (List.mem_cons_of_mem l hk)
    by_cases hopen : l = .opening
    · subst hopen
      have hscan : scanBrackets (p.advance '[') (opened.push p) (textOf ls) = .ok () := by
        simpa [Lexeme.text, scanBrackets] using h
      have hin := ih htail hscan
      rw [Stack.length_push] at hin
      -- The loop that was opened is the first one to be closed.
      cases hin with
      | close inside rest =>
        rw [← List.singleton_append, List.append_cons, ← List.append_assoc]
        refine rest.append_left fun ls hls => ?_
        simpa using Nested.loop inside hls
    by_cases hclose : l = .closing
    · subst hclose
      cases opened with
      | nil => simp [Lexeme.text, scanBrackets, Stack.pop] at h
      | cons q outer =>
        have hscan : scanBrackets (p.advance ']') outer (textOf ls) = .ok () := by
          simpa [Lexeme.text, scanBrackets, Stack.pop] using h
        exact Closes.close .nil (ih htail hscan)
    · rw [textOf_cons, scanBrackets_append (hl.noBracket hopen hclose)] at h
      exact Closes.append_left (w := [l]) (fun _ => Nested.plain hopen hclose) (ih htail h)

/-- The brackets of a text. -/
def brackets (text : List Char) : List Char := text.filter fun c => c = '[' ∨ c = ']'

@[simp] theorem brackets_append (a b : List Char) :
    brackets (a ++ b) = brackets a ++ brackets b :=
  List.filter_append ..

theorem Lexeme.NoBracket.brackets_eq {text : List Char} (h : NoBracket text) :
    brackets text = [] := by
  refine List.filter_eq_nil_iff.mpr fun c hc => ?_
  simp [h c hc]

/-- The check reads nothing but brackets, and their places make no difference to its success. -/
theorem scanBrackets_brackets {text : List Char} {p p' : Position} {opened opened' : Stack Position}
    (hlength : opened.length = opened'.length) :
    scanBrackets p opened text = .ok () ↔ scanBrackets p' opened' (brackets text) = .ok () := by
  induction text generalizing p p' opened opened' with
  | nil =>
    cases opened <;> cases opened' <;> simp at hlength <;>
      simp [brackets, scanBrackets, Stack.peek?]
  | cons c text ih =>
    by_cases hopen : c = '['
    · subst hopen
      exact ih (by simp [hlength])
    by_cases hclose : c = ']'
    · subst hclose
      cases opened with
      | nil =>
        obtain rfl := List.length_eq_zero_iff.mp hlength.symm
        simp [brackets, scanBrackets, Stack.pop]
      | cons q outer =>
        obtain ⟨q', outer', rfl⟩ := List.exists_cons_of_length_eq_add_one hlength.symm
        exact ih (Nat.succ.inj hlength)
    · have hother : brackets (c :: text) = brackets text := by simp [brackets, hopen, hclose]
      rw [hother, scanBrackets, if_neg hopen, if_neg hclose]
      exact ih hlength

/-- Of sources with the same brackets, all match or none. -/
theorem checkBrackets_congr {source other : String}
    (h : brackets source.toList = brackets other.toList) :
    checkBrackets source = .ok () ↔ checkBrackets other = .ok () := by
  have hscan : ∀ s : String, checkBrackets s = .ok () ↔
      scanBrackets .start [] (brackets s.toList) = .ok () := fun _ => scanBrackets_brackets rfl
  rw [hscan, hscan, h]

/-- A source whose brackets match is cut into nested lexemes. -/
theorem nested_lexemes {source : String} (h : checkBrackets source = .ok ()) (calls : Bool) :
    Nested (lexemes calls source.toList) := by
  have hscan : scanBrackets .start [] (textOf (lexemes calls source.toList)) = .ok () := by
    rw [textOf_lexemes]
    exact h
  cases closes_of_scanBrackets (fun _ => wellFormed_of_mem_lexemes) hscan with
  | done h => exact h

theorem Nested.append {a b : List Lexeme} (ha : Nested a) (hb : Nested b) : Nested (a ++ b) := by
  induction ha with
  | nil => exact hb
  | plain hopen hclose _ ih => exact .plain hopen hclose ih
  | loop inside _ _ ih =>
    rw [List.cons_append, List.append_assoc, List.cons_append]
    exact .loop inside ih

/-- The text of nested lexemes leaves the open brackets as they were. -/
theorem scanBrackets_of_nested {ls : List Lexeme} (h : Nested ls) (hwf : ∀ l ∈ ls, l.WellFormed)
    (p : Position) (opened : Stack Position) (rest : List Char) :
    scanBrackets p opened (textOf ls ++ rest) =
      scanBrackets (p.advanceAll (textOf ls)) opened rest := by
  induction h generalizing p opened rest with
  | nil => rfl
  | @plain l ls hopen hclose _ ih =>
    obtain ⟨hl, hls⟩ := List.forall_mem_cons.mp hwf
    rw [textOf_cons, List.append_assoc, scanBrackets_append (hl.noBracket hopen hclose),
      ih hls, ← Position.advanceAll_append]
  | @loop body ls _ _ ihbody ihrest =>
    have hbody : ∀ l ∈ body, l.WellFormed := fun l hl => hwf l (by simp [hl])
    have hls : ∀ l ∈ ls, l.WellFormed := fun l hl => hwf l (by simp [hl])
    -- The bracket that is opened is on top of the stack again when the body has been read.
    simp only [textOf_cons, textOf_append, Lexeme.text, List.cons_append, List.nil_append,
      List.append_assoc, Position.advanceAll_cons, Position.advanceAll_append]
    rw [scanBrackets, if_pos rfl, ihbody hbody]
    exact ihrest hls _ opened rest

/-- The brackets of a source match if it is cut into nested lexemes. -/
theorem checkBrackets_of_nested {source : String} {calls : Bool}
    (h : Nested (lexemes calls source.toList)) : checkBrackets source = .ok () := by
  have hscan := scanBrackets_of_nested h (fun _ => wellFormed_of_mem_lexemes) .start [] []
  rwa [textOf_lexemes, List.append_nil] at hscan

end TapeMachine
