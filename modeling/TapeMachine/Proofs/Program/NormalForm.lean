import TapeMachine.Proofs.Program.CallSites
import TapeMachine.Proofs.Program.Concatenation

/-!
# Programs as source text

A compiled program can be written back as text, with a line for each instruction, and is compiled
from that text again (`compile_lines`). The lexemes of the text are those of the source, each with a
newline behind it, where comment is left out and arguments are written anew (`Lexeme.line`). They
are cut like this since a newline ends every lexeme, and they are the code of the program since
those of the source are.
-/

namespace TapeMachine

/-- The text of an instruction in a source. -/
def Instruction.source (x : Instruction) : String :=
  match x.callName?, x.callArgument? with
  | some name, some argument => name ++ toString argument.toInt
  | _, _ => String.ofList (List.replicate x.count x.symbol)

/-- The program as text, one line for each instruction. -/
def Program.lines (p : Program) : List String := p.instructions.toList.map Instruction.source

/-! ## Arguments -/

/-- An argument that is not negative is read again as it is written. -/
theorem argument?_toDigits {a : Cell} (h : 0 ≤ a.toInt) :
    argument? (Nat.toDigits 10 a.toInt.toNat) = some a := by
  have hvalue : decimalValue (Nat.toDigits 10 a.toInt.toNat) = a.toInt.toNat :=
    Nat.ofDigitChars_ten_toDigits
  have hle : a.toInt.toNat ≤ maxArgument := by
    have := a.toInt_lt
    unfold maxArgument
    omega
  simp only [argument?, hvalue, hle, if_true, Cell.ofNat_toNat_of_nonneg h]

theorem argument?_nonneg (digits : List Char) : 0 ≤ ((argument? digits).getD 0).toInt := by
  have hargument := CallSite.toInt_argument? ⟨[], digits, .start⟩
  rw [hargument]
  exact Int.natCast_nonneg _

theorem Instruction.toList_source_call (name : String) {argument : Cell}
    (h : 0 ≤ argument.toInt) :
    (call name argument).source.toList = name.toList ++ Nat.toDigits 10 argument.toInt.toNat := by
  have hdigits : (toString argument.toInt).toList = Nat.toDigits 10 argument.toInt.toNat := by
    obtain ⟨n, hn⟩ := Int.eq_ofNat_of_zero_le h
    rw [hn]
    exact Nat.toList_repr
  rw [← hdigits]
  exact String.toList_append

/-! ## Lines of lexemes -/

namespace Lexeme

/-- The lexeme with its argument written anew. -/
def rewritten : Lexeme → Lexeme
  | call letters digits =>
    call letters (Nat.toDigits 10 ((argument? digits).getD 0).toInt.toNat)
  | l => l

/-- The lexeme on a line of its own; comment is left out. -/
def line : Lexeme → List Lexeme
  | comment _ => []
  | l => [l.rewritten, comment '\n']

theorem argument?_rewritten (digits : List Char) :
    argument? (Nat.toDigits 10 ((argument? digits).getD 0).toInt.toNat) =
      some ((argument? digits).getD 0) :=
  argument?_toDigits (argument?_nonneg digits)

theorem instruction?_rewritten (l : Lexeme) : l.rewritten.instruction? = l.instruction? := by
  cases l with
  | call letters digits =>
    rw [rewritten, instruction?, argument?_rewritten, instruction?, Option.getD_some]
  | _ => rfl

theorem argumentErrors_rewritten (p : Position) (l : Lexeme) :
    l.rewritten.argumentErrors p = [] := by
  cases l with
  | call letters digits => rw [rewritten, argumentErrors, argument?_rewritten]
  | _ => rfl

theorem WellFormed.rewritten {l : Lexeme} (h : l.WellFormed) : l.rewritten.WellFormed := by
  cases h with
  | run op pos => exact .run op pos
  | opening => exact .opening
  | closing => exact .closing
  | call name_ne lower =>
    exact WellFormed.call name_ne lower fun c hc =>
      Nat.isDigit_of_mem_toDigits (by decide) (by decide) hc
  | comment noOperator noOpening noClosing =>
    exact WellFormed.comment noOperator noOpening noClosing

theorem line_of_ne_comment {l : Lexeme} (h : ∀ c, l ≠ .comment c) :
    l.line = [l.rewritten, .comment '\n'] := by
  cases l with
  | comment c => exact absurd rfl (h c)
  | _ => rfl

theorem MakesUp.ne_comment {l : Lexeme} {x : Instruction} (h : l.MakesUp x) :
    ∀ c, l ≠ .comment c := by
  rintro c rfl
  cases h
  contradiction

/-- The text of an instruction is that of the lexeme that makes it up, written anew. -/
theorem MakesUp.text_rewritten {l : Lexeme} {x : Instruction} (h : l.MakesUp x) :
    l.rewritten.text = x.source.toList := by
  cases h with
  | single h =>
    cases l with
    | run op n =>
      obtain rfl := Option.some.inj h
      exact String.toList_ofList.symm
    | call letters digits =>
      obtain rfl := Option.some.inj h
      rw [Instruction.toList_source_call _ (argument?_nonneg digits), String.toList_ofList]
      rfl
    | opening => contradiction
    | closing => contradiction
    | comment c => contradiction
  | opening close => exact String.toList_ofList.symm
  | closing start => exact String.toList_ofList.symm

end Lexeme

theorem cut_lines {ls : List Lexeme} (h : ∀ l ∈ ls, l.WellFormed) :
    Cut true (ls.flatMap Lexeme.line) := by
  induction ls with
  | nil => trivial
  | cons l ls ih =>
    obtain ⟨hl, hls⟩ := List.forall_mem_cons.mp h
    have hnewline : Cut true (.comment '\n' :: ls.flatMap Lexeme.line) :=
      Cut.append_newline (a := []) trivial (ih hls)
    cases l with
    | comment c => exact ih hls
    | _ => exact ⟨hl.rewritten.endsBefore_nil.append_newline, hnewline⟩

/-- Each instruction has its line in the text. -/
theorem MakeUp.textOf_lines {ls : List Lexeme} {is : List Instruction} (h : MakeUp ls is) :
    textOf (ls.flatMap Lexeme.line) = is.flatMap fun x => x.source.toList ++ ['\n'] := by
  induction h with
  | nil => rfl
  | comment _ ih => exact ih
  | cons h _ ih =>
    rw [List.flatMap_cons, textOf_append, Lexeme.line_of_ne_comment h.ne_comment, ih,
      List.flatMap_cons, ← h.text_rewritten]
    rfl

/-- On lines of their own lexemes are the same code. -/
theorem Code.lines {k : Nat} {ls : List Lexeme} {is : List Instruction} (h : Code k ls is) :
    Code k (ls.flatMap Lexeme.line) is := by
  induction h with
  | nil => exact .nil
  | comment _ ih => exact ih
  | single hl _ ih =>
    rw [List.flatMap_cons, Lexeme.line_of_ne_comment (Lexeme.MakesUp.single hl).ne_comment]
    exact .single ((Lexeme.instruction?_rewritten _).trans hl) (.comment ih)
  | loop _ _ ihbody ihrest =>
    rw [List.flatMap_cons, List.flatMap_append, List.flatMap_cons]
    exact .loop (.comment ihbody) (.comment ihrest)

theorem argumentErrors_lines (p : Position) (ls : List Lexeme) :
    argumentErrors p (ls.flatMap Lexeme.line) = [] := by
  induction ls generalizing p with
  | nil => rfl
  | cons l ls ih =>
    have hline : argumentErrors p l.line = [] := by
      by_cases h : ∃ c, l = .comment c
      · obtain ⟨c, rfl⟩ := h
        rfl
      · rw [Lexeme.line_of_ne_comment fun c hc => h ⟨c, hc⟩, argumentErrors,
          Lexeme.argumentErrors_rewritten]
        rfl
    rw [List.flatMap_cons, argumentErrors_append, hline, ih, List.append_nil]

/-! ## Texts -/

theorem intercalate_newline {lines : List String} (h : lines ≠ []) :
    "\n".intercalate lines ++ "\n" = String.join (lines.map (· ++ "\n")) := by
  apply String.toList_inj.mp
  rw [String.toList_append, String.toList_intercalate, String.toList_join]
  induction lines with
  | nil => contradiction
  | cons line lines ih =>
    cases lines with
    | nil => simp [List.intercalate]
    | cons next lines =>
      have hrest := ih (List.cons_ne_nil next lines)
      simp only [List.map_cons, List.flatMap_cons, String.toList_append] at hrest ⊢
      rw [List.intercalate_cons_cons, List.append_assoc, hrest]

/-- Every compiled program has a normal form as source: the text with one line for each instruction,
with or without a newline at its end, is compiled to the program, and nothing is reported. -/
theorem compile_lines {settings : CompilerSettings} {source : String} {c : Compiled}
    (h : compile settings source = .ok c) :
    compile { customInstructions := true } (String.join (c.program.lines.map (· ++ "\n"))) =
      .ok ⟨c.program, []⟩ ∧
    compile { customInstructions := true } ("\n".intercalate c.program.lines) =
      .ok ⟨c.program, []⟩ := by
  have hcode := code_of_compile h
  have hwf : ∀ l ∈ lexemes settings.customInstructions source.toList, l.WellFormed := fun _ =>
    wellFormed_of_mem_lexemes
  have htext : (String.join (c.program.lines.map (· ++ "\n"))).toList =
      textOf ((lexemes settings.customInstructions source.toList).flatMap Lexeme.line) := by
    rw [hcode.makeUp.textOf_lines, String.toList_join, Program.lines]
    simp [List.flatMap_map]
  have hlexemes := (cut_lines hwf).lexemes_textOf
  rw [← htext] at hlexemes
  have hbrackets : checkBrackets (String.join (c.program.lines.map (· ++ "\n"))) = .ok () :=
    checkBrackets_of_nested (hlexemes ▸ hcode.lines.nested)
  have hlines : Code 0 (lexemes true (String.join (c.program.lines.map (· ++ "\n"))).toList)
      c.program.instructions.toList := hlexemes ▸ hcode.lines
  have hcompile : compile { customInstructions := true } _ = .ok ⟨_, argumentErrors .start _⟩ :=
    compile_of_code hbrackets hlines
  rw [hlexemes, argumentErrors_lines] at hcompile
  refine ⟨hcompile, ?_⟩
  by_cases hempty : c.program.lines = []
  · rw [hempty] at hcompile ⊢
    exact hcompile
  · rw [← intercalate_newline hempty] at hcompile
    exact compile_of_append_newline hcompile

/-- Comment, zeros in front of an argument and an argument that is too large are gone. -/
theorem compile_lines_of_loop :
    ∃ c, compile {} "x[\x7ba\x7d007]++\x7bb\x7d9223372036854775808" = .ok c ∧
      c.diagnostics ≠ [] ∧
      "\n".intercalate c.program.lines = "[\n\x7ba\x7d7\n]\n++\n\x7bb\x7d0" ∧
      compile { customInstructions := true } "[\n\x7ba\x7d7\n]\n++\n\x7bb\x7d0" =
        .ok ⟨c.program, []⟩ := by
  have hcompile : compile {} "x[\x7ba\x7d007]++\x7bb\x7d9223372036854775808" =
      .ok ⟨⟨#[.loopOpen 2, .call "\x7ba\x7d" 7, .loopClose 0, .run .increment 2,
        .call "\x7bb\x7d" 0]⟩, [⟨"\x7bb\x7d", "9223372036854775808", ⟨1, 12, 11⟩⟩]⟩ := by
    with_unfolding_all rfl
  have hlines : "\n".intercalate (Program.lines ⟨#[.loopOpen 2, .call "\x7ba\x7d" 7, .loopClose 0,
      .run .increment 2, .call "\x7bb\x7d" 0]⟩) = "[\n\x7ba\x7d7\n]\n++\n\x7bb\x7d0" := by
    with_unfolding_all rfl
  have hagain := (compile_lines hcompile).2
  rw [hlines] at hagain
  exact ⟨_, hcompile, by simp, hlines, hagain⟩

end TapeMachine
