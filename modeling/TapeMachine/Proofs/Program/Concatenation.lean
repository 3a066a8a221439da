import TapeMachine.Proofs.Program.Code
import TapeMachine.Proofs.Source.Cut
import TapeMachine.Proofs.Source.Position

/-!
# Texts one after the other

A newline is comment and ends every lexeme, so two texts with a newline between them are cut as each
is on its own (`lexemes_append_newline`). If the brackets of both match, those of the whole text do,
and it is compiled to the first program followed by the second one, whose loops have been moved on
by the size of the first (`compile_append`). What is reported about the second text is found as many
lines further down as the first text and the newline take up (`compile_concatenation`).
-/

namespace TapeMachine

variable {calls : Bool}

/-! ## Lexemes -/

theorem Lexeme.EndsBefore.append_newline {l : Lexeme} {after more : List Char}
    (h : l.EndsBefore calls after) : l.EndsBefore calls (after ++ '\n' :: more) := by
  refine h.append_of_stopsCalls (by decide) ?_
  rintro op n -
  cases op <;> decide

theorem Cut.append_newline {a b : List Lexeme} (ha : Cut calls a) (hb : Cut calls b) :
    Cut calls (a ++ .comment '\n' :: b) := by
  induction a with
  | nil =>
    refine ⟨⟨rfl, by decide, by decide, ?_⟩, hb⟩
    rintro ⟨hbrace, -⟩
    contradiction
  | cons l a ih =>
    obtain ⟨hends, htail⟩ := ha
    refine ⟨?_, ih htail⟩
    change l.EndsBefore calls (textOf (a ++ .comment '\n' :: b))
    rw [textOf_append]
    exact hends.append_newline

/-- A newline keeps the lexemes in front of it apart from those behind it. -/
theorem lexemes_append_newline (calls : Bool) (s t : List Char) :
    lexemes calls (s ++ '\n' :: t) = lexemes calls s ++ .comment '\n' :: lexemes calls t := by
  apply lexemes_eq_iff.mpr
  refine ⟨?_, (cut_lexemes calls s).append_newline (cut_lexemes calls t)⟩
  rw [textOf_append, textOf_cons, textOf_lexemes, textOf_lexemes]
  rfl

/-! ## Programs -/

/-- The program that carries out `p` and then `q`, which has been moved behind `p`. -/
def Program.andThen (p q : Program) : Program :=
  ⟨p.instructions ++ q.instructions.map (.renumber (· + p.size))⟩

namespace Program

variable {p : Program} {i : Nat}

theorem andThen_getElem?_left (q : Program) (h : i < p.size) :
    (p.andThen q).instructions[i]? = p.instructions[i]? :=
  Array.getElem?_append_left h

theorem andThen_getElem?_right (p q : Program) (i : Nat) :
    (p.andThen q).instructions[i + p.size]? =
      (q.instructions[i]?).map (.renumber (· + p.size)) := by
  have hle : p.instructions.size ≤ i + p.size := Nat.le_add_left _ _
  rw [andThen, Array.getElem?_append_right hle, Array.getElem?_map]
  exact congrArg (fun j => (q.instructions[j]?).map _) (Nat.add_sub_cancel i p.size)

end Program

theorem checkBrackets_append {a b : String} (ha : checkBrackets a = .ok ())
    (hb : checkBrackets b = .ok ()) : checkBrackets (a ++ "\n" ++ b) = .ok () := by
  have htext : (a ++ "\n" ++ b).toList = a.toList ++ '\n' :: b.toList := by simp
  have hnested : Nested (lexemes true (a ++ "\n" ++ b).toList) := by
    rw [htext, lexemes_append_newline]
    exact (nested_lexemes ha true).append (.plain nofun nofun (nested_lexemes hb true))
  exact checkBrackets_of_nested hnested

/-- Two sources with a newline between them are compiled to their programs, one behind the other. -/
theorem compile_append {settings : CompilerSettings} {a b : String} {p q : Compiled}
    (ha : compile settings a = .ok p) (hb : compile settings b = .ok q) :
    ∃ r, compile settings (a ++ "\n" ++ b) = .ok r ∧ r.program = p.program.andThen q.program := by
  have htext : (a ++ "\n" ++ b).toList = a.toList ++ '\n' :: b.toList := by simp
  have hbrackets :=
    checkBrackets_append (checkBrackets_of_compile ha) (checkBrackets_of_compile hb)
  have hcode := (code_of_compile ha).append (.comment (c := '\n') ((code_of_compile hb).shift _))
  rw [← lexemes_append_newline, ← htext] at hcode
  refine ⟨_, compile_of_code hbrackets hcode, ?_⟩
  simp [Program.andThen, Program.size]

/-- A last newline makes no difference. -/
theorem compile_of_append_newline {settings : CompilerSettings} {text : String} {c : Compiled}
    (h : compile settings (text ++ "\n") = .ok c) : compile settings text = .ok c := by
  have htext : (text ++ "\n").toList = text.toList ++ '\n' :: [] := by simp
  have hbrackets : brackets (text ++ "\n").toList = brackets text.toList := by
    rw [htext, brackets_append]
    exact List.append_nil _
  have hmatch := (checkBrackets_congr hbrackets).mp (checkBrackets_of_compile h)
  obtain ⟨is, hcode, hcompile⟩ := compile_of_checkBrackets hmatch settings
  have hlexemes : lexemes settings.customInstructions (text ++ "\n").toList =
      lexemes settings.customInstructions text.toList ++ [.comment '\n'] := by
    rw [htext, lexemes_append_newline, lexemes]
  have hcode' := hcode.append (.comment (c := '\n') .nil)
  rw [List.append_nil, ← hlexemes] at hcode'
  have herrors := argumentErrors_append .start (lexemes settings.customInstructions text.toList)
    [.comment '\n']
  rw [← hlexemes] at herrors
  rw [hcompile, ← h, compile_of_code (checkBrackets_of_compile h) hcode', herrors]
  simp [argumentErrors, Lexeme.argumentErrors]

/-! ## Reports -/

namespace Position

/-- The place so many lines further down and so many bytes further on. -/
def below (p : Position) (lines bytes : Nat) : Position :=
  ⟨p.line + lines, p.column, p.offset + bytes⟩

theorem advance_below (p : Position) (lines bytes : Nat) (c : Char) :
    (p.below lines bytes).advance c = (p.advance c).below lines bytes := by
  unfold advance
  split
  · simp only [below, Nat.add_right_comm]
  · simp only [below, Nat.add_right_comm]

theorem advanceAll_below (p : Position) (lines bytes : Nat) (text : List Char) :
    (p.below lines bytes).advanceAll text = (p.advanceAll text).below lines bytes := by
  induction text generalizing p with
  | nil => rfl
  | cons c text ih => rw [advanceAll_cons, advanceAll_cons, advance_below, ih]

/-- A newline leads to the start of a line, from where a text is like one of its own. -/
theorem advanceAll_newline (text : List Char) :
    start.advanceAll (text ++ ['\n']) =
      start.below (text.count '\n' + 1) ((String.ofList text).utf8ByteSize + 1) := by
  rw [advanceAll_start, behind_concat, advance, if_pos rfl]
  simp only [below, behind, start, mk.injEq, true_and]
  exact ⟨Nat.add_assoc .., by rw [Nat.zero_add]; rfl⟩

end Position

/-- The report about the same call so many lines further down and so many bytes further on. -/
def ArgumentError.below (e : ArgumentError) (lines bytes : Nat) : ArgumentError :=
  { e with position := e.position.below lines bytes }

theorem argumentErrors_below (p : Position) (lines bytes : Nat) (ls : List Lexeme) :
    argumentErrors (p.below lines bytes) ls = (argumentErrors p ls).map (·.below lines bytes) := by
  induction ls generalizing p with
  | nil => rfl
  | cons l ls ih =>
    have hl : l.argumentErrors (p.below lines bytes) =
        (l.argumentErrors p).map (·.below lines bytes) := by
      cases l with
      | call letters digits =>
        rw [Lexeme.argumentErrors, Lexeme.argumentErrors]
        cases argument? digits <;> rfl
      | _ => rfl
    rw [argumentErrors, argumentErrors, List.map_append, hl, Position.advanceAll_below, ih]

theorem diagnostics_of_compile {settings : CompilerSettings} {source : String} {c : Compiled}
    (h : compile settings source = .ok c) :
    c.diagnostics = argumentErrors .start (lexemes settings.customInstructions source.toList) := by
  obtain ⟨is, -, hcompile⟩ := compile_of_checkBrackets (checkBrackets_of_compile h) settings
  obtain rfl := Except.ok.inj (h.symm.trans hcompile)
  rfl

/-- What is wrong in two texts with a newline between them is what is wrong in each of them. -/
theorem argumentErrors_append_newline (calls : Bool) (s t : List Char) :
    argumentErrors .start (lexemes calls (s ++ '\n' :: t)) =
      argumentErrors .start (lexemes calls s) ++
        (argumentErrors .start (lexemes calls t)).map
          (·.below (s.count '\n' + 1) ((String.ofList s).utf8ByteSize + 1)) := by
  have hnewline : Position.start.advanceAll (textOf (lexemes calls s ++ [.comment '\n'])) =
      Position.start.below (s.count '\n' + 1) ((String.ofList s).utf8ByteSize + 1) := by
    rw [textOf_append, textOf_lexemes]
    exact Position.advanceAll_newline s
  rw [lexemes_append_newline, List.append_cons, argumentErrors_append, hnewline,
    argumentErrors_below, argumentErrors_append]
  rw [show argumentErrors _ [.comment '\n'] = [] from rfl, List.append_nil]

/-- Compiling goes over a newline between two sources: the instructions of the second come behind
those of the first, with their loops moved on, and what is reported about it is the same but that
many lines further down and that many bytes further on. -/
theorem compile_concatenation {a b : String} (ha : checkBrackets a = .ok ())
    (hb : checkBrackets b = .ok ()) (settings : CompilerSettings) :
    ∃ p q, compile settings a = .ok p ∧ compile settings b = .ok q ∧
      compile settings (a ++ "\n" ++ b) = .ok
        ⟨p.program.andThen q.program, p.diagnostics ++
          q.diagnostics.map (·.below (a.toList.count '\n' + 1) (a.utf8ByteSize + 1))⟩ := by
  obtain ⟨p, hp⟩ := exists_compile ha settings
  obtain ⟨q, hq⟩ := exists_compile hb settings
  obtain ⟨r, hr, hprogram⟩ := compile_append hp hq
  have htext : (a ++ "\n" ++ b).toList = a.toList ++ '\n' :: b.toList := by simp
  have hreports : r.diagnostics = p.diagnostics ++
      q.diagnostics.map (·.below (a.toList.count '\n' + 1) (a.utf8ByteSize + 1)) := by
    rw [diagnostics_of_compile hr, diagnostics_of_compile hp, diagnostics_of_compile hq, htext,
      argumentErrors_append_newline, String.ofList_toList]
  refine ⟨p, q, hp, hq, ?_⟩
  rw [hr, ← hprogram, ← hreports]

/-- The second source starts on the third line, at byte 8, and has its loop at index 2. -/
theorem compile_concatenation_with_reports :
    checkBrackets "é\n+\x7ba\x7d" = .ok () ∧
    checkBrackets "[\x7bb\x7d9223372036854775808]" = .ok () ∧
    ∃ p q, compile {} "é\n+\x7ba\x7d" = .ok p ∧
      compile {} "[\x7bb\x7d9223372036854775808]" = .ok q ∧
      q.diagnostics = [⟨"\x7bb\x7d", "9223372036854775808", ⟨1, 2, 1⟩⟩] ∧
      compile {} ("é\n+\x7ba\x7d" ++ "\n" ++ "[\x7bb\x7d9223372036854775808]") = .ok
        ⟨⟨#[.run .increment 1, .call "\x7ba\x7d" 0, .loopOpen 4, .call "\x7bb\x7d" 0,
            .loopClose 2]⟩,
          [⟨"\x7bb\x7d", "9223372036854775808", ⟨3, 2, 9⟩⟩]⟩ := by
  have ha : checkBrackets "é\n+\x7ba\x7d" = .ok () := by with_unfolding_all rfl
  have hb : checkBrackets "[\x7bb\x7d9223372036854775808]" = .ok () := by with_unfolding_all rfl
  have hp : compile {} "é\n+\x7ba\x7d" =
      .ok ⟨⟨#[.run .increment 1, .call "\x7ba\x7d" 0]⟩, []⟩ := by with_unfolding_all rfl
  have hq : compile {} "[\x7bb\x7d9223372036854775808]" =
      .ok ⟨⟨#[.loopOpen 2, .call "\x7bb\x7d" 0, .loopClose 0]⟩,
        [⟨"\x7bb\x7d", "9223372036854775808", ⟨1, 2, 1⟩⟩]⟩ := by with_unfolding_all rfl
  obtain ⟨p, q, hp', hq', hboth⟩ := compile_concatenation ha hb {}
  obtain rfl := Except.ok.inj (hp'.symm.trans hp)
  obtain rfl := Except.ok.inj (hq'.symm.trans hq)
  exact ⟨ha, hb, _, _, hp, hq, rfl, hboth.trans (by with_unfolding_all rfl)⟩

end TapeMachine
