import TapeMachine.Commands
import TapeMachine.Proofs.Machine.Alike
import TapeMachine.Proofs.Source.Replacement

/-!
# Calls that only tell

`{memory}` and the calls that nobody knows leave the tape as it is, so a source can do without them.
With a blank in the place of each the source is cut into the same lexemes but for these calls
(`lexemes_quieted`), and its program is the one it had without them (`compile_quieted`). A run sees
no difference if it is asked to tell nothing, and what the commands tell has no influence on a run
(`Machine.alike_quiet`).
-/

namespace TapeMachine

namespace Commands

/-- The calls that leave the tape as it is: `{memory}` and all that are unknown. -/
def OnlyTells (name : String) : Prop := name ≠ "\x7bincrement\x7d" ∧ name ≠ "\x7bpower\x7d"

instance (name : String) : Decidable (OnlyTells name) :=
  inferInstanceAs (Decidable (name ≠ "\x7bincrement\x7d" ∧ name ≠ "\x7bpower\x7d"))

/-- The host that does to the cells what the built-in commands do, and tells nothing. -/
def quiet : Host Unit where
  answer name argument head cells _ := ((answer name argument head cells []).1, ())

/-- What the commands have told has no influence on what they do to the cells. -/
theorem keeps_quiet : host.Keeps quiet fun _ => () := by
  intro n name argument t notes
  simp only [Host.call, host, quiet, answer]
  split
  · rfl
  split
  · rfl
  split <;> rfl

theorem call_quiet {name : String} (h : OnlyTells name) (argument : Cell) {n : Nat} (t : Tape n) :
    quiet.call name argument t () = (t, ()) := by
  simp only [Host.call, quiet, answer, if_neg h.1, if_neg h.2]
  split <;> rfl

end Commands

/-! ## Texts -/

namespace Lexeme

/-- The lexeme, or a blank in the place of a call that only tells. -/
def quiet : Lexeme → Lexeme
  | call letters digits =>
    if Commands.OnlyTells (String.ofList (bracedName letters)) then comment ' '
    else call letters digits
  | l => l

theorem quiet_cases (l : Lexeme) :
    l.quiet = l ∨ l.quiet = comment ' ' ∧ ∃ letters digits, l = call letters digits := by
  cases l with
  | call letters digits =>
    rw [quiet]
    split
    · exact .inr ⟨rfl, letters, digits, rfl⟩
    · exact .inl rfl
  | _ => exact .inl rfl

end Lexeme

/-- The source with a blank in the place of each call that only tells. -/
def quieted (source : String) : String :=
  String.ofList (textOf ((lexemes true source.toList).map .quiet))

theorem Cut.callsReplaced {ls : List Lexeme} (h : Cut true ls) :
    CallsReplaced (fun _ _ new => new = [' ']) (textOf ls) (textOf (ls.map .quiet)) := by
  induction ls with
  | nil => exact .nil
  | cons l ls ih =>
    obtain ⟨hends, htail⟩ := h
    rw [List.map_cons, textOf_cons, textOf_cons]
    rcases l.quiet_cases with hl | ⟨hl, letters, digits, rfl⟩
    · rw [hl]
      exact (ih htail).append_left l.text
    · rw [hl]
      exact .replace hends rfl (ih htail)

theorem Cut.quiet {ls : List Lexeme} (h : Cut true ls) : Cut true (ls.map .quiet) := by
  induction ls with
  | nil => trivial
  | cons l ls ih =>
    obtain ⟨hends, htail⟩ := h
    refine ⟨?_, ih htail⟩
    rcases l.quiet_cases with hl | ⟨hl, -⟩
    · rw [hl]
      refine htail.callsReplaced.endsBefore (c := ' ') ?_ (by decide) ?_ hends
      · exact fun hnew => ⟨[], hnew⟩
      · intro op _ _
        cases op <;> decide
    · rw [hl]
      exact ⟨rfl, by decide, by decide, fun hbrace => absurd hbrace.1 (by decide)⟩

/-- The lexemes of the source stay what they are, but for the blanks. -/
theorem lexemes_quieted (source : String) :
    lexemes true (quieted source).toList = (lexemes true source.toList).map .quiet := by
  rw [quieted, String.toList_ofList]
  exact (cut_lexemes true source.toList).quiet.lexemes_textOf

/-! ## Programs -/

/-- The instruction, or nothing in the place of a call that only tells. -/
def Instruction.quiet : Instruction → List Instruction
  | call name argument => if Commands.OnlyTells name then [] else [call name argument]
  | x => [x]

theorem Instruction.expand_quiet (x : Instruction) (r : Nat → Nat) :
    x.expand quiet r = [x.renumber r] ∨
      x.expand quiet r = [] ∧ ∃ name argument,
        x = call name argument ∧ Commands.OnlyTells name := by
  cases x with
  | call name argument =>
    rw [expand, quiet]
    split
    · next htells => exact .inr ⟨rfl, name, argument, rfl, htells⟩
    · exact .inl rfl
  | _ => exact .inl rfl

theorem Instruction.width_quiet_le (x : Instruction) : x.width quiet ≤ 1 := by
  rw [← length_expand (r := id)]
  rcases x.expand_quiet id with h | ⟨h, -⟩ <;> simp [h]

theorem Lexeme.expands_quiet : Expands (fun l => [l.quiet]) Instruction.quiet where
  opening := rfl
  closing := rfl
  comment _ _ := .comment .nil
  single := by
    intro l x k hl
    cases l with
    | run op count =>
      obtain rfl := Option.some.inj hl
      exact .single rfl .nil
    | call letters digits =>
      obtain rfl := Option.some.inj hl
      simp only [Lexeme.quiet, Instruction.quiet]
      split
      · exact .comment .nil
      · exact .single rfl .nil
    | opening => contradiction
    | closing => contradiction
    | comment c => contradiction

/-- With calls as comment no call is left. -/
theorem Lexeme.expands_quiet_withoutCall :
    Expands (fun l => l.quiet.withoutCall) Instruction.withoutCall where
  opening := rfl
  closing := rfl
  comment _ _ := .comment .nil
  single := by
    intro l x k hl
    cases l with
    | run op count =>
      obtain rfl := Option.some.inj hl
      exact .single rfl .nil
    | call letters digits =>
      obtain rfl := Option.some.inj hl
      rcases (call letters digits).quiet_cases with h | ⟨h, -⟩
      · rw [h]
        exact code_map_comment k (call letters digits).text
      · rw [h]
        exact .comment .nil
    | opening => contradiction
    | closing => contradiction
    | comment c => contradiction

/-- Without the calls that only tell a source is compiled to the program it was compiled to, without
these calls. -/
theorem compile_quieted {source : String} {c : Compiled}
    (h : compile { customInstructions := true } source = .ok c) :
    ∃ d, compile { customInstructions := true } (quieted source) = .ok d ∧
      d.program = c.program.expand Instruction.quiet := by
  have hcode := (code_of_compile h).expand Lexeme.expands_quiet c.program.tracks_place
  rw [← List.map_eq_flatMap, ← lexemes_quieted] at hcode
  exact ⟨_, compile_of_code (checkBrackets_of_nested hcode.nested) hcode, rfl⟩

/-- With calls as comment a source is compiled to the same program without them. -/
theorem compile_quieted_comment {source : String} {c : Compiled}
    (h : compile { customInstructions := false } source = .ok c) :
    ∃ d, compile { customInstructions := false } (quieted source) = .ok d ∧
      d.program = c.program := by
  obtain ⟨c', hc'⟩ := exists_compile (checkBrackets_of_compile h) { customInstructions := true }
  obtain ⟨d', hd', hprogram⟩ := compile_withoutCalls hc'
  obtain rfl := Except.ok.inj (h.symm.trans hd')
  have hcode :=
    (code_of_compile hc').expand Lexeme.expands_quiet_withoutCall c'.program.tracks_place
  rw [← List.flatMap_map, ← lexemes_quieted, ← lexemes_false] at hcode
  refine ⟨_, compile_of_code (checkBrackets_of_nested hcode.nested) hcode, ?_⟩
  rw [hprogram, Program.withoutCalls_eq_expand]
  rfl

/-! ## Runs -/

namespace Machine

/-- If nobody is told anything, a call that only tells is passed over. -/
theorem replaces_quiet {n : Nat} {job : Job Unit} (hhost : job.host = Commands.quiet)
    (nolimit : job.maxSteps = none) : Replaces Instruction.quiet job n := by
  refine replaces_of_passedOver fun m x running here => ?_
  rcases x.expand_quiet (job.program.place Instruction.quiet) with
    hkept | ⟨hnone, name, argument, rfl, htells⟩
  · exact .inl hkept
  · have hstep := step_of_instruction running here (limitReached?_eq_none nolimit m)
    simp only [perform, hhost, Commands.call_quiet htells] at hstep
    exact .inr ⟨hnone, hstep⟩

/-- A run is the same, but for what it tells, with the calls that only tell and without. -/
theorem alike_quiet {settings : MachineSettings} {p : Program} (linked : p.WellLinked)
    (nolimit : settings.maxSteps = none) (streams : Streams) (notes : List CommandNote) :
    Alike (.ofSettings settings p Commands.host)
      (.ofSettings settings (p.expand Instruction.quiet) Commands.host)
      (start settings streams notes) (start settings streams notes) := by
  let job : Job (List CommandNote) := .ofSettings settings p Commands.host
  let silenced : Job Unit := .ofSettings settings p Commands.quiet
  -- The host that tells nothing runs both programs alike, and neither run sees which host it has.
  have hhost : Alike job silenced (start settings streams notes) (start settings streams ()) :=
    alike_mapState (f := fun _ => ()) Commands.keeps_quiet _
  have hprogram : Alike silenced (silenced.expand Instruction.quiet)
      (start settings streams ()) (start settings streams ()) :=
    alike_expand linked nolimit (replaces_quiet rfl nolimit) Instruction.width_quiet_le _
  have hback : Alike (job.expand Instruction.quiet) (silenced.expand Instruction.quiet)
      (start settings streams notes) (start settings streams ()) :=
    alike_mapState (f := fun _ => ()) Commands.keeps_quiet _
  exact hhost.trans (hprogram.trans hback.symm)

end Machine

/-- A source and the source without the calls that only tell: if no limit is set, the two programs
run alike. -/
theorem exists_alike_quieted {settings : CompilerSettings} {source : String} {c : Compiled}
    (h : compile settings source = .ok c) :
    ∃ d, compile settings (quieted source) = .ok d ∧
      ∀ machine : MachineSettings, machine.maxSteps = none → ∀ streams notes,
        Machine.Alike (.ofSettings machine c.program Commands.host)
          (.ofSettings machine d.program Commands.host)
          (Machine.start machine streams notes) (Machine.start machine streams notes) := by
  obtain ⟨_ | _⟩ := settings
  · obtain ⟨d, hd, hprogram⟩ := compile_quieted_comment h
    refine ⟨d, hd, fun machine _ streams notes => ?_⟩
    rw [hprogram]
    exact .refl _ _
  · obtain ⟨d, hd, hprogram⟩ := compile_quieted h
    refine ⟨d, hd, fun machine nolimit streams notes => ?_⟩
    rw [hprogram]
    exact Machine.alike_quiet (wellLinked_of_compile h) nolimit streams notes

end TapeMachine
