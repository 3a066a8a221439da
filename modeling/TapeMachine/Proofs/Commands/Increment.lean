import TapeMachine.Commands
import TapeMachine.Proofs.Machine.Blocks
import TapeMachine.Proofs.Machine.Expansion
import TapeMachine.Proofs.Machine.WithoutCalls
import TapeMachine.Proofs.Source.Replacement

/-!
# Increments, spelled out

`{increment}N` is short for `N` plus signs. A call and a block that add to the current cell are both
replaced by single increments, in the lexemes and in the program (`Lexeme.ones`,
`Instruction.ones`); a text with calls and the text in which they are spelled out then come to the
same program, and each of the two machines is followed by the one with that program
(`execute_spelledOut_iff`).
-/

namespace TapeMachine

open Log

/-- The plus signs that a call of `increment` with a positive argument is short for. -/
def Commands.PlusSigns (letters digits signs : List Char) : Prop :=
  letters = "increment".toList ∧ 0 < decimalValue digits ∧ decimalValue digits ≤ maxArgument ∧
    signs = List.replicate (decimalValue digits) '+'

/-- The second text is the first with some of its increments spelled out. -/
abbrev SpelledOut : List Char → List Char → Prop := CallsReplaced Commands.PlusSigns

/-! ## Single increments -/

namespace Instruction

/-- What an instruction adds to the current cell if it does nothing else. -/
def added? : Instruction → Option Nat
  | run .increment count => some count
  | call name argument =>
    if name = "\x7bincrement\x7d" ∧ 0 ≤ argument.toInt then some argument.toInt.toNat else none
  | _ => none

/-- The instruction as single increments, if these do the same. -/
def ones (x : Instruction) : List Instruction :=
  match x.added? with
  | some count => List.replicate count (run .increment 1)
  | none => [x]

theorem expand_ones {x : Instruction} {count : Nat} (h : x.added? = some count) (r : Nat → Nat) :
    x.expand ones r = List.replicate count (run .increment 1) := by
  have hones : x.ones = List.replicate count (run .increment 1) := by rw [ones, h]
  cases x with
  | run op _ => exact hones
  | call name argument => exact hones
  | loopOpen close => contradiction
  | loopClose opening => contradiction

theorem expand_ones_of_none {x : Instruction} (h : x.added? = none) (r : Nat → Nat) :
    x.expand ones r = [x.renumber r] := by
  have hones : x.ones = [x] := by rw [ones, h]
  cases x with
  | run op count => exact hones
  | call name argument => exact hones
  | loopOpen close => rfl
  | loopClose opening => rfl

end Instruction

namespace Lexeme

/-- The lexeme as single plus signs, if these do the same; comment is left out. -/
def ones (l : Lexeme) : List Lexeme :=
  match l with
  | comment _ => []
  | l =>
    match l.instruction?.bind Instruction.added? with
    | some count => List.replicate count (run .increment 1)
    | none => [l]

theorem ones_of_instruction? {l : Lexeme} {x : Instruction} (h : l.instruction? = some x) :
    l.ones = match x.added? with
      | some count => List.replicate count (run .increment 1)
      | none => [l] := by
  cases l with
  | comment => contradiction
  | _ => simp only [ones, h, Option.bind_some]

theorem code_ones (k count : Nat) :
    Code k (List.replicate count (run .increment 1))
      (List.replicate count (.run .increment 1)) := by
  induction count generalizing k with
  | zero => exact .nil
  | succ count ih => exact .single rfl (ih (k + 1))

theorem expands_ones : Expands Lexeme.ones Instruction.ones where
  opening := rfl
  closing := rfl
  comment _ _ := .nil
  single := by
    intro l x k hl
    rw [ones_of_instruction? hl, Instruction.ones]
    cases x.added? with
    | none => exact .single hl .nil
    | some count => exact code_ones k count

theorem ones_of_plusSigns {letters digits signs : List Char}
    (h : Commands.PlusSigns letters digits signs) :
    (call letters digits).ones = List.replicate signs.length (run .increment 1) := by
  obtain ⟨rfl, -, hle, rfl⟩ := h
  have hname : String.ofList (bracedName "increment".toList) = "\x7bincrement\x7d" := rfl
  have hargument : argument? digits = some (Int64.ofNat (decimalValue digits)) := if_pos hle
  have hint : (Int64.ofNat (decimalValue digits)).toInt = decimalValue digits :=
    Int64.toInt_ofNat_of_lt (Nat.lt_succ_of_le hle)
  have hadded : Instruction.added? (.call "\x7bincrement\x7d" (Int64.ofNat (decimalValue digits))) =
      some (decimalValue digits) := by
    rw [Instruction.added?, hint, if_pos ⟨rfl, Int.natCast_nonneg _⟩, Int.toNat_natCast]
  have hinstruction : (call "increment".toList digits).instruction? =
      some (.call "\x7bincrement\x7d" (Int64.ofNat (decimalValue digits))) := by
    rw [instruction?, hname, hargument, Option.getD_some]
  rw [ones_of_instruction? hinstruction, hadded, List.length_replicate]

/-- A block of plus signs, as long as it goes. -/
theorem flatMap_ones_block (count : Nat) {rest : List Char} (h : rest.head? ≠ some '+') :
    (lexemes true (List.replicate count '+' ++ rest)).flatMap ones =
      List.replicate count (run .increment 1) ++ (lexemes true rest).flatMap ones := by
  cases count with
  | zero => rfl
  | succ count =>
    have hends : (run .increment (count + 1)).EndsBefore true rest := ⟨Nat.succ_pos _, h⟩
    exact congrArg (List.flatMap ones) (lexemes_of_endsBefore hends)

/-- Plus signs come to as many single ones, also if there are more behind them. -/
theorem flatMap_ones_plus (count : Nat) (t : List Char) :
    (lexemes true (List.replicate count '+' ++ t)).flatMap ones =
      List.replicate count (run .increment 1) ++ (lexemes true t).flatMap ones := by
  have hsplit : t = t.takeWhile (· == '+') ++ t.dropWhile (· == '+') :=
    List.takeWhile_append_dropWhile.symm
  rw [takeWhile_eq_replicate] at hsplit
  have hrest : (t.dropWhile (· == '+')).head? ≠ some '+' := by
    intro hhead
    have hstop := List.head?_dropWhile_not (· == '+') t
    simp only [hhead] at hstop
    contradiction
  generalize (t.takeWhile (· == '+')).length = more, t.dropWhile (· == '+') = rest at hsplit hrest
  subst hsplit
  rw [← List.append_assoc, List.replicate_append_replicate, flatMap_ones_block _ hrest,
    flatMap_ones_block _ hrest, ← List.append_assoc, List.replicate_append_replicate]

end Lexeme

/-- A text comes to the same single increments if some of its calls are spelled out. -/
theorem SpelledOut.flatMap_ones {s t : List Char} (h : SpelledOut s t) :
    (lexemes true s).flatMap Lexeme.ones = (lexemes true t).flatMap Lexeme.ones := by
  refine CallsReplaced.flatMap_lexemes (c := '+') ?_ (by decide) ?_ ?_ h
  · rintro letters digits signs ⟨-, hpos, -, rfl⟩
    obtain ⟨count, hcount⟩ := Nat.exists_eq_succ_of_ne_zero (Nat.ne_of_gt hpos)
    exact ⟨List.replicate count '+', by rw [hcount, List.replicate_succ]⟩
  · intro letters digits signs hsigns t
    rw [Lexeme.ones_of_plusSigns hsigns]
    obtain ⟨-, -, -, rfl⟩ := hsigns
    rw [List.length_replicate]
    exact Lexeme.flatMap_ones_plus _ t
  · intro op count hop t
    obtain rfl : op = .increment := by cases op <;> first | rfl | contradiction
    exact Lexeme.flatMap_ones_plus count t

theorem SpelledOut.checkBrackets {source spelled : String}
    (h : SpelledOut source.toList spelled.toList) (hs : checkBrackets source = .ok ()) :
    TapeMachine.checkBrackets spelled = .ok () := by
  refine (checkBrackets_congr (h.brackets_eq ?_)).mp hs
  rintro letters digits signs ⟨-, -, -, rfl⟩ c hc
  rw [List.eq_of_mem_replicate hc]
  decide

/-- The two texts are compiled to programs that come to the same single increments. -/
theorem SpelledOut.expand_eq {source spelled : String} {c d : Compiled}
    (h : SpelledOut source.toList spelled.toList)
    (hc : compile { customInstructions := true } source = .ok c)
    (hd : compile { customInstructions := true } spelled = .ok d) :
    c.program.expand Instruction.ones = d.program.expand Instruction.ones := by
  have hfirst := (code_of_compile hc).expand Lexeme.expands_ones (Program.tracks_place c.program)
  have hsecond := (code_of_compile hd).expand Lexeme.expands_ones (Program.tracks_place d.program)
  rw [h.flatMap_ones] at hfirst
  exact congrArg (fun is => (⟨is.toArray⟩ : Program)) (hfirst.unique hsecond)

/-! ## Runs -/

namespace Machine

variable {n : Nat} {job : Job (List CommandNote)} {m : Machine n (List CommandNote)}

/-- What a run leaves if indices do not count: how it ended, the tape, the streams, and what the
host has been told. -/
def outcome (x : Except RuntimeError Halt × Machine n (List CommandNote)) :
    Remains n × List CommandNote :=
  ((remains x).renumber fun _ => 0, x.2.state)

theorem outcome_renumberEnd (r : Nat → Nat) (steps : Nat)
    (x : Except RuntimeError Halt × Machine n (List CommandNote)) :
    outcome (renumberEnd r steps x) = outcome x :=
  Prod.ext (renumber_remains_renumberEnd r steps x) rfl

theorem perform_of_added? (hhost : job.host = Commands.host) {x : Instruction} {count : Nat}
    (hx : x.added? = some count) :
    m.perform job x = (.ok none, (m.write (m.tape.current + Int64.ofNat count)).advance) := by
  cases x with
  | run op count' =>
    cases op <;> simp only [Instruction.added?, reduceCtorEq, Option.some.injEq] at hx
    subst hx
    rfl
  | call name argument =>
    simp only [Instruction.added?, Option.ite_none_right_eq_some, Option.some.injEq] at hx
    obtain ⟨⟨rfl, hnonneg⟩, rfl⟩ := hx
    rw [perform, hhost, Cell.ofNat_toNat_of_nonneg hnonneg]
    rfl
  | loopOpen close => contradiction
  | loopClose opening => contradiction

/-- Single increments, one after the other, add their number to the current cell. -/
theorem steps_of_ones (nolimit : job.maxSteps = none) {count : Nat} (running : m.status = .running)
    (here : ∀ j < count, job.program.instructions[m.next + j]? = some (.run .increment 1)) :
    Steps job count m { m with
      next := m.next + count
      tape := m.tape.write (m.tape.current + Int64.ofNat count)
      steps := m.steps + count } := by
  induction count generalizing m with
  | zero => simpa using Steps.nil
  | succ count ih =>
    have hfirst := step_of_instruction running (here 0 (Nat.succ_pos _))
      (limitReached?_eq_none nolimit m)
    let m₁ := ({ m with steps := m.steps + 1 }.write (m.tape.current + 1)).advance
    have hnext : m₁.next = m.next + 1 := rfl
    have hrest := ih (m := m₁) running fun j hj => by
      rw [hnext, Nat.add_assoc, Nat.add_comm 1]
      exact here (j + 1) (Nat.succ_lt_succ hj)
    have hlast : m.tape.write (m.tape.current + Int64.ofNat (count + 1)) =
        m₁.tape.write (m₁.tape.current + Int64.ofNat count) := by
      simp [m₁, advance, write, Int64.add_assoc, Int64.add_comm]
    have hcount : ∀ i, i + (count + 1) = i + 1 + count := by omega
    rw [hlast, hcount m.next, hcount m.steps]
    exact .cons hfirst hrest

/-- Single increments do what an instruction does that adds to the current cell. -/
theorem replaces_ones (nolimit : job.maxSteps = none) (hhost : job.host = Commands.host) :
    Replaces Instruction.ones job n := by
  intro m x running here
  cases hx : x.added? with
  | none => exact .inl (Instruction.expand_ones_of_none hx _)
  | some count =>
    have hexpand := Instruction.expand_ones hx (job.program.place Instruction.ones)
    have hwidth : x.width Instruction.ones = count := by
      rw [← Instruction.length_expand, hexpand, List.length_replicate]
    have hplace : job.program.place Instruction.ones (m.next + 1) =
        job.program.place Instruction.ones m.next + count := by
      rw [Program.place_succ here, hwidth]
    have hthere : ∀ j < count, (job.expand Instruction.ones).program.instructions[
        job.program.place Instruction.ones m.next + j]? = some (.run .increment 1) := by
      intro j hj
      refine (Program.expand_getElem? here (hwidth ▸ hj)).trans ?_
      rw [hexpand, List.getElem?_replicate, if_pos hj]
    have hstep := step_of_instruction running here (limitReached?_eq_none nolimit m)
    rw [perform_of_added? hhost hx] at hstep
    refine .inr ⟨_, hstep, rfl, fun steps => ⟨steps + count, ?_⟩⟩
    have hnolimit : (job.expand Instruction.ones).maxSteps = none := nolimit
    have hother : (m.renumber (job.program.place Instruction.ones) steps).status = .running :=
      running_renumber running
    have hsteps := steps_of_ones hnolimit hother hthere
    rw [hwidth]
    simpa [renumber, advance, write, hplace] using hsteps

end Machine

/-- `{increment}N` is short for `N` plus signs: a source and the source with any of these calls
spelled out are compiled to programs that, if no limit is set, both run forever or both end, in the
same way but for the indices of instructions, and with the same tape, the same streams and the same
notes of the host. -/
theorem execute_spelledOut_iff {source spelled : String} (h : checkBrackets source = .ok ())
    (hspelled : SpelledOut source.toList spelled.toList) (settings : MachineSettings)
    (nolimit : settings.maxSteps = none) :
    checkBrackets spelled = .ok () ∧
    ∃ c d, compile { customInstructions := true } source = .ok c ∧
      compile { customInstructions := true } spelled = .ok d ∧
      ∀ streams notes e,
        (∃ fuel, ((Machine.start settings streams notes).execute
          (.ofSettings settings c.program Commands.host) fuel).map Machine.outcome = some e) ↔
        ∃ fuel, ((Machine.start settings streams notes).execute
          (.ofSettings settings d.program Commands.host) fuel).map Machine.outcome = some e := by
  have hbrackets := hspelled.checkBrackets h
  obtain ⟨c, hc⟩ := exists_compile h { customInstructions := true }
  obtain ⟨d, hd⟩ := exists_compile hbrackets { customInstructions := true }
  refine ⟨hbrackets, c, d, hc, hd, fun streams notes e => ?_⟩
  -- Both machines are followed by the one that makes all increments one by one.
  have hfollowed : ∀ {text : String} {p : Compiled},
      compile { customInstructions := true } text = .ok p →
      ((∃ fuel, ((Machine.start settings streams notes).execute
          (.ofSettings settings p.program Commands.host) fuel).map Machine.outcome = some e) ↔
        ∃ fuel, ((Machine.start settings streams notes).execute
          (.ofSettings settings (p.program.expand Instruction.ones) Commands.host) fuel).map
            Machine.outcome = some e) := by
    intro text p hp
    let job : Job (List CommandNote) := .ofSettings settings p.program Commands.host
    have linked : job.program.WellLinked := wellLinked_of_compile hp
    have hfollows := Machine.follows_expand linked nolimit
      (Machine.replaces_ones (n := settings.cells) nolimit rfl)
      fun steps x => (Machine.outcome_renumberEnd _ steps x).symm
    exact Machine.execute_iff_of_follows hfollows ⟨0, rfl⟩
  rw [hfollowed hc, hfollowed hd, hspelled.expand_eq hc hd]

/-- The brace in front of a call that is spelled out does not become a call itself. -/
theorem execute_spelledOut_between_braces :
    checkBrackets "\x7bb\x7bincrement\x7d2\x7d." = .ok () ∧
    SpelledOut "\x7bb\x7bincrement\x7d2\x7d.".toList "\x7bb++\x7d.".toList ∧
    ∃ c d, compile { customInstructions := true } "\x7bb\x7bincrement\x7d2\x7d." = .ok c ∧
      compile { customInstructions := true } "\x7bb++\x7d." = .ok d ∧
      c.program.instructions = #[.call "\x7bincrement\x7d" 2, .run .output 1] ∧
      ∃ fuel e, ((Machine.start { memorySize := 1 } {} []).execute
        (.ofSettings { memorySize := 1 } d.program Commands.host) fuel).map Machine.outcome =
          some e ∧
        e.1.result = .ok .completed ∧ e.1.streams.output = [2] := by
  have hbrackets : checkBrackets "\x7bb\x7bincrement\x7d2\x7d." = .ok () := rfl
  have hcall : (Lexeme.call "increment".toList ['2']).EndsBefore true ['\x7d', '.'] :=
    ⟨rfl, nofun, List.all_eq_true.mp rfl, List.all_eq_true.mp rfl, by simp⟩
  have hsigns : Commands.PlusSigns "increment".toList ['2'] ['+', '+'] :=
    ⟨rfl, by decide, by decide, rfl⟩
  have hspelled : SpelledOut "\x7bb\x7bincrement\x7d2\x7d.".toList "\x7bb++\x7d.".toList :=
    .keep '\x7b' <| .keep 'b' <| .replace hcall hsigns <| .keep '\x7d' <| .keep '.' .nil
  have hcompile : compile { customInstructions := true } "\x7bb\x7bincrement\x7d2\x7d." =
      .ok ⟨⟨#[.call "\x7bincrement\x7d" 2, .run .output 1]⟩, []⟩ := by with_unfolding_all rfl
  obtain ⟨-, c, d, hc, hd, hsame⟩ :=
    execute_spelledOut_iff hbrackets hspelled { memorySize := 1 } rfl
  obtain rfl := Except.ok.inj (hcompile.symm.trans hc)
  obtain ⟨fuel, hrun⟩ := (hsame {} [] _).mp ⟨3, rfl⟩
  exact ⟨hbrackets, hspelled, _, d, hc, hd, rfl, fuel, _, hrun, rfl, rfl⟩

end TapeMachine
