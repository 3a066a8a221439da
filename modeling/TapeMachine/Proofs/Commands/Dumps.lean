import TapeMachine.Proofs.Commands.Telling
import TapeMachine.Proofs.Machine.CarriedOut
import TapeMachine.Proofs.Numerals

/-!
# Memory dumps

What a step shows depends on the machine before it only, so after any number of steps one dump after
the other was shown, each with the cells as they were then (`Machine.shownText_after`). A dump is a
line of numerals with blanks between them, and no numeral has a blank or a newline in it: the text
tells all the dumps and their cells (`CommandNote.join_dumpText_inj`). `dumps_are_snapshots` adds
that a source without its dumps runs like the source with them.
-/

namespace TapeMachine

namespace Machine

variable {n : Nat} {σ : Type}

/-- The cells that are shown if the next step carries out `{memory}N`: the first `N` cells, or all
of them if `N` is 0. -/
def snapshot? (job : Job σ) (m : Machine n σ) : Option (List Cell) :=
  match m.pending? job with
  | some (.call name argument) =>
    let count := argument.toInt.toNat
    let cells := m.tape.cells.toList
    if name = "\x7bmemory\x7d" then some (if count = 0 then cells else cells.take (min count n))
    else none
  | _ => none

/-- What is shown in the first `k` steps, in order. -/
def snapshots (job : Job σ) : (k : Nat) → Machine n σ → List (List Cell)
  | 0, _ => []
  | k + 1, m => (m.snapshot? job).toList ++ snapshots job k (m.step job).2

end Machine

/-! ## What is shown -/

namespace Commands

theorem shownText_cons (note : CommandNote) (notes : List CommandNote) :
    shownText (note :: notes) = shownText notes ++ note.shown := by
  rw [shownText, List.reverse_cons, List.map_append, String.join_append, shownText]
  simp

/-- The cells that a dump shows, by its argument. -/
theorem take_shownCells (argument : Cell) {n : Nat} (cells : Vector Cell n) :
    cells.toList.take (shownCells argument n) =
      if argument.toInt.toNat = 0 then cells.toList
      else cells.toList.take (min argument.toInt.toNat n) := by
  unfold shownCells
  by_cases h : 0 < argument.toInt
  · rw [if_pos h, if_neg (by omega)]
  · rw [if_neg h, if_pos (by omega)]
    exact List.take_of_length_le (by simp)

/-- A call shows a dump if it is one, and nothing otherwise. -/
theorem shownText_call (name : String) (argument : Cell) {n : Nat} (t : Tape n)
    (notes : List CommandNote) :
    shownText (host.call name argument t notes).2 =
      shownText notes ++
        if name = "\x7bmemory\x7d" then
          CommandNote.dumpText (if argument.toInt.toNat = 0 then t.cells.toList
            else t.cells.toList.take (min argument.toInt.toNat n))
        else "" := by
  rw [← take_shownCells]
  simp only [Host.call, host, answer]
  by_cases hincrement : name = "\x7bincrement\x7d"
  · simp [hincrement]
  by_cases hpower : name = "\x7bpower\x7d"
  · simp [hpower]
  by_cases hmemory : name = "\x7bmemory\x7d"
  · simp [hmemory, shownText_cons, CommandNote.shown]
  · simp [hincrement, hpower, hmemory, shownText_cons, CommandNote.shown]

end Commands

namespace Machine

variable {n : Nat} {job : Job (List CommandNote)} (hhost : job.host = Commands.host)

open Commands (shownText)

include hhost

theorem shownText_step (m : Machine n (List CommandNote)) :
    shownText (m.step job).2.state =
      shownText m.state ++ String.join ((m.snapshot? job).toList.map CommandNote.dumpText) := by
  cases hpending : m.pending? job with
  | none => simp [snapshot?, hpending, state_step_of_pending?_eq_none hpending]
  | some x =>
    rw [snapshot?, hpending, step_of_pending? hpending]
    -- Only a call changes what was shown.
    cases x with
    | run op count => simp [perform, state_operate]
    | loopOpen close => by_cases hzero : m.tape.current = 0 <;> simp [perform, advance, hzero]
    | loopClose opening => by_cases hzero : m.tape.current = 0 <;> simp [perform, advance, hzero]
    | call name argument =>
      simp only [perform, hhost, Commands.shownText_call]
      split <;> simp

/-- After any number of steps what is shown is the dumps that were made, in order. -/
theorem shownText_after (k : Nat) (m : Machine n (List CommandNote)) :
    shownText (after job k m).state =
      shownText m.state ++ String.join ((snapshots job k m).map CommandNote.dumpText) := by
  induction k generalizing m with
  | zero => simp [after, snapshots]
  | succ k ih =>
    rw [after, ih, shownText_step hhost, snapshots, List.map_append, String.join_append,
      String.append_assoc]

end Machine

/-! ## What a dump tells -/

namespace CommandNote

/-- The numerals between the brackets of a dump. -/
def numerals (cells : List Cell) : List (List Char) := cells.map fun c => (toString c.toInt).toList

theorem numerals_inj {cells cells' : List Cell} (h : numerals cells = numerals cells') :
    cells = cells' := by
  refine List.map_injective_iff.mpr ?_ h
  intro c c' hc
  have htext : toString c.toInt = toString c'.toInt := String.toList_injective hc
  exact Int64.toInt_inj.mp (toString_int_inj htext)

/-- The line of a dump. -/
def dumpLine (cells : List Cell) : List Char :=
  "Memory: [".toList ++ ([' '].intercalate (numerals cells) ++ [']'])

theorem toList_dumpText (cells : List Cell) :
    (dumpText cells).toList = '\n' :: (dumpLine cells ++ ['\n']) := by
  have htext : dumpText cells =
      "\nMemory: [" ++ " ".intercalate (cells.map fun c => toString c.toInt) ++ "]\n" := rfl
  have hfront : "\nMemory: [".toList = '\n' :: "Memory: [".toList := by decide
  have hend : "]\n".toList = [']', '\n'] := by decide
  have hblank : " ".toList = [' '] := by decide
  rw [htext, String.toList_append, String.toList_append, String.toList_intercalate, List.map_map,
    hfront, hend, hblank]
  unfold dumpLine numerals
  simp only [List.cons_append, List.append_assoc, List.nil_append, Function.comp_def]

theorem notMem_numeral {c : Char} (hsign : c ≠ '-') (hdigit : ¬c.isDigit) {cells : List Cell}
    {numeral : List Char} (h : numeral ∈ numerals cells) : c ∉ numeral := by
  obtain ⟨cell, -, rfl⟩ := List.mem_map.mp h
  intro hc
  rcases eq_minus_or_isDigit_of_mem_toString hc with rfl | hc
  · exact hsign rfl
  · exact hdigit hc

theorem numeral_ne_nil {cells : List Cell} {numeral : List Char} (h : numeral ∈ numerals cells) :
    numeral ≠ [] := by
  obtain ⟨cell, -, rfl⟩ := List.mem_map.mp h
  exact toList_toString_int_ne_nil _

/-- Numerals with blanks between them can be told apart, and from no numerals. -/
theorem intercalate_numerals_inj {cells cells' : List Cell}
    (h : [' '].intercalate (numerals cells) = [' '].intercalate (numerals cells')) :
    cells = cells' := by
  have hsplit : ∀ {cells}, cells ≠ [] →
      ([' '].intercalate (numerals cells)).splitOn ' ' = numerals cells := fun hne =>
    List.splitOn_intercalate ' ' (fun _ => notMem_numeral (by decide) (by decide))
      (fun hnil => hne (List.map_eq_nil_iff.mp hnil))
  have hempty : ∀ {cells}, numerals cells = [[]] → False := fun hcells =>
    numeral_ne_nil (hcells ▸ List.mem_singleton_self []) rfl
  have hlists := congrArg (List.splitOn ' ') h
  -- The text of no numerals would also be that of an empty one, but no numeral is empty.
  by_cases hcells : cells = [] <;> by_cases hcells' : cells' = []
  · rw [hcells, hcells']
  · rw [hsplit hcells', hcells] at hlists
    exact (hempty hlists.symm).elim
  · rw [hsplit hcells, hcells'] at hlists
    exact (hempty hlists).elim
  · rw [hsplit hcells, hsplit hcells'] at hlists
    exact numerals_inj hlists

theorem dumpLine_inj {cells cells' : List Cell} (h : dumpLine cells = dumpLine cells') :
    cells = cells' :=
  intercalate_numerals_inj (List.append_cancel_right (List.append_cancel_left h))

theorem notMem_intercalate {α : Type} {separator : List α} {lists : List (List α)} {a : α}
    (hseparator : a ∉ separator) (h : ∀ l ∈ lists, a ∉ l) : a ∉ separator.intercalate lists := by
  induction lists with
  | nil => simp
  | cons l lists ih =>
    obtain ⟨hl, hlists⟩ := List.forall_mem_cons.mp h
    cases lists with
    | nil => rwa [List.intercalate_singleton]
    | cons l' lists =>
      rw [List.intercalate_cons_cons]
      simp only [List.mem_append, not_or]
      exact ⟨⟨hl, hseparator⟩, ih hlists⟩

theorem newline_notMem_dumpLine (cells : List Cell) : '\n' ∉ dumpLine cells := by
  have hfront : '\n' ∉ "Memory: [".toList := by decide
  have hnumerals : '\n' ∉ [' '].intercalate (numerals cells) :=
    notMem_intercalate (by decide) fun _ => notMem_numeral (by decide) (by decide)
  intro h
  rcases List.mem_append.mp h with h | h
  · exact hfront h
  · rcases List.mem_append.mp h with h | h
    · exact hnumerals h
    · contradiction

/-- The dumps can be told from all of their text. -/
theorem join_dumpText_inj {dumps dumps' : List (List Cell)}
    (h : String.join (dumps.map dumpText) = String.join (dumps'.map dumpText)) :
    dumps = dumps' := by
  have hlists := congrArg String.toList h
  simp only [String.toList_join, List.flatMap_map] at hlists
  clear h
  induction dumps generalizing dumps' with
  | nil =>
    cases dumps' with
    | nil => rfl
    | cons cells' dumps' => simp [toList_dumpText] at hlists
  | cons cells dumps ih =>
    cases dumps' with
    | nil => simp [toList_dumpText] at hlists
    | cons cells' dumps' =>
      simp only [List.flatMap_cons, toList_dumpText, List.cons_append, List.append_assoc,
        List.nil_append] at hlists ih
      obtain ⟨hline, hrest⟩ := append_cons_inj (newline_notMem_dumpLine cells)
        (newline_notMem_dumpLine cells') (List.cons.inj hlists).2
      rw [dumpLine_inj hline, ih hrest]

end CommandNote

/-! ## Dumps of a run -/

namespace Machine

open Commands (shownText)

variable {n : Nat} {job : Job (List CommandNote)} {m : Machine n (List CommandNote)}

/-- The text shown by a machine that had shown nothing is that of its snapshots, and of no other
cells. -/
theorem shownText_after_eq_iff (hhost : job.host = Commands.host) (hm : m.state = []) (k : Nat)
    (dumps : List (List Cell)) :
    shownText (after job k m).state = String.join (dumps.map CommandNote.dumpText) ↔
      dumps = snapshots job k m := by
  have hstart : shownText m.state = "" := by
    rw [hm]
    rfl
  rw [shownText_after hhost, hstart, String.empty_append]
  constructor
  · exact fun h => (CommandNote.join_dumpText_inj h).symm
  · rintro rfl
    rfl

end Machine

/-- Memory dumps are snapshots. A source is run with the built-in commands: after any number of
steps, and at the end of the run if there is one, the text that was shown is one dump for each
`{memory}N` that was carried out, in order, each of the first `N` cells as they were then, or of all
if `N` is 0. No other cells have this text. With a blank in the place of each `{memory}` and of each
unknown call the source does the same to the tape and to the streams, if no limit is set. -/
theorem dumps_are_snapshots {source : String} (h : checkBrackets source = .ok ())
    (compiler : CompilerSettings) (settings : MachineSettings) (streams : Streams) :
    ∃ c d, compile compiler source = .ok c ∧ compile compiler (quieted source) = .ok d ∧
      (∀ k dumps,
        Commands.shownText (Machine.after (.ofSettings settings c.program Commands.host) k
            (Machine.start settings streams [])).state =
          String.join (dumps.map CommandNote.dumpText) ↔
        dumps = Machine.snapshots (.ofSettings settings c.program Commands.host) k
          (Machine.start settings streams [])) ∧
      (∀ fuel result m,
        (Machine.start settings streams []).execute
          (.ofSettings settings c.program Commands.host) fuel = some (result, m) →
        ∀ dumps, Commands.shownText m.state = String.join (dumps.map CommandNote.dumpText) ↔
          dumps = Machine.snapshots (.ofSettings settings c.program Commands.host) fuel
            (Machine.start settings streams [])) ∧
      (settings.maxSteps = none →
        Machine.Alike (.ofSettings settings c.program Commands.host)
          (.ofSettings settings d.program Commands.host)
          (Machine.start settings streams []) (Machine.start settings streams [])) := by
  obtain ⟨c, hc⟩ := exists_compile h compiler
  obtain ⟨d, hd, halike⟩ := exists_alike_quieted hc
  let job : Job (List CommandNote) := .ofSettings settings c.program Commands.host
  have hhost : job.host = Commands.host := rfl
  have hshown := Machine.shownText_after_eq_iff hhost (m := .start settings streams []) rfl
  refine ⟨c, d, hc, hd, hshown, ?_, fun nolimit => halike settings nolimit streams []⟩
  intro fuel result m hrun dumps
  rw [(Machine.onlyFlushed_execute hrun).state]
  exact hshown fuel dumps

/-- The first of two cells is shown, and an unknown call shows nothing. -/
theorem dumps_are_snapshots_first_cell :
    checkBrackets "+\x7bmemory\x7d1\x7bx\x7d." = .ok () ∧
    quieted "+\x7bmemory\x7d1\x7bx\x7d." = "+  ." ∧
    ∃ c d, compile {} "+\x7bmemory\x7d1\x7bx\x7d." = .ok c ∧ compile {} "+  ." = .ok d ∧
      c.program.instructions = #[.run .increment 1, .call "\x7bmemory\x7d" 1, .call "\x7bx\x7d" 0,
        .run .output 1] ∧
      (∀ dumps, "\nMemory: [1]\n" = String.join (dumps.map CommandNote.dumpText) ↔
        dumps = [[1]]) ∧
      ∃ fuel e, ((Machine.start { memorySize := 2 } {} []).execute
        (.ofSettings { memorySize := 2 } d.program Commands.host) fuel).map Machine.unindexed =
          some e ∧
        e.result = .ok .completed ∧ e.streams.output = [1] := by
  have hbrackets : checkBrackets "+\x7bmemory\x7d1\x7bx\x7d." = .ok () := rfl
  have hquieted : quieted "+\x7bmemory\x7d1\x7bx\x7d." = "+  ." := by with_unfolding_all rfl
  have hcompile : compile {} "+\x7bmemory\x7d1\x7bx\x7d." =
      .ok ⟨⟨#[.run .increment 1, .call "\x7bmemory\x7d" 1, .call "\x7bx\x7d" 0,
        .run .output 1]⟩, []⟩ := by with_unfolding_all rfl
  obtain ⟨c, d, hc, hd, hshown, -, hsame⟩ := dumps_are_snapshots hbrackets {} { memorySize := 2 } {}
  obtain rfl := Except.ok.inj (hcompile.symm.trans hc)
  rw [hquieted] at hd
  have hdumps : ∀ dumps, "\nMemory: [1]\n" = String.join (dumps.map CommandNote.dumpText) ↔
      dumps = [[1]] := hshown 4
  obtain ⟨fuel, hrun⟩ := ((hsame rfl).ends _).mp ⟨5, rfl⟩
  exact ⟨hbrackets, hquieted, _, d, hc, hd, rfl, hdumps, fuel, _, hrun, rfl, rfl⟩

end TapeMachine
