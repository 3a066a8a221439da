import TapeMachine.Proofs.Machine.Bounds
import TapeMachine.Proofs.Machine.Demand

/-!
# Longer tapes

The length of the tape matters in one place only, where a move is found to leave it. So a machine
with further cells on the right (`Machine.widen`) takes the step that it would take without them,
unless that step leaves the shorter tape (`step_widen`), and so do runs (`after_widen`,
`execute_widen`). And as a step changes no cell but the one under the head, a cell that the head has
not been on is as it was (`cells_after`). Both need that no host can look at the cells or change
them.
-/

namespace TapeMachine

theorem MachineSettings.cells_le_of_memorySize_le (settings : MachineSettings) {larger : Nat}
    (h : settings.memorySize ≤ larger) :
    settings.cells ≤ { settings with memorySize := larger }.cells :=
  Nat.max_le.mpr ⟨Nat.le_trans h (Nat.le_max_left ..), Nat.le_max_right ..⟩

namespace Tape

variable {n n' : Nat} {t t' : Tape n}

/-- The tape with further cells on the right, all of them zero. -/
def widen (h : n ≤ n') (t : Tape n) : Tape n' :=
  { cells := (t.cells ++ Vector.replicate (n' - n) (0 : Cell)).cast (Nat.add_sub_cancel' h)
    head := t.head.castLE h }

@[simp] theorem current_widen (h : n ≤ n') (t : Tape n) : (t.widen h).current = t.current := by
  simp [current, widen]

theorem write_widen (h : n ≤ n') (t : Tape n) (c : Cell) :
    (t.widen h).write c = (t.write c).widen h := by
  have hset : (t.cells ++ Vector.replicate (n' - n) (0 : Cell)).set t.head c =
      t.cells.set t.head c ++ Vector.replicate (n' - n) (0 : Cell) := by
    rw [Vector.set_append, dif_pos t.head.isLt]
  simp only [widen, write, ← hset, Tape.mk.injEq, and_true]
  rfl

/-- A place on the shorter tape is one on the longer tape. -/
theorem moveTo?_widen (h : n ≤ n') {target : Int} (hmove : t.moveTo? target = some t') :
    (t.widen h).moveTo? target = some (t'.widen h) := by
  unfold moveTo? at hmove ⊢
  split at hmove
  · next inside =>
    obtain rfl := Option.some.inj hmove
    rw [dif_pos ⟨inside.1, Nat.lt_of_lt_of_le inside.2 h⟩]
    rfl
  · contradiction

theorem blank_widen (h : n ≤ n') (hn : 0 < n) :
    (blank n hn).widen h = blank n' (Nat.lt_of_lt_of_le hn h) := by
  have hcells : (Vector.replicate n (0 : Cell) ++ Vector.replicate (n' - n) (0 : Cell)).cast
      (Nat.add_sub_cancel' h) = Vector.replicate n' 0 := by
    ext i hi
    simp
  simp only [widen, blank, hcells]
  rfl

/-! ## Cells that are left alone -/

theorem cells_write_of_ne {i : Nat} (hi : i < n) (h : i ≠ t.head) (c : Cell) :
    (t.write c).cells[i] = t.cells[i] :=
  Vector.getElem_set_ne t.head.isLt hi h.symm

theorem cells_of_moveTo? {target : Int} (hmove : t.moveTo? target = some t') :
    t'.cells = t.cells := by
  unfold moveTo? at hmove
  split at hmove
  · obtain rfl := Option.some.inj hmove
    rfl
  · contradiction

end Tape

namespace Machine

variable {n n' : Nat} {σ : Type}

/-- The machine with further cells on the right of its tape. -/
def widen (h : n ≤ n') (m : Machine n σ) : Machine n' σ :=
  { next := m.next, tape := m.tape.widen h, steps := m.steps, status := m.status
    streams := m.streams, state := m.state }

/-! ## Parts of a step -/

theorem write_widen (h : n ≤ n') (m : Machine n σ) (c : Cell) :
    (m.widen h).write c = (m.write c).widen h := by
  simp only [write, widen, Tape.write_widen]

theorem settle_widen (h : n ≤ n') (m : Machine n σ) (supply : Supply) (streams : Streams) :
    (m.widen h).settle supply streams =
      ((m.settle supply streams).1, (m.settle supply streams).2.widen h) := by
  have hwrite : ∀ c, write { m.widen h with streams } c = (write { m with streams } c).widen h :=
    fun c => write_widen h { m with streams } c
  rcases supply with ⟨_ | cause, _ | latest⟩
  · rfl
  · simp only [settle, hwrite]
    rfl
  · rfl
  · simp only [settle, hwrite]
    rfl

theorem output_widen (h : n ≤ n') (m : Machine n σ) (count : Nat) :
    (m.widen h).output count = ((m.output count).1, (m.output count).2.widen h) := by
  rw [output_eq_settle, output_eq_settle, ← settle_widen]
  simp only [widen, Tape.current_widen]

theorem input_widen (h : n ≤ n') (m : Machine n σ) (count : Nat) :
    (m.widen h).input count = ((m.input count).1, (m.input count).2.widen h) := by
  rw [input_eq_settle, input_eq_settle, ← settle_widen]
  rfl

/-- Only a move sees the end of the tape, and only if it goes there. -/
theorem moveBy_widen (h : n ≤ n') {m : Machine n σ} {bounds : BoundsPolicy} {offset : Int}
    (on : OnTape (m.moveBy bounds offset).2) :
    (m.widen h).moveBy bounds offset =
      ((m.moveBy bounds offset).1, (m.moveBy bounds offset).2.widen h) := by
  cases inside : m.tape.moveTo? (m.tape.target offset) with
  | none =>
    rw [moveBy_of_off inside] at on
    exact absurd rfl (on m.next (m.tape.target offset))
  | some tape =>
    rw [moveBy_of_moveTo? inside]
    exact moveBy_of_moveTo? (m := m.widen h) (Tape.moveTo?_widen h inside) bounds

/-! ## Cells that parts of a step leave alone -/

theorem cells_settle {m : Machine n σ} {i : Nat} (hi : i < n) (h : i ≠ m.tape.head)
    (supply : Supply) (streams : Streams) :
    (m.settle supply streams).2.tape.cells[i] = m.tape.cells[i] := by
  rcases supply with ⟨_ | cause, _ | latest⟩
  · rfl
  · exact Tape.cells_write_of_ne hi h _
  · rfl
  · exact Tape.cells_write_of_ne hi h _

theorem cells_moveBy (m : Machine n σ) (bounds : BoundsPolicy) (offset : Int) :
    (m.moveBy bounds offset).2.tape.cells = m.tape.cells := by
  cases inside : m.tape.moveTo? (m.tape.target offset) with
  | none =>
    rw [moveBy_of_off inside]
    rfl
  | some tape =>
    rw [moveBy_of_moveTo? inside]
    exact Tape.cells_of_moveTo? inside

/-! ## Machines that stay on the tape -/

section

variable {job : Job σ} {m m' : Machine n σ} {k fuel : Nat} {r : Except RuntimeError Halt}

/-- A machine that has left the tape does not come back to it. -/
theorem onTape_of_after (on : OnTape (after job k m)) : OnTape m := by
  intro i target hstatus
  have hrest : AtRest job m _ := .halted hstatus
  rw [hrest.after_eq] at on
  exact on i target hstatus

theorem onTape_after_of_le {j : Nat} (on : OnTape (after job k m)) (h : j ≤ k) :
    OnTape (after job j m) := by
  obtain ⟨d, rfl⟩ := Nat.exists_eq_add_of_le h
  rw [after_add] at on
  exact onTape_of_after on

/-- A run that does not leave the tape completes, or is ended by a stream or by the limit. -/
theorem execute_onTape_cases (running : m.status = .running)
    (hrun : m.execute job fuel = some (r, m')) (on : OnTape m') :
    r = .ok .completed ∨ (∃ i cause, r = .error (.stream i cause)) ∨
      ∃ limit, r = .error (.stepLimitExceeded limit) := by
  obtain ⟨k, -, m₁, hsteps, hlast⟩ := execute_eq_some_iff.mp hrun
  have running₁ : m₁.status = .running :=
    hsteps.preserves (fun m m' hstep _ => status_of_goesOn hstep) running
  have ht := transition_step job m₁
  rcases execute_cases hlast with ⟨-, hrest⟩ | ⟨halt, hhalt, hfinish⟩ | ⟨e, herror, rfl⟩
  · contradiction
  · obtain ⟨rfl, hreport⟩ := finish_spec hfinish
    rw [hhalt] at ht
    have hstatus := ht.status_of_halt
    generalize (m₁.step job).2 = m₂ at ht hreport hstatus on
    cases hreport with
    | unflushed => exact .inr (.inl ⟨_, _, rfl⟩)
    | halt =>
      cases ht with
      | halted rest => simp [rest] at running₁
      | completes => exact .inl rfl
      | leaves => exact absurd rfl (on _ _)
  · rw [herror] at ht
    generalize (m₁.step job).2 = m₂ at ht on
    cases ht with
    | aborted rest =>
      have hstatus := running₁.symm.trans rest
      contradiction
    | exceeds => exact .inr (.inr ⟨_, rfl⟩)
    | leaves => exact absurd rfl (on _ _)
    | fails => exact .inr (.inl ⟨_, _, rfl⟩)

end

theorem finish_widen (h : n ≤ n') (m : Machine n σ) (halt : Halt) :
    (m.widen h).finish halt = ((m.finish halt).1, (m.finish halt).2.widen h) := by
  rcases hflush : m.streams.flush with ⟨_ | fault, streams⟩
  · rw [finish_of_flush hflush]
    exact finish_of_flush (m := m.widen h) hflush halt
  · rw [finish_of_failed_flush hflush]
    exact finish_of_failed_flush (m := m.widen h) hflush halt

section

variable {job : Job Unit} {m : Machine n Unit} {k fuel : Nat} (quiet : job.host = .silent)

include quiet

/-! ## Steps and runs on a longer tape -/

theorem perform_widen (h : n ≤ n') {x : Instruction} (on : OnTape (m.perform job x).2) :
    (m.widen h).perform job x = ((m.perform job x).1, (m.perform job x).2.widen h) := by
  have hcurrent : (m.widen h).tape.current = m.tape.current := Tape.current_widen h m.tape
  cases x with
  | run op count =>
    cases op with
    | increment =>
      simp only [perform, operate, hcurrent, write_widen]
      rfl
    | decrement =>
      simp only [perform, operate, hcurrent, write_widen]
      rfl
    | moveRight => exact moveBy_widen h on
    | moveLeft => exact moveBy_widen h on
    | output => exact output_widen h m count
    | input => exact input_widen h m count
  | loopOpen close =>
    by_cases hzero : m.tape.current = 0
    all_goals
      simp only [perform, hcurrent, hzero, if_true, if_false]
      rfl
  | loopClose opening =>
    by_cases hzero : m.tape.current = 0
    all_goals
      simp only [perform, hcurrent, hzero, if_true, if_false]
      rfl
  | call name argument =>
    simp only [perform, quiet, Host.call_silent]
    rfl

/-- A step that does not leave the tape is the same on a longer one. -/
theorem step_widen (h : n ≤ n') (on : OnTape (m.step job).2) :
    (m.widen h).step job = ((m.step job).1, (m.step job).2.widen h) := by
  cases hstatus : m.status with
  | halted halt =>
    rw [step_of_halted hstatus]
    exact step_of_halted hstatus
  | aborted i =>
    rw [step_of_aborted hstatus]
    exact step_of_aborted hstatus
  | running =>
    cases here : job.program.instructions[m.next]? with
    | none =>
      rw [step_of_end hstatus here]
      exact step_of_end hstatus here
    | some x =>
      cases allowed : m.limitReached? job with
      | some limit =>
        rw [step_of_limit hstatus here allowed]
        exact step_of_limit (m := m.widen h) hstatus here allowed
      | none =>
        have hstep : m.step job = _ := step_of_instruction hstatus here allowed
        have hother : (m.widen h).step job = _ :=
          step_of_instruction (m := m.widen h) hstatus here allowed
        rw [hstep] at on ⊢
        rw [hother]
        exact perform_widen quiet h on

theorem after_widen (h : n ≤ n') (on : OnTape (after job k m)) :
    after job k (m.widen h) = (after job k m).widen h := by
  induction k generalizing m with
  | zero => rfl
  | succ k ih =>
    have hstep := step_widen quiet h (onTape_of_after (k := k) on)
    rw [after, after, hstep, ih on]

theorem execute_widen (h : n ≤ n') (on : OnTape (after job fuel m)) :
    (m.widen h).execute job fuel = (m.execute job fuel).map fun x => (x.1, x.2.widen h) := by
  induction fuel generalizing m with
  | zero => rfl
  | succ fuel ih =>
    have hstep := step_widen quiet h (onTape_of_after (k := fuel) on)
    rw [after] at on
    rw [execute, execute, hstep]
    generalize m.step job = x at on ⊢
    rcases x with ⟨e | _ | halt, m₁⟩
    · rfl
    · exact ih on
    · exact congrArg some (finish_widen h m₁ halt)

/-! ## Cells that steps leave alone -/

section

variable {i : Nat} (hi : i < n)

theorem cells_perform (h : i ≠ m.tape.head) (x : Instruction) :
    (m.perform job x).2.tape.cells[i] = m.tape.cells[i] := by
  cases x with
  | run op count =>
    cases op with
    | increment => exact Tape.cells_write_of_ne hi h _
    | decrement => exact Tape.cells_write_of_ne hi h _
    | moveRight => simp only [perform, operate, cells_moveBy]
    | moveLeft => simp only [perform, operate, cells_moveBy]
    | output => simpa only [perform, operate, output_eq_settle] using cells_settle hi h _ _
    | input => simpa only [perform, operate, input_eq_settle] using cells_settle hi h _ _
  | loopOpen close => by_cases hzero : m.tape.current = 0 <;> simp [perform, advance, hzero]
  | loopClose opening => by_cases hzero : m.tape.current = 0 <;> simp [perform, advance, hzero]
  | call name argument => simp only [perform, quiet, Host.call_silent]

/-- A step changes no cell but the one under the head. -/
theorem cells_step (h : i ≠ m.tape.head) :
    (m.step job).2.tape.cells[i] = m.tape.cells[i] := by
  have ht := transition_step job m
  generalize (m.step job).1 = answer, hafter : (m.step job).2 = m' at ht ⊢
  -- A transition says nothing of the cells where an instruction was carried out.
  cases ht with
  | halted => rfl
  | aborted => rfl
  | completes => rfl
  | exceeds => rfl
  | leaves => rfl
  | goesOn running here allowed =>
    rw [← hafter, step_of_instruction running here allowed]
    exact cells_perform (m := { m with steps := m.steps + 1 }) quiet hi h _
  | fails running here allowed =>
    rw [← hafter, step_of_instruction running here allowed]
    exact cells_perform (m := { m with steps := m.steps + 1 }) quiet hi h _

/-- A cell that the head has not been on is as it was. -/
theorem cells_after (h : ∀ j < k, i ≠ (after job j m).tape.head) :
    (after job k m).tape.cells[i] = m.tape.cells[i] := by
  induction k generalizing m with
  | zero => rfl
  | succ k ih =>
    have hfirst := cells_step quiet hi (h 0 (Nat.zero_lt_succ k))
    rw [after, ih fun j hj => h (j + 1) (Nat.succ_lt_succ hj)]
    exact hfirst

end

end

/-- A longer tape changes nothing for a run that fits, if there is no host.

A run that does not leave the tape completes, or is ended by a stream or by the limit, and the run
on a longer tape returns the same and leaves the same machine, with zeros behind its cells. The same
is so after every number of steps, with the same answers on the way, as long as the tape was not
left. And a cell to the right of all those that the head has been on is zero. -/
theorem run_on_longer_tape (program : Program) (settings : MachineSettings) (streams : Streams)
    {larger : Nat} (hlarger : settings.memorySize ≤ larger) :
    let longer : MachineSettings := { settings with memorySize := larger }
    let job : Job Unit := .ofSettings settings program .silent
    let job' : Job Unit := .ofSettings longer program .silent
    let m₀ := start settings streams ()
    let m₀' := start longer streams ()
    have hcells : settings.cells ≤ longer.cells := settings.cells_le_of_memorySize_le hlarger
    (∀ fuel r m, m₀.execute job fuel = some (r, m) → OnTape m →
      (r = .ok .completed ∨ (∃ i cause, r = .error (.stream i cause)) ∨
        ∃ limit, r = .error (.stepLimitExceeded limit)) ∧
      m₀'.execute job' fuel = some (r, m.widen hcells)) ∧
    (∀ k, OnTape (after job k m₀) →
      after job' k m₀' = (after job k m₀).widen hcells ∧
      ∀ j < k, ((after job' j m₀').step job').1 = ((after job j m₀).step job).1) ∧
    ∀ k (i : Fin settings.cells), (∀ j < k, (after job j m₀).tape.head < i) →
      (after job k m₀).tape.cells[i] = 0 := by
  intro longer job job' m₀ m₀' hcells
  have hstart : m₀' = m₀.widen hcells := by
    simp only [m₀, m₀', start, widen, Tape.blank_widen]
  have hafter : ∀ k, OnTape (after job k m₀) →
      after job' k m₀' = (after job k m₀).widen hcells := by
    intro k on
    rw [hstart]
    exact after_widen rfl hcells on
  refine ⟨?_, ?_, ?_⟩
  · intro fuel r m hrun on
    have onAfter : OnTape (after job fuel m₀) := by
      intro i target
      rw [← (onlyFlushed_execute hrun).status]
      exact on i target
    refine ⟨execute_onTape_cases rfl hrun on, ?_⟩
    have hsame := execute_widen rfl hcells onAfter
    rw [hrun, ← hstart] at hsame
    exact hsame
  · intro k on
    refine ⟨hafter k on, ?_⟩
    intro j hj
    have onNext : OnTape (after job (j + 1) m₀) := onTape_after_of_le on hj
    rw [hafter j (onTape_after_of_le onNext (Nat.le_succ j))]
    rw [after_add] at onNext
    exact congrArg Prod.fst (step_widen rfl hcells onNext)
  · intro k i hvisited
    have hcell := cells_after (m := m₀) rfl i.isLt fun j hj => Nat.ne_of_gt (hvisited j hj)
    exact hcell.trans (Vector.getElem_replicate i.isLt)

/-- Two of the cells are used, of two or of four. -/
theorem run_on_longer_tape_four_cells :
    ∃ c, compile {} "+>+" = .ok c ∧
      let job : Job Unit := .ofSettings { memorySize := 2 } c.program .silent
      let job' : Job Unit := .ofSettings { memorySize := 4 } c.program .silent
      let m₀ : Machine 2 Unit := start { memorySize := 2 } {} ()
      let m₀' : Machine 4 Unit := start { memorySize := 4 } {} ()
      (∃ m, m₀.execute job 4 = some (.ok .completed, m) ∧ m.tape = ⟨#v[1, 1], 1⟩ ∧
        ∃ m', m₀'.execute job' 4 = some (.ok .completed, m') ∧ m'.tape = ⟨#v[1, 1, 0, 0], 1⟩) ∧
      (after job' 2 m₀').tape = ⟨#v[1, 0, 0, 0], 1⟩ ∧
      (after job 2 m₀).tape.cells[1] = 0 := by
  have hcompile : compile {} "+>+" =
      .ok ⟨⟨#[.run .increment 1, .run .moveRight 1, .run .increment 1]⟩, []⟩ := by
    with_unfolding_all rfl
  refine ⟨_, hcompile, ?_⟩
  intro job job' m₀ m₀'
  let m : Machine 2 Unit :=
    { next := 3, tape := ⟨#v[1, 1], 1⟩, steps := 3, status := .halted .completed
      streams := { history := [.flushed] }, state := () }
  have hrun : m₀.execute job 4 = some (.ok .completed, m) := rfl
  have on : OnTape m := fun i target => by simp [m]
  obtain ⟨hruns, hsteps, hcells⟩ :=
    run_on_longer_tape ⟨#[.run .increment 1, .run .moveRight 1, .run .increment 1]⟩
      { memorySize := 2 } {} (show 2 ≤ 4 by decide)
  refine ⟨⟨m, hrun, rfl, m.widen (by decide), (hruns 4 _ m hrun on).2, rfl⟩, ?_, ?_⟩
  · exact congrArg tape (hsteps 2 (onTape_of_running rfl)).1
  · exact hcells 2 ⟨1, by decide⟩ (by decide)

end Machine

end TapeMachine
