import TapeMachine.Program.Compile
import TapeMachine.Proofs.Machine.Demand
import TapeMachine.Proofs.Machine.Rest

/-!
# Output that can be seen

Input is asked for only when all that was written has been flushed, so that whoever is asked has
seen the output. The streams keep this whatever is demanded of them
(`Streams.shownBeforeAsked_serve`), so every step does, and all calls. A run that returns a halt
leaves nothing unseen either (`shown_of_calls`). Histories have the latest operation first.
-/

namespace TapeMachine

/-- Every byte that was written has been flushed since. -/
def AllShown (history : List StreamOp) : Prop :=
  ∀ later b earlier, history = later ++ .wrote b :: earlier → .flushed ∈ later

/-- Whenever a byte was asked for, every byte that had been written was flushed. -/
def ShownBeforeAsked (history : List StreamOp) : Prop :=
  ∀ later earlier, history = later ++ .asked :: earlier → AllShown earlier

section

variable {history : List StreamOp}

theorem allShown_flushed (history : List StreamOp) : AllShown (.flushed :: history) := by
  intro later b earlier heq
  cases later with
  | nil => simp at heq
  | cons op later =>
    obtain ⟨rfl, -⟩ := List.cons.inj heq
    exact List.mem_cons_self

theorem AllShown.asked (h : AllShown history) : AllShown (.asked :: history) := by
  intro later b earlier heq
  cases later with
  | nil => simp at heq
  | cons op later =>
    obtain ⟨-, rfl⟩ := List.cons.inj heq
    exact List.mem_cons_of_mem op (h later b earlier rfl)

theorem shownBeforeAsked_nil : ShownBeforeAsked [] := by
  intro later earlier heq
  simp at heq

/-- Only an operation that asks for a byte has to come after a flush. -/
theorem ShownBeforeAsked.cons {op : StreamOp} (h : ShownBeforeAsked history)
    (hasked : op = .asked → AllShown history) : ShownBeforeAsked (op :: history) := by
  intro later earlier heq
  cases later with
  | nil =>
    obtain ⟨rfl, rfl⟩ := List.cons.inj heq
    exact hasked rfl
  | cons op' later =>
    obtain ⟨-, rfl⟩ := List.cons.inj heq
    exact h later earlier rfl

theorem ShownBeforeAsked.flushed (h : ShownBeforeAsked history) (count : Nat) :
    ShownBeforeAsked (List.replicate count .flushed ++ history) := by
  induction count with
  | zero => exact h
  | succ count ih => exact ih.cons nofun

end

/-! ## Streams -/

namespace Streams

variable {s s₁ : Streams}

theorem history_of_flush (h : s.flush = (none, s₁)) : s₁.history = .flushed :: s.history := by
  unfold flush at h
  split at h <;> simp only [Prod.mk.injEq, reduceCtorEq, false_and] at h
  · rw [← h.2]
  · rw [← h.2]

theorem history_of_failed_flush {fault : Fault} (h : s.flush = (some fault, s₁)) :
    s₁.history = s.history := by
  unfold flush at h
  split at h <;> simp only [Prod.mk.injEq, reduceCtorEq, false_and] at h
  rw [← h.2]

theorem shownBeforeAsked_write (h : ShownBeforeAsked s.history) (b : UInt8) :
    ShownBeforeAsked (s.write b).2.history := by
  unfold write
  rcases deliverByte s.writes with ⟨_ | fault, writes⟩
  · exact h.cons nofun
  · exact h

theorem shownBeforeAsked_writeTimes (h : ShownBeforeAsked s.history) (b : UInt8) (count : Nat) :
    ShownBeforeAsked (s.writeTimes b count).2.history := by
  induction count generalizing s with
  | zero => exact h
  | succ count ih =>
    have hone := shownBeforeAsked_write h b
    unfold writeTimes
    rcases hwrite : s.write b with ⟨_ | fault, s₁⟩
    · rw [hwrite] at hone
      exact ih hone
    · rw [hwrite] at hone
      exact hone

/-- Bytes can be asked for as long as nothing is written in between. -/
theorem shownBeforeAsked_readTimes (h : ShownBeforeAsked s.history) (shown : AllShown s.history)
    (latest : Option UInt8) (count : Nat) :
    ShownBeforeAsked (s.readTimes latest count).2.2.history := by
  induction count generalizing s latest with
  | zero => exact h
  | succ count ih =>
    have hhistory : s.read.2.history = .asked :: s.history := rfl
    have hone : ShownBeforeAsked s.read.2.history := by
      rw [hhistory]
      exact h.cons fun _ => shown
    have hshown : AllShown s.read.2.history := by
      rw [hhistory]
      exact shown.asked
    unfold readTimes
    rcases hread : s.read with ⟨fault | b, s₁⟩
    · rw [hread] at hone
      exact hone
    · rw [hread] at hone hshown
      exact ih hone hshown (some b)

/-- Whatever is demanded, nothing is asked for before the output was flushed. -/
theorem shownBeforeAsked_serve (h : ShownBeforeAsked s.history) (demand : Demand) :
    ShownBeforeAsked (s.serve demand).2.history := by
  cases demand with
  | nothing => exact h
  | write b count => exact shownBeforeAsked_writeTimes h b count
  | read count =>
    rcases hflush : s.flush with ⟨_ | fault, s₁⟩
    · have hhistory := history_of_flush hflush
      rw [serve_read_of_flush hflush]
      apply shownBeforeAsked_readTimes
      · rw [hhistory]
        exact h.cons nofun
      · rw [hhistory]
        exact allShown_flushed s.history
    · rw [serve_read_of_failed_flush hflush, history_of_failed_flush hflush]
      exact h

end Streams

/-! ## Machines -/

namespace Machine

variable {n : Nat} {σ : Type} {job : Job σ} {m m' : Machine n σ} {a : Answer} {as : List Answer}

theorem shownBeforeAsked_step (job : Job σ) (h : ShownBeforeAsked m.streams.history) :
    ShownBeforeAsked (m.step job).2.streams.history := by
  rw [streams_step]
  exact Streams.shownBeforeAsked_serve h (m.demand job)

theorem Call.shownBeforeAsked (hcall : Call job m a m') (h : ShownBeforeAsked m.streams.history) :
    ShownBeforeAsked m'.streams.history := by
  obtain ⟨k, m₁, hsteps, -, hflushed⟩ := hcall.exists_last
  have hbefore : ShownBeforeAsked m₁.streams.history := by
    refine hsteps.preserves (P := fun m => ShownBeforeAsked m.streams.history) ?_ h
    intro m m' hstep hm
    have hone := shownBeforeAsked_step job hm
    rwa [hstep] at hone
  obtain ⟨count, hhistory⟩ := hflushed.history
  rw [hhistory]
  exact (shownBeforeAsked_step job hbefore).flushed count

theorem Calls.shownBeforeAsked (hcalls : Calls job m as m')
    (h : ShownBeforeAsked m.streams.history) : ShownBeforeAsked m'.streams.history := by
  induction hcalls with
  | nil => exact h
  | cons call _ ih => exact ih (call.shownBeforeAsked h)

/-- A run that returns a halt has flushed the output with its last operation. -/
theorem flush_of_halt {fuel : Nat} {halt : Halt} (h : m.execute job fuel = some (.ok halt, m')) :
    ∃ k, (after job k m).streams.flush = (none, m'.streams) := by
  induction fuel generalizing m with
  | zero => contradiction
  | succ fuel ih =>
    rcases execute_cases h with ⟨-, hrest⟩ | ⟨reached, -, hfinish⟩ | ⟨e, -, herror⟩
    · obtain ⟨k, hflush⟩ := ih hrest
      exact ⟨k + 1, hflush⟩
    · refine ⟨1, ?_⟩
      change (m.step job).2.streams.flush = _
      rcases hflush : (m.step job).2.streams.flush with ⟨_ | fault, streams⟩
      · rw [finish_of_flush hflush] at hfinish
        obtain ⟨-, rfl⟩ := Prod.mk.inj hfinish
        rfl
      · simp [finish_of_failed_flush hflush] at hfinish
    · contradiction

/-- What a machine writes can be seen before it waits for input, and when it has halted.

In the history of every sequence of calls, whatever the streams and the host do, there is a flush
that has succeeded between a byte that was written and every later attempt to read. A run that
returns a halt has flushed the output with its last operation, so that every byte that was written,
by this call or one before it, has been flushed. -/
theorem shown_of_calls (settings : MachineSettings) (program : Program) (host : Host σ) (state : σ)
    (reads : List ReadEvent) (writes : List WriteEvent) (flushes : List FlushEvent)
    {m : Machine settings.cells σ}
    (h : Calls (.ofSettings settings program host)
      (start settings { reads, writes, flushes } state) as m) :
    ShownBeforeAsked m.streams.history ∧
    ∀ halt m', Call (.ofSettings settings program host) m (.execute (.ok halt)) m' →
      (∃ k, (after (.ofSettings settings program host) k m).streams.flush = (none, m'.streams)) ∧
        AllShown m'.streams.history := by
  refine ⟨h.shownBeforeAsked shownBeforeAsked_nil, ?_⟩
  intro halt m' hcall
  cases hcall with
  | execute hrun =>
    obtain ⟨k, hflush⟩ := flush_of_halt hrun
    refine ⟨⟨k, hflush⟩, ?_⟩
    rw [Streams.history_of_flush hflush]
    exact allShown_flushed _

/-- One step writes a byte and the next one reads; the run after them writes what was read. -/
theorem shown_of_calls_read_between_writes :
    ∃ c, compile {} ".,." = .ok c ∧ ∃ m m' : Machine 1 Unit,
      Calls (.ofSettings { memorySize := 1 } c.program .silent)
        (start { memorySize := 1 } { reads := [.data [97]] } ())
        [.step (.ok none), .step (.ok none)] m ∧
      m.streams.history = [.asked, .flushed, .wrote 0] ∧ ShownBeforeAsked m.streams.history ∧
      Call (.ofSettings { memorySize := 1 } c.program .silent) m (.execute (.ok .completed)) m' ∧
      m'.streams.history = [.flushed, .wrote 97, .asked, .flushed, .wrote 0] ∧
        AllShown m'.streams.history := by
  have hcompile : compile {} ".,." =
      .ok ⟨⟨#[.run .output 1, .run .input 1, .run .output 1]⟩, []⟩ := by
    with_unfolding_all rfl
  let job : Job Unit :=
    .ofSettings { memorySize := 1 } ⟨#[.run .output 1, .run .input 1, .run .output 1]⟩ .silent
  let m₀ : Machine 1 Unit := start { memorySize := 1 } { reads := [.data [97]] } ()
  have hcalls : Calls job m₀ [.step (.ok none), .step (.ok none)] (after job 2 m₀) :=
    .cons (.step m₀) (.cons (.step (after job 1 m₀)) .nil)
  have hrun : execute job 2 (after job 2 m₀) = some (.ok .completed, _) := rfl
  obtain ⟨hshown, hruns⟩ := shown_of_calls _ _ _ _ _ _ _ hcalls
  exact ⟨_, hcompile, _, _, hcalls, rfl, hshown, .execute hrun, rfl,
    (hruns _ _ (.execute hrun)).2⟩

end Machine

end TapeMachine
