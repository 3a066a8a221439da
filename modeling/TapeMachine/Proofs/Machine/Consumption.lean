import TapeMachine.Proofs.Machine.CarriedOut
import TapeMachine.Proofs.Machine.Delivery
import TapeMachine.Proofs.Machine.StreamFaults

/-!
# How much of the input a run takes

The instructions that a run carries out (`carriedOut`) say how many bytes it takes from its input:
the counts of the input instructions among them. A run that is not stopped by a stream takes these
bytes and does not depend on what comes behind them (`takes_execute`), and a run that is stopped for
want of input has done nothing up to then that it would not have done with more of it
(`steps_before_read_failure`).
-/

namespace TapeMachine

/-- How many bytes of the input an instruction reads. -/
def Instruction.bytesRead : Instruction → Nat
  | run .input count => count
  | _ => 0

/-- How many bytes of the input the instructions read together. -/
def bytesRead : List Instruction → Nat
  | [] => 0
  | i :: rest => i.bytesRead + bytesRead rest

/-- What is left of a delivery when `count` bytes of it have been taken. -/
def Delivery.drop (count : Nat) (d : Delivery) : Delivery :=
  { d with bytes := d.bytes.drop count }

theorem bytesRead_append (front back : List Instruction) :
    bytesRead (front ++ back) = bytesRead front + bytesRead back := by
  induction front with
  | nil => exact (Nat.zero_add _).symm
  | cons i front ih => rw [List.cons_append, bytesRead, bytesRead, ih, Nat.add_assoc]

theorem Delivery.prepend_append (front back : List UInt8) (d : Delivery) :
    d.prepend (front ++ back) = (d.prepend back).prepend front := by
  simp [prepend]

theorem Delivery.drop_prepend (bytes : List UInt8) (d : Delivery) :
    (d.prepend bytes).drop bytes.length = d := by
  simp [drop, prepend]

/-- A delivery that starts with the same bytes is the rest of it behind them. -/
theorem Delivery.eq_prepend_drop {bytes : List UInt8} {d : Delivery}
    (h : d.bytes.take bytes.length = bytes) : d = (d.drop bytes.length).prepend bytes := by
  have hsplit := List.take_append_drop bytes.length d.bytes
  rw [h] at hsplit
  rw [drop, prepend, hsplit]

/-- Bytes are taken one piece after the other. -/
theorem Streams.Takes.trans {front back : List UInt8} {s s₁ s₂ : Streams}
    {act act' act'' : Streams → Streams → Prop} (h : Takes front act s s₁)
    (h' : Takes back act' s₁ s₂) (hact : ∀ t t₁ t₂, act t t₁ → act' t₁ t₂ → act'' t t₂) :
    Takes (front ++ back) act'' s s₂ := by
  constructor
  · rw [h.delivery_eq, h'.delivery_eq, Delivery.prepend_append]
  · intro t rest hsink ht
    rw [Delivery.prepend_append] at ht
    obtain ⟨t₁, hfirst, hsink₁, ht₁⟩ := h.act t _ hsink ht
    obtain ⟨t₂, hsecond, hsink₂, ht₂⟩ := h'.act t₁ rest hsink₁ ht₁
    exact ⟨t₂, hact t t₁ t₂ hfirst hsecond, hsink₂, ht₂⟩

namespace Machine

open Streams (SameSink Takes)

variable {n : Nat} {σ : Type} {job : Job σ} {k fuel : Nat} {m m' : Machine n σ}
  {r : Except RuntimeError Halt}

theorem bytes_demand (job : Job σ) (m : Machine n σ) :
    (m.demand job).bytes = bytesRead (m.pending? job).toList := by
  unfold demand pending?
  rcases m.status with _ | halt | i
  · rcases m.limitReached? job with _ | limit
    · rcases job.program.instructions[m.next]? with _ | ⟨op, count⟩ | close | opening | ⟨name, c⟩
      · rfl
      · cases op <;> simp [bytesRead, Instruction.bytesRead, Demand.bytes]
      all_goals simp [bytesRead, Instruction.bytesRead, Demand.bytes]
    · simp [bytesRead, Demand.bytes]
  all_goals simp [bytesRead, Demand.bytes]

/-! ## Steps and runs -/

/-- A step takes the bytes that its instruction reads, unless the streams fail. -/
theorem takes_step (job : Job σ) (m : Machine n σ)
    (h : ∀ i cause, (m.step job).1 ≠ .error (.stream i cause)) :
    ∃ bytes, bytes.length = bytesRead (m.pending? job).toList ∧
      Takes bytes (fun t t' => (m.withStreams t).step job =
        ((m.step job).1, (m.step job).2.withStreams t')) m.streams (m.step job).2.streams := by
  obtain ⟨bytes, hlength, htakes⟩ := m.streams.takes_serve (m.demand job) (met_of_step h)
  rw [bytes_demand] at hlength
  refine ⟨bytes, hlength, ?_⟩
  rw [streams_step]
  constructor
  · exact htakes.delivery_eq
  · intro t rest hsink ht
    obtain ⟨t', hserve, hsink', hrest⟩ := htakes.act t rest hsink ht
    refine ⟨t', ?_, hsink', hrest⟩
    rw [step_withStreams (by rw [hserve]), hserve]

theorem Steps.takes (h : Steps job k m m') :
    ∃ bytes, bytes.length = bytesRead (carriedOut job k m) ∧
      Takes bytes (fun t t' => Steps job k (m.withStreams t) (m'.withStreams t'))
        m.streams m'.streams := by
  induction h with
  | nil =>
    refine ⟨[], rfl, rfl, ?_⟩
    intro t rest hsink ht
    exact ⟨t, .nil, hsink, ht⟩
  | @cons k m m₁ m₂ step _ ih =>
    obtain ⟨front, hfront, hfirst⟩ := takes_step job m (by simp [step])
    obtain ⟨back, hback, hrest⟩ := ih
    rw [step] at hfirst
    refine ⟨front ++ back, ?_, hfirst.trans hrest ?_⟩
    · rw [List.length_append, hfront, hback, carriedOut, bytesRead_append, step]
    · intro t t₁ t₂ hstep hsteps
      exact .cons hstep hsteps

/-- The last flush of a run takes nothing from the input. -/
theorem takes_finish {halt : Halt} (h : m.finish halt = (r, m')) :
    Takes [] (fun t t' => (m.withStreams t).finish halt = (r, m'.withStreams t'))
      m.streams m'.streams := by
  have hmachine := finish_machine m halt
  rw [h] at hmachine
  subst hmachine
  constructor
  · exact congrArg delivery (Streams.reads_flush _).symm
  · intro t rest hsink ht
    refine ⟨t.flush.2, ?_, hsink.flush.2, ?_⟩
    · rw [finish_of_sameSink hsink, h]
      rfl
    · rw [Streams.reads_flush]
      exact ht

/-- A run that no stream has stopped takes the bytes that its instructions read, and would be the
same with anything behind them. -/
theorem takes_execute (h : m.execute job fuel = some (r, m'))
    (hr : ∀ i cause, r ≠ .error (.stream i cause)) :
    ∃ bytes, bytes.length = bytesRead (carriedOut job fuel m) ∧
      Takes bytes (fun t t' => (m.withStreams t).execute job fuel = some (r, m'.withStreams t'))
        m.streams m'.streams := by
  induction fuel generalizing m with
  | zero => contradiction
  | succ fuel ih =>
    have ht := transition_step job m
    rcases execute_cases h with ⟨hok, hrest⟩ | ⟨halt, hhalt, hfinish⟩ | ⟨e, herror, rfl⟩
    · obtain ⟨front, hfront, hfirst⟩ := takes_step job m (by simp [hok])
      obtain ⟨back, hback, htakes⟩ := ih hrest
      refine ⟨front ++ back, ?_, hfirst.trans htakes ?_⟩
      · rw [List.length_append, hfront, hback, carriedOut, bytesRead_append]
      · intro t t₁ t₂ hstep hexecute
        rw [hok] at hstep
        rw [execute_of_goesOn hstep, hexecute]
    · obtain ⟨front, hfront, hfirst⟩ := takes_step job m (by simp [hhalt])
      rw [hhalt] at ht
      refine ⟨front ++ [], ?_, hfirst.trans (takes_finish hfinish) ?_⟩
      · rw [carriedOut, (ht.atRest (by simp)).carriedOut_eq_nil, List.append_nil, List.append_nil,
          hfront]
      · intro t t₁ t₂ hstep hfinished
        rw [hhalt] at hstep
        rw [execute, hstep]
        exact congrArg some hfinished
    · have hnot : ∀ i cause, (m.step job).1 ≠ .error (.stream i cause) := by
        intro i cause hstream
        rw [herror] at hstream
        exact hr i cause (by rw [Except.error.inj hstream])
      obtain ⟨bytes, hbytes, htakes⟩ := takes_step job m hnot
      rw [herror] at ht htakes
      refine ⟨bytes, ?_, htakes.delivery_eq, ?_⟩
      · rw [carriedOut, herror, (ht.atRest (by simp)).carriedOut_eq_nil, List.append_nil, hbytes]
      · intro t rest hsink hrest
        obtain ⟨t', hstep, hsink', hrest'⟩ := htakes.act t rest hsink hrest
        exact ⟨t', by rw [execute, hstep], hsink', hrest'⟩

/-! ## Reads that fail -/

theorem output_serve_read (s : Streams) (count : Nat) :
    (s.serve (.read count)).2.output = s.output := by
  have hflushed := Streams.output_flush s
  cases hflush : s.flush.1 with
  | some fault => rwa [Streams.serve_read_of_failed_flush (Prod.ext hflush rfl)]
  | none =>
    rw [Streams.serve_read_of_flush (Prod.ext hflush rfl), Streams.output_readTimes, hflushed]

theorem state_settle (m : Machine n σ) (supply : Supply) (streams : Streams) :
    (m.settle supply streams).2.state = m.state := by
  rcases supply with ⟨_ | cause, _ | latest⟩ <;> rfl

/-- A read that fails writes nothing and calls nobody. -/
theorem step_of_read_failure {i : Nat} {cause : StreamError}
    (h : m.step job = (.error (.stream i cause), m')) (hread : ∀ message, cause ≠ .write message) :
    m'.streams.output = m.streams.output ∧ m'.state = m.state := by
  have hfailure := failure_of_stream_error h
  have hstep : (m.step job).2 = m' := by rw [h]
  cases hdemand : m.demand job with
  | nothing =>
    rw [hdemand] at hfailure
    contradiction
  | write b count =>
    rw [hdemand, Streams.serve_write] at hfailure
    obtain ⟨fault, -, hcause⟩ := Option.map_eq_some_iff.mp hfailure
    exact absurd hcause.symm (hread fault.message)
  | read count =>
    have hne : m.demand job ≠ .nothing := by simp [hdemand]
    constructor
    · rw [← hstep, streams_step, hdemand, output_serve_read]
    · rw [← hstep, step_of_demand hne, state_settle]

/-- A run that ends because it cannot read has gone on, up to the instruction that reads, as it
would with more input. -/
theorem steps_before_read_failure {i : Nat} {cause : StreamError}
    (h : m.execute job fuel = some (.error (.stream i cause), m'))
    (hread : ∀ message, cause ≠ .write message) :
    ∃ j m₁, Steps job j m m₁ ∧ m₁.step job = (.error (.stream i cause), m') ∧
      m'.streams.output = m₁.streams.output ∧ m'.state = m₁.state ∧
      ∀ t, SameSink m.streams t → (delivery m.streams.reads).bytes <+: (delivery t.reads).bytes →
        ∃ t', Steps job j (m.withStreams t) (m₁.withStreams t') ∧
          t'.history = m₁.streams.history := by
  obtain ⟨j, -, m₁, hsteps, hlast⟩ := execute_eq_some_iff.mp h
  have hstep : m₁.step job = (.error (.stream i cause), m') := by
    rcases execute_cases hlast with ⟨-, hrest⟩ | ⟨halt, -, hfinish⟩ | ⟨e, herror, he⟩
    · contradiction
    · have hresult := finish_result (m₁.step job).2 halt
      rw [hfinish] at hresult
      rcases hresult with hok | ⟨message, hwrite⟩
      · contradiction
      · simp only [Except.error.injEq, RuntimeError.stream.injEq] at hwrite
        exact absurd hwrite.2 (hread message)
    · rw [herror, Except.error.inj he]
  obtain ⟨houtput, hstate⟩ := step_of_read_failure hstep hread
  refine ⟨j, m₁, hsteps, hstep, houtput, hstate, ?_⟩
  intro t hsink hprefix
  obtain ⟨bytes, -, htakes⟩ := hsteps.takes
  obtain ⟨more, hmore⟩ := hprefix
  rw [htakes.delivery_eq] at hmore
  let rest : Delivery :=
    ⟨(delivery m₁.streams.reads).bytes ++ more, (delivery t.reads).fault⟩
  have ht : delivery t.reads = rest.prepend bytes := by
    rw [Delivery.prepend, ← List.append_assoc]
    exact congrArg (Delivery.mk · _) hmore.symm
  obtain ⟨t', hother, hafter, -⟩ := htakes.act t rest hsink ht
  exact ⟨t', hother, hafter.history⟩

/-! ## Runs from the start -/

/-- A run does not read ahead, and what it has not read has no influence on it.

If no stream has stopped it, it has taken the bytes that its input instructions ask for and has left
the rest. On every other input that starts with these bytes the run returns the same and leaves the
same machine, having written, flushed and read the same, and its input behind them.

If it could not read, it has come to an instruction that failed. Up to there the run is the same on
every input that delivers what this one does and then perhaps more: it comes to the same instruction
with all that was written and with the host as it is at the end of the run that failed. -/
theorem run_on_common_input (program : Program) (settings : MachineSettings) (host : Host σ)
    (state : σ) (reads : List ReadEvent) (writes : List WriteEvent) (flushes : List FlushEvent) :
    let job : Job σ := .ofSettings settings program host
    let onInput (reads : List ReadEvent) := start settings { reads, writes, flushes } state
    ∀ fuel r m, (onInput reads).execute job fuel = some (r, m) →
      ((∀ i cause, r ≠ .error (.stream i cause)) →
        ∃ k ≤ (delivery reads).bytes.length,
          k = bytesRead (carriedOut job fuel (onInput reads)) ∧
          delivery m.streams.reads = (delivery reads).drop k ∧
          ∀ reads', (delivery reads').bytes.take k = (delivery reads).bytes.take k →
            ∃ t, (onInput reads').execute job fuel = some (r, m.withStreams t) ∧
              t.history = m.streams.history ∧ delivery t.reads = (delivery reads').drop k) ∧
      ∀ i cause, r = .error (.stream i cause) → (∀ message, cause ≠ .write message) →
        ∃ j m₁, Steps job j (onInput reads) m₁ ∧
          m₁.step job = (.error (.stream i cause), m) ∧
          m.streams.output = m₁.streams.output ∧ m.state = m₁.state ∧
          ∀ reads', (delivery reads).bytes <+: (delivery reads').bytes →
            ∃ t, Steps job j (onInput reads') (m₁.withStreams t) ∧
              t.history = m₁.streams.history := by
  intro job onInput fuel r m h
  constructor
  · intro hr
    obtain ⟨bytes, hlength, htakes⟩ := takes_execute h hr
    have hall : delivery reads = (delivery m.streams.reads).prepend bytes := htakes.delivery_eq
    refine ⟨bytes.length, ?_, hlength, ?_, ?_⟩
    · rw [hall]
      simp [Delivery.prepend]
    · rw [hall, Delivery.drop_prepend]
    · intro reads' hfront
      rw [hall, Delivery.prepend, List.take_left] at hfront
      obtain ⟨t, hother, hafter, hrest⟩ := htakes.act { reads := reads', writes, flushes } _
        ⟨rfl, rfl, rfl⟩ (Delivery.eq_prepend_drop hfront)
      exact ⟨t, hother, hafter.history, hrest⟩
  · rintro i cause rfl hread
    obtain ⟨j, m₁, hsteps, hstep, houtput, hstate, hmore⟩ := steps_before_read_failure h hread
    refine ⟨j, m₁, hsteps, hstep, houtput, hstate, ?_⟩
    intro reads' hprefix
    exact hmore { reads := reads', writes, flushes } ⟨rfl, rfl, rfl⟩ hprefix

/-- One of two bytes is read, so the second does not matter; and the byte that is missing for a
second read does not change what was written before. -/
theorem run_on_common_input_one_byte :
    ∃ c d, compile {} ",." = .ok c ∧ compile {} ",.," = .ok d ∧
      (∃ m t : Machine 1 Unit,
        (start { memorySize := 1 } { reads := [.data [97, 98]] } ()).execute
          (.ofSettings { memorySize := 1 } c.program .silent) 3 = some (.ok .completed, m) ∧
        delivery m.streams.reads = ⟨[98], .endOfInput⟩ ∧
        (start { memorySize := 1 } { reads := [.data [97, 99, 100]] } ()).execute
          (.ofSettings { memorySize := 1 } c.program .silent) 3 = some (.ok .completed, t) ∧
        t.streams.output = [97] ∧ delivery t.streams.reads = ⟨[99, 100], .endOfInput⟩) ∧
      ∃ j, ∃ m t : Machine 1 Unit,
        (start { memorySize := 1 } { reads := [.data [97]] } ()).execute
          (.ofSettings { memorySize := 1 } d.program .silent) 3 =
            some (.error (.stream 2 .unexpectedEof), m) ∧
        Steps (.ofSettings { memorySize := 1 } d.program .silent) j
          (start { memorySize := 1 } { reads := [.data [97, 98]] } ()) t ∧
        t.streams.output = m.streams.output ∧ m.streams.output = [97] := by
  have hcompile : compile {} ",." = .ok ⟨⟨#[.run .input 1, .run .output 1]⟩, []⟩ := by
    with_unfolding_all rfl
  have hcompile' : compile {} ",.," =
      .ok ⟨⟨#[.run .input 1, .run .output 1, .run .input 1]⟩, []⟩ := by
    with_unfolding_all rfl
  have hrun : (start { memorySize := 1 } { reads := [.data [97, 98]] } ()).execute
      (.ofSettings { memorySize := 1 } ⟨#[.run .input 1, .run .output 1]⟩ .silent) 3 =
        some (.ok .completed, _) := rfl
  have hfailed : (start { memorySize := 1 } { reads := [.data [97]] } ()).execute
      (.ofSettings { memorySize := 1 } ⟨#[.run .input 1, .run .output 1, .run .input 1]⟩ .silent)
        3 = some (.error (.stream 2 .unexpectedEof), _) := rfl
  refine ⟨_, _, hcompile, hcompile', ?_, ?_⟩
  · obtain ⟨k, -, hk, hrest, hsame⟩ := (run_on_common_input _ _ _ _ _ _ _ _ _ _ hrun).1 (by simp)
    obtain rfl : k = 1 := hk
    obtain ⟨t, hother, hhistory, hbehind⟩ := hsame [.data [97, 99, 100]] rfl
    refine ⟨_, _, hrun, hrest, hother, ?_, hbehind⟩
    exact congrArg (fun history => Streams.output { history }) hhistory
  · obtain ⟨j, m₁, -, -, houtput, -, hmore⟩ :=
      (run_on_common_input _ _ _ _ _ _ _ _ _ _ hfailed).2 2 _ rfl (by simp)
    obtain ⟨t, hother, hhistory⟩ := hmore [.data [97, 98]] ⟨[98], rfl⟩
    refine ⟨j, _, _, hfailed, hother, ?_, rfl⟩
    rw [houtput]
    exact congrArg (fun history => Streams.output { history }) hhistory

end Machine

end TapeMachine
