import TapeMachine.Program.Compile
import TapeMachine.Proofs.Machine.Steps
import TapeMachine.Proofs.Machine.Demand

/-!
# What streams deliver

An input comes to the bytes that it delivers and the way in which it then fails (`Delivery`). Where
its data is cut and where it is interrupted is lost in this, and so are interruptions of the output
in `undisturbed`. A demand takes its bytes from the front of the delivery and sees no more of it
(`takes_serve`), so steps and runs on streams that deliver alike are alike
(`run_on_same_delivery`).
-/

namespace TapeMachine

/-- What an input delivers, and how the read fails that comes behind it. -/
structure Delivery where
  bytes : List UInt8
  fault : Fault
  deriving DecidableEq, Repr

/-- Nothing is read behind an end or a failure, unless it is an interruption. -/
def delivery : List ReadEvent → Delivery
  | [] => ⟨[], .endOfInput⟩
  | .data bytes :: rest => ⟨bytes ++ (delivery rest).bytes, (delivery rest).fault⟩
  | .eof :: _ => ⟨[], .endOfInput⟩
  | .fail fault :: rest => if fault.kind = .interrupted then delivery rest else ⟨[], fault⟩

/-- The delivery of `bytes` in front of another one. -/
def Delivery.prepend (bytes : List UInt8) (d : Delivery) : Delivery :=
  { d with bytes := bytes ++ d.bytes }

def WriteEvent.isInterruption : WriteEvent → Bool
  | fail fault => fault.kind = .interrupted
  | _ => false

/-- The events of an output without its interruptions. -/
def undisturbed (writes : List WriteEvent) : List WriteEvent :=
  writes.filter fun event => !event.isInterruption

/-! ## Single bytes -/

theorem takeByte_of_prepend {reads : List ReadEvent} {b : UInt8} {d : Delivery}
    (h : delivery reads = d.prepend [b]) :
    ∃ reads', takeByte reads = (.ok b, reads') ∧ delivery reads' = d := by
  induction reads with
  | nil => simp [delivery, Delivery.prepend] at h
  | cons event reads ih =>
    cases event with
    | data bytes =>
      cases bytes with
      | nil => exact ih h
      | cons c bytes =>
        simp only [delivery, Delivery.prepend, List.cons_append, List.nil_append,
          Delivery.mk.injEq, List.cons.injEq] at h
        obtain ⟨⟨rfl, hbytes⟩, hfault⟩ := h
        exact ⟨.data bytes :: reads, rfl, by rw [delivery, hbytes, hfault]⟩
    | eof => simp [delivery, Delivery.prepend] at h
    | fail fault =>
      by_cases hkind : fault.kind = .interrupted
      · rw [delivery, if_pos hkind] at h
        rw [takeByte, if_pos hkind]
        exact ih h
      · simp [delivery, hkind, Delivery.prepend] at h

theorem takeByte_of_empty {reads : List ReadEvent} {fault : Fault}
    (h : delivery reads = ⟨[], fault⟩) : ∃ reads', takeByte reads = (.error fault, reads') := by
  induction reads with
  | nil =>
    obtain rfl := congrArg Delivery.fault h
    exact ⟨[], rfl⟩
  | cons event reads ih =>
    cases event with
    | data bytes =>
      cases bytes with
      | nil => exact ih h
      | cons c bytes => simp [delivery] at h
    | eof =>
      obtain rfl := congrArg Delivery.fault h
      exact ⟨reads, rfl⟩
    | fail fault' =>
      by_cases hkind : fault'.kind = .interrupted
      · rw [delivery, if_pos hkind] at h
        rw [takeByte, if_pos hkind]
        exact ih h
      · rw [delivery, if_neg hkind] at h
        obtain rfl := congrArg Delivery.fault h
        exact ⟨reads, by rw [takeByte, if_neg hkind]⟩

theorem deliverByte_undisturbed (writes : List WriteEvent) :
    deliverByte (undisturbed writes) =
      ((deliverByte writes).1, undisturbed (deliverByte writes).2) := by
  induction writes with
  | nil => rfl
  | cons event writes ih =>
    cases event with
    | accept => rfl
    | refuse => rfl
    | fail fault =>
      by_cases hkind : fault.kind = .interrupted
      · simpa [undisturbed, WriteEvent.isInterruption, deliverByte, hkind] using ih
      · simp [undisturbed, WriteEvent.isInterruption, deliverByte, hkind]

theorem deliverByte_of_undisturbed_eq {writes writes' : List WriteEvent}
    (h : undisturbed writes' = undisturbed writes) :
    (deliverByte writes').1 = (deliverByte writes).1 ∧
      undisturbed (deliverByte writes').2 = undisturbed (deliverByte writes).2 := by
  have hsame := deliverByte_undisturbed writes'
  rw [h, deliverByte_undisturbed writes] at hsame
  obtain ⟨hresult, hwrites⟩ := Prod.mk.inj hsame
  exact ⟨hresult.symm, hwrites.symm⟩

namespace Streams

variable {s t : Streams} {count : Nat}

/-- Streams whose outputs behave alike and that have done the same. -/
structure SameSink (s t : Streams) : Prop where
  writes : undisturbed t.writes = undisturbed s.writes
  flushes : t.flushes = s.flushes
  history : t.history = s.history

/-- What leads from `s` to `s'` takes `bytes` from the front of the delivery, and does not depend on
the rest of it: on other streams with these bytes in front `act` leads to the rest of theirs. -/
structure Takes (bytes : List UInt8) (act : Streams → Streams → Prop) (s s' : Streams) : Prop where
  delivery_eq : delivery s.reads = (delivery s'.reads).prepend bytes
  act : ∀ t rest, SameSink s t → delivery t.reads = Delivery.prepend bytes rest →
    ∃ t', act t t' ∧ SameSink s' t' ∧ delivery t'.reads = rest

/-- The streams after `count` bytes were asked for, with `reads` to come. -/
def asked (s : Streams) (count : Nat) (reads : List ReadEvent) : Streams :=
  { s with reads, history := List.replicate count .asked ++ s.history }

/-! ## Counted reads and writes -/

theorem asked_asked (s : Streams) (j k : Nat) (reads reads' : List ReadEvent) :
    (s.asked j reads).asked k reads' = s.asked (k + j) reads' := by
  simp [asked, ← List.append_assoc]

theorem read_of_prepend {b : UInt8} {d : Delivery} (h : delivery s.reads = d.prepend [b]) :
    ∃ reads, s.read = (.ok b, s.asked 1 reads) ∧ delivery reads = d := by
  obtain ⟨reads, htake, hrest⟩ := takeByte_of_prepend h
  exact ⟨reads, by rw [read, htake]; rfl, hrest⟩

theorem read_of_empty {fault : Fault} (h : delivery s.reads = ⟨[], fault⟩) :
    ∃ reads, s.read = (.error fault, s.asked 1 reads) := by
  obtain ⟨reads, htake⟩ := takeByte_of_empty h
  exact ⟨reads, by rw [read, htake]; rfl⟩

/-- Reading takes as many bytes from the front of the delivery as were asked for. -/
theorem readTimes_of_prepend {bytes : List UInt8} {d : Delivery}
    (h : delivery s.reads = d.prepend bytes) (latest : Option UInt8) :
    ∃ reads, s.readTimes latest bytes.length =
        (none, bytes.getLast?.or latest, s.asked bytes.length reads) ∧ delivery reads = d := by
  induction bytes generalizing s latest with
  | nil => exact ⟨s.reads, rfl, h⟩
  | cons b bytes ih =>
    obtain ⟨reads₁, hread, h₁⟩ := read_of_prepend (d := d.prepend bytes) h
    obtain ⟨reads, hrest, hd⟩ := ih (s := s.asked 1 reads₁) h₁ (some b)
    refine ⟨reads, ?_, hd⟩
    rw [List.length_cons, readTimes, hread]
    simp only [hrest, asked_asked]
    cases bytes <;> rfl

/-- Reading more bytes than are delivered fails as the input does. -/
theorem readTimes_of_short {bytes : List UInt8} {fault : Fault}
    (h : delivery s.reads = ⟨bytes, fault⟩) (short : bytes.length < count)
    (latest : Option UInt8) :
    ∃ reads, s.readTimes latest count =
      (some fault, bytes.getLast?.or latest, s.asked (bytes.length + 1) reads) := by
  induction bytes generalizing s latest count with
  | nil =>
    obtain ⟨count, rfl⟩ := Nat.exists_eq_succ_of_ne_zero (Nat.ne_of_gt short)
    obtain ⟨reads, hread⟩ := read_of_empty h
    exact ⟨reads, by rw [readTimes, hread]; rfl⟩
  | cons b bytes ih =>
    obtain ⟨count, rfl⟩ := Nat.exists_eq_succ_of_ne_zero (Nat.ne_of_gt (Nat.zero_lt_of_lt short))
    obtain ⟨reads₁, hread, h₁⟩ := read_of_prepend (d := ⟨bytes, fault⟩) h
    obtain ⟨reads, hrest⟩ :=
      ih (s := s.asked 1 reads₁) h₁ (Nat.lt_of_succ_lt_succ short) (some b)
    refine ⟨reads, ?_⟩
    rw [readTimes, hread]
    simp only [hrest, asked_asked]
    cases bytes <;> rfl

/-! ## Streams that differ in their input -/

theorem SameSink.asked (h : SameSink s t) (count : Nat) (reads reads' : List ReadEvent) :
    SameSink (s.asked count reads) (t.asked count reads') :=
  ⟨h.writes, h.flushes, congrArg (List.replicate count StreamOp.asked ++ ·) h.history⟩

theorem SameSink.write (h : SameSink s t) (b : UInt8) :
    (t.write b).1 = (s.write b).1 ∧ SameSink (s.write b).2 (t.write b).2 := by
  obtain ⟨hresult, hwrites⟩ := deliverByte_of_undisturbed_eq h.writes
  unfold Streams.write
  generalize deliverByte s.writes = x, deliverByte t.writes = y at hresult hwrites ⊢
  rcases x with ⟨_ | fault, writes⟩ <;> rcases y with ⟨_ | fault', writes'⟩
  · exact ⟨rfl, hwrites, h.flushes, congrArg (StreamOp.wrote b :: ·) h.history⟩
  · contradiction
  · contradiction
  · exact ⟨hresult, hwrites, h.flushes, h.history⟩

theorem SameSink.writeTimes (h : SameSink s t) (b : UInt8) (count : Nat) :
    (t.writeTimes b count).1 = (s.writeTimes b count).1 ∧
      SameSink (s.writeTimes b count).2 (t.writeTimes b count).2 := by
  induction count generalizing s t with
  | zero => exact ⟨rfl, h⟩
  | succ count ih =>
    obtain ⟨hresult, hsink⟩ := h.write b
    unfold Streams.writeTimes
    generalize s.write b = x, t.write b = y at hresult hsink ⊢
    rcases x with ⟨_ | fault, s₁⟩ <;> rcases y with ⟨_ | fault', t₁⟩
    · exact ih hsink
    · contradiction
    · contradiction
    · exact ⟨hresult, hsink⟩

theorem SameSink.flush (h : SameSink s t) :
    t.flush.1 = s.flush.1 ∧ SameSink s.flush.2 t.flush.2 := by
  have hflushes := h.flushes
  unfold Streams.flush
  rw [hflushes]
  rcases s.flushes with _ | ⟨_ | fault, flushes⟩
  · exact ⟨rfl, h.writes, rfl, congrArg (StreamOp.flushed :: ·) h.history⟩
  · exact ⟨rfl, h.writes, rfl, congrArg (StreamOp.flushed :: ·) h.history⟩
  · exact ⟨rfl, h.writes, rfl, h.history⟩

@[simp] theorem reads_flush (s : Streams) : s.flush.2.reads = s.reads := by
  unfold flush
  split <;> rfl

@[simp] theorem reads_write (s : Streams) (b : UInt8) : (s.write b).2.reads = s.reads := by
  unfold write
  split <;> rfl

@[simp] theorem reads_writeTimes (s : Streams) (b : UInt8) (count : Nat) :
    (s.writeTimes b count).2.reads = s.reads := by
  induction count generalizing s with
  | zero => rfl
  | succ count ih =>
    have hreads := reads_write s b
    unfold writeTimes
    generalize s.write b = x at hreads ⊢
    rcases x with ⟨_ | fault, s₁⟩
    · exact (ih s₁).trans hreads
    · exact hreads

end Streams

/-! ## Demands -/

/-- A delivery holds the bytes that are asked for, or too few of them. -/
theorem Delivery.enough_or_short (d : Delivery) (count : Nat) :
    (∃ bytes rest, bytes.length = count ∧ d = prepend bytes rest) ∨ d.bytes.length < count := by
  rcases Nat.lt_or_ge d.bytes.length count with hshort | henough
  · exact .inr hshort
  · refine .inl ⟨d.bytes.take count, ⟨d.bytes.drop count, d.fault⟩,
      List.length_take_of_le henough, ?_⟩
    rw [prepend, List.take_append_drop]

/-- How many bytes a demand takes from the input. -/
def Demand.bytes : Demand → Nat
  | read count => count
  | _ => 0

namespace Streams

variable {s t : Streams} {count : Nat}

theorem serve_read_of_prepend (hflush : s.flush.1 = none) {bytes : List UInt8} {d : Delivery}
    (h : delivery s.reads = d.prepend bytes) :
    ∃ reads, s.serve (.read bytes.length) =
        ({ latest? := bytes.getLast? }, s.flush.2.asked bytes.length reads) ∧
      delivery reads = d := by
  rw [← reads_flush s] at h
  obtain ⟨reads, hread, hrest⟩ := readTimes_of_prepend h none
  refine ⟨reads, ?_, hrest⟩
  rw [serve_read_of_flush (Prod.ext hflush rfl), hread, Option.or_none]
  rfl

theorem serve_read_of_short (hflush : s.flush.1 = none) {d : Delivery}
    (h : delivery s.reads = d) (short : d.bytes.length < count) :
    ∃ reads, s.serve (.read count) =
      ({ failure? := some (.ofRead d.fault), latest? := d.bytes.getLast? },
        s.flush.2.asked (d.bytes.length + 1) reads) := by
  rw [← reads_flush s] at h
  obtain ⟨reads, hread⟩ := readTimes_of_short h short none
  refine ⟨reads, ?_⟩
  rw [serve_read_of_flush (Prod.ext hflush rfl), hread, Option.or_none]
  rfl

/-- A demand that is met takes its bytes and no more. -/
theorem takes_serve (s : Streams) (d : Demand) (met : (s.serve d).1.failure? = none) :
    ∃ bytes, bytes.length = d.bytes ∧
      Takes bytes (fun t t' => t.serve d = ((s.serve d).1, t')) s (s.serve d).2 := by
  cases d with
  | nothing => exact ⟨[], rfl, rfl, fun t rest hsink hrest => ⟨t, rfl, hsink, hrest⟩⟩
  | write b count =>
    refine ⟨[], rfl, ?_, fun t rest hsink hrest => ?_⟩
    · rw [serve_write, reads_writeTimes]
      rfl
    · obtain ⟨hresult, hafter⟩ := hsink.writeTimes b count
      refine ⟨(t.writeTimes b count).2, ?_, hafter, ?_⟩
      · rw [serve_write, serve_write, hresult]
      · rwa [reads_writeTimes]
  | read count =>
    cases hflush : s.flush.1 with
    | some fault =>
      rw [serve_read_of_failed_flush (Prod.ext hflush rfl)] at met
      contradiction
    | none =>
      rcases (delivery s.reads).enough_or_short count with ⟨bytes, d, rfl, hd⟩ | hshort
      · obtain ⟨reads, hserve, hrest⟩ := serve_read_of_prepend hflush hd
        rw [hserve]
        refine ⟨bytes, rfl, hd.trans (by rw [← hrest]; rfl), fun t rest hsink ht => ?_⟩
        obtain ⟨hflush', hsink'⟩ := hsink.flush
        obtain ⟨reads', hserve', hrest'⟩ := serve_read_of_prepend (hflush'.trans hflush) ht
        exact ⟨_, hserve', hsink'.asked _ _ _, hrest'⟩
      · obtain ⟨reads, hserve⟩ := serve_read_of_short hflush rfl hshort
        rw [hserve] at met
        contradiction

/-- Streams that deliver alike answer alike, also if they fail. -/
theorem SameSink.serve (h : SameSink s t) (hd : delivery t.reads = delivery s.reads) (d : Demand) :
    (t.serve d).1 = (s.serve d).1 ∧ SameSink (s.serve d).2 (t.serve d).2 := by
  cases d with
  | nothing => exact ⟨rfl, h⟩
  | write b count =>
    obtain ⟨hresult, hafter⟩ := h.writeTimes b count
    exact ⟨by rw [serve_write, serve_write, hresult], hafter⟩
  | read count =>
    obtain ⟨hflush', hsink⟩ := h.flush
    cases hflush : s.flush.1 with
    | some fault =>
      rw [serve_read_of_failed_flush (Prod.ext hflush rfl),
        serve_read_of_failed_flush (Prod.ext (hflush'.trans hflush) rfl)]
      exact ⟨rfl, hsink⟩
    | none =>
      rcases (delivery s.reads).enough_or_short count with ⟨bytes, d, rfl, hs⟩ | hshort
      · obtain ⟨reads, hserve, -⟩ := serve_read_of_prepend hflush hs
        obtain ⟨reads', hserve', -⟩ :=
          serve_read_of_prepend (hflush'.trans hflush) (hd.trans hs)
        rw [hserve, hserve']
        exact ⟨rfl, hsink.asked _ _ _⟩
      · obtain ⟨reads, hserve⟩ := serve_read_of_short hflush rfl hshort
        obtain ⟨reads', hserve'⟩ := serve_read_of_short (hflush'.trans hflush) hd hshort
        rw [hserve, hserve']
        exact ⟨rfl, hsink.asked _ _ _⟩

end Streams

namespace Machine

open Streams (SameSink)

variable {n : Nat} {σ : Type} {job : Job σ} {m : Machine n σ} {t : Streams}

/-- The machine with nothing left of its streams but what they have done. -/
def drained (m : Machine n σ) : Machine n σ := m.withStreams { history := m.streams.history }

@[simp] theorem output_drained (m : Machine n σ) : m.drained.streams.output = m.streams.output :=
  rfl

theorem drained_withStreams (h : t.history = m.streams.history) :
    (m.withStreams t).drained = m.drained := by
  simp [drained, withStreams, h]

/-- The streams have met the demand of a step, unless it says that they have failed. -/
theorem met_of_step (h : ∀ i cause, (m.step job).1 ≠ .error (.stream i cause)) :
    (m.streams.serve (m.demand job)).1.failure? = none := by
  by_cases hdemand : m.demand job = .nothing
  · rw [hdemand]
    rfl
  · cases hfailure : (m.streams.serve (m.demand job)).1.failure? with
    | none => rfl
    | some cause =>
      rw [step_of_demand hdemand] at h
      simp [settle, hfailure, abort] at h

/-- Machines whose streams deliver alike take the same step. -/
theorem step_of_sameSink (job : Job σ) (hsink : SameSink m.streams t)
    (hd : delivery t.reads = delivery m.streams.reads) :
    ∃ t', (m.withStreams t).step job = ((m.step job).1, (m.step job).2.withStreams t') ∧
      SameSink (m.step job).2.streams t' ∧
      ∀ x, (m.step job).1 = .ok x → delivery t'.reads = delivery (m.step job).2.streams.reads := by
  obtain ⟨hsupply, hafter⟩ := hsink.serve hd (m.demand job)
  refine ⟨_, step_withStreams hsupply, ?_, fun x hx => ?_⟩
  · rwa [streams_step]
  · have met : (m.streams.serve (m.demand job)).1.failure? = none := met_of_step (by simp [hx])
    obtain ⟨bytes, -, htakes⟩ := m.streams.takes_serve (m.demand job) met
    obtain ⟨t', hserve, -, hrest⟩ := htakes.act t _ hsink (hd.trans htakes.delivery_eq)
    rw [streams_step, hserve, hrest]

/-! ## Runs -/

/-- The last flush of a run does not depend on the input. -/
theorem finish_of_sameSink (hsink : SameSink m.streams t) (halt : Halt) :
    (m.withStreams t).finish halt = ((m.finish halt).1, m.withStreams t.flush.2) := by
  obtain ⟨hflush', -⟩ := hsink.flush
  cases hflush : m.streams.flush.1 with
  | none =>
    have hother : t.flush.1 = none := hflush'.trans hflush
    rw [finish_of_flush (Prod.ext hflush rfl)]
    exact finish_of_flush (m := m.withStreams t) (Prod.ext hother rfl) halt
  | some fault =>
    have hother : t.flush.1 = some fault := hflush'.trans hflush
    rw [finish_of_failed_flush (Prod.ext hflush rfl)]
    exact finish_of_failed_flush (m := m.withStreams t) (Prod.ext hother rfl) halt

theorem execute_of_sameSink (hsink : SameSink m.streams t)
    (hd : delivery t.reads = delivery m.streams.reads) (fuel : Nat) :
    ((m.withStreams t).execute job fuel).map (fun x => (x.1, x.2.drained)) =
      (m.execute job fuel).map (fun x => (x.1, x.2.drained)) := by
  induction fuel generalizing m t with
  | zero => rfl
  | succ fuel ih =>
    obtain ⟨t', hother, hafter, hrest⟩ := step_of_sameSink job hsink hd
    rcases hstep : m.step job with ⟨e | _ | halt, m₁⟩
    all_goals
      rw [hstep] at hother hafter hrest
      rw [execute, execute, hstep, hother]
    · exact congrArg some (Prod.ext rfl (drained_withStreams hafter.history))
    · exact ih hafter (hrest _ rfl)
    · have hfinish : (m₁.withStreams t').finish halt = _ := finish_of_sameSink hafter halt
      have hmachine : (m₁.withStreams t'.flush.2).drained = (m₁.finish halt).2.drained := by
        rw [finish_machine]
        exact drained_withStreams (m := m₁.withStreams _) hafter.flush.2.history
      simp only [hfinish, Option.map_some, hmachine]

/-- How the streams are cut up does not matter. If two inputs deliver the same bytes and then fail
in the same way, however their data is divided and their reads are interrupted, and two outputs do
the same but for interruptions, then both runs return the same and leave the same machine, with the
same state of its host, having written, flushed and read the same; or neither returns. -/
theorem run_on_same_delivery (program : Program) (settings : MachineSettings) (host : Host σ)
    (state : σ) {reads reads' : List ReadEvent} {writes writes' : List WriteEvent}
    (flushes : List FlushEvent) (hreads : delivery reads' = delivery reads)
    (hwrites : undisturbed writes' = undisturbed writes) (fuel : Nat) :
    ((start settings { reads := reads', writes := writes', flushes } state).execute
        (.ofSettings settings program host) fuel).map (fun x => (x.1, x.2.drained)) =
      ((start settings { reads, writes, flushes } state).execute
        (.ofSettings settings program host) fuel).map (fun x => (x.1, x.2.drained)) :=
  execute_of_sameSink (m := start settings { reads, writes, flushes } state)
    (t := { reads := reads', writes := writes', flushes }) ⟨hwrites, rfl, rfl⟩ hreads fuel

/-- Two bytes in one piece, or in two with interruptions. The host keeps the names of its calls. -/
theorem run_on_same_delivery_two_pieces :
    ∃ c, compile {} ",\x7ba\x7d,." = .ok c ∧
      let recorder : Host (List String) :=
        { answer := fun name _ _ cells names => (cells, name :: names) }
      let interruption : Fault := ⟨.interrupted, "again"⟩
      ((start { memorySize := 1 }
          { reads := [.data [97], .fail interruption, .data [], .data [98]]
            writes := [.fail interruption] } []).execute
        (.ofSettings { memorySize := 1 } c.program recorder) 5).map (fun x => (x.1, x.2.drained)) =
      ((start { memorySize := 1 } { reads := [.data [97, 98]] } []).execute
        (.ofSettings { memorySize := 1 } c.program recorder) 5).map
          (fun x => (x.1, x.2.drained)) ∧
      ∃ m, (start { memorySize := 1 } { reads := [.data [97, 98]] } []).execute
          (.ofSettings { memorySize := 1 } c.program recorder) 5 = some (.ok .completed, m) ∧
        m.streams.output = [98] ∧ m.state = ["\x7ba\x7d"] := by
  have hcompile : compile {} ",\x7ba\x7d,." =
      .ok ⟨⟨#[.run .input 1, .call "\x7ba\x7d" 0, .run .input 1, .run .output 1]⟩, []⟩ := by
    with_unfolding_all rfl
  exact ⟨_, hcompile, run_on_same_delivery _ _ _ _ _ rfl rfl _, _, rfl, rfl, rfl⟩

end Machine

end TapeMachine
