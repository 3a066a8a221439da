import TapeMachine.Proofs.Machine.Demand

/-!
# Faults of the output

The output may refuse a byte for good or fail to be flushed. What such streams do is compared with
what the same streams would do if their output took everything (`Streams.calm`). A demand is either
served alike by both, or the first fault ends it: some of the bytes were not written, or the output
could not be shown and nothing was read (`served_serve`). The fault is then used up, which is how a
run shows that it has met one (`Streams.faultsAhead`).
-/

namespace TapeMachine

/-- Whether the byte is lost. An interrupted write is tried again. -/
def WriteEvent.isFault : WriteEvent → Bool
  | accept => false
  | refuse => true
  | fail fault => fault.kind ≠ .interrupted

def FlushEvent.isFault : FlushEvent → Bool
  | accept => false
  | fail _ => true

namespace Streams

variable {s s' : Streams}

/-- The streams with an output that never fails. -/
def calm (s : Streams) : Streams := { s with writes := [], flushes := [] }

/-- The number of failures that the output has in store. -/
def faultsAhead (s : Streams) : Nat :=
  s.writes.countP (·.isFault) + s.flushes.countP (·.isFault)

/-- The streams after a byte was taken `count` times. -/
def wrote (s : Streams) (b : UInt8) (count : Nat) : Streams :=
  { s with history := List.replicate count (.wrote b) ++ s.history }

@[simp] theorem output_calm (s : Streams) : s.calm.output = s.output := rfl

theorem reads_of_calm_eq (h : s.calm = s'.calm) : s.reads = s'.reads := (Streams.mk.inj h).1

theorem output_of_calm_eq (h : s.calm = s'.calm) : s.output = s'.output := by
  rw [← output_calm s, h, output_calm]

@[simp] theorem output_wrote (s : Streams) (b : UInt8) (count : Nat) :
    (s.wrote b count).output = s.output ++ List.replicate count b := by
  simp [wrote, output]

theorem calm_wrote (s : Streams) (b : UInt8) (count : Nat) :
    (s.wrote b count).calm = s.calm.wrote b count := rfl

theorem wrote_wrote (s : Streams) (b : UInt8) (k l : Nat) :
    (s.wrote b k).wrote b l = s.wrote b (l + k) := by
  simp [wrote, ← List.append_assoc]

/-! ## Faults that are used up -/

theorem countP_deliverByte (writes : List WriteEvent) :
    (deliverByte writes).2.countP (·.isFault) + (deliverByte writes).1.isSome.toNat =
      writes.countP (·.isFault) := by
  induction writes with
  | nil => rfl
  | cons event writes ih =>
    cases event with
    | accept => simp [deliverByte, WriteEvent.isFault]
    | refuse => simp [deliverByte, WriteEvent.isFault]
    | fail fault =>
      by_cases hkind : fault.kind = .interrupted
      · simpa [deliverByte, WriteEvent.isFault, hkind] using ih
      · simp [deliverByte, WriteEvent.isFault, hkind]

theorem faultsAhead_write (s : Streams) (b : UInt8) :
    (s.write b).2.faultsAhead + (s.write b).1.isSome.toNat = s.faultsAhead := by
  unfold write faultsAhead
  rw [← countP_deliverByte s.writes]
  rcases deliverByte s.writes with ⟨_ | fault, writes⟩
  · exact Nat.add_right_comm _ _ _
  · exact Nat.add_right_comm _ _ _

theorem faultsAhead_flush (s : Streams) :
    s.flush.2.faultsAhead + s.flush.1.isSome.toNat = s.faultsAhead := by
  unfold flush faultsAhead
  rcases s.flushes with _ | ⟨_ | fault, flushes⟩ <;> simp [FlushEvent.isFault, Nat.add_assoc]

theorem faultsAhead_writeTimes (s : Streams) (b : UInt8) (count : Nat) :
    (s.writeTimes b count).2.faultsAhead + (s.writeTimes b count).1.isSome.toNat =
      s.faultsAhead := by
  induction count generalizing s with
  | zero => rfl
  | succ count ih =>
    have hwrite := faultsAhead_write s b
    unfold writeTimes
    rcases hstep : s.write b with ⟨_ | fault, s₁⟩
    · rw [hstep] at hwrite
      exact (ih s₁).trans hwrite
    · rwa [hstep] at hwrite

theorem faultsAhead_readTimes (s : Streams) (latest : Option UInt8) (count : Nat) :
    (s.readTimes latest count).2.2.faultsAhead = s.faultsAhead := by
  induction count generalizing s latest with
  | zero => rfl
  | succ count ih =>
    have hread : s.read.2.faultsAhead = s.faultsAhead := rfl
    unfold readTimes
    rcases hstep : s.read with ⟨fault | b, s₁⟩
    · rwa [hstep] at hread
    · rw [hstep] at hread
      exact (ih s₁ (some b)).trans hread

/-! ## The same streams without faults -/

theorem read_calm (s : Streams) : s.calm.read = (s.read.1, s.read.2.calm) := by
  unfold read calm
  rcases takeByte s.reads with ⟨result, reads⟩
  rfl

theorem readTimes_calm (s : Streams) (latest : Option UInt8) (count : Nat) :
    s.calm.readTimes latest count =
      ((s.readTimes latest count).1, (s.readTimes latest count).2.1,
        (s.readTimes latest count).2.2.calm) := by
  induction count generalizing s latest with
  | zero => rfl
  | succ count ih =>
    unfold readTimes
    rw [read_calm]
    rcases s.read with ⟨fault | b, s₁⟩
    · rfl
    · exact ih s₁ (some b)

theorem writeTimes_calm (s : Streams) (b : UInt8) (count : Nat) :
    s.calm.writeTimes b count = (none, (s.wrote b count).calm) := by
  induction count generalizing s with
  | zero => rfl
  | succ count ih =>
    have hrest := ih (s.wrote b 1)
    rw [wrote_wrote] at hrest
    exact hrest

theorem write_spec (s : Streams) (b : UInt8) :
    ((s.write b).1 = none ∧ (s.write b).2.calm = (s.wrote b 1).calm) ∨
      ∃ fault, (s.write b).1 = some fault ∧ (s.write b).2.calm = s.calm := by
  unfold write
  rcases deliverByte s.writes with ⟨_ | fault, writes⟩
  · exact .inl ⟨rfl, rfl⟩
  · exact .inr ⟨fault, rfl, rfl⟩

/-- A failure leaves some of the copies unwritten. -/
theorem writeTimes_spec (s : Streams) (b : UInt8) (count : Nat) :
    ((s.writeTimes b count).1 = none ∧ (s.writeTimes b count).2.calm = (s.wrote b count).calm) ∨
      ∃ fault, (s.writeTimes b count).1 = some fault ∧
        ∃ k < count, (s.writeTimes b count).2.calm = (s.wrote b k).calm := by
  induction count generalizing s with
  | zero => exact .inl ⟨rfl, rfl⟩
  | succ count ih =>
    unfold writeTimes
    rcases hwrite : s.write b with ⟨fault?, s₁⟩
    have hspec := write_spec s b
    rw [hwrite] at hspec
    rcases hspec with ⟨rfl, hwrote⟩ | ⟨fault, rfl, hsame⟩
    · have hone : ∀ k, (s₁.wrote b k).calm = (s.wrote b (k + 1)).calm := fun k => by
        rw [calm_wrote, hwrote, ← calm_wrote, wrote_wrote]
      rcases ih s₁ with ⟨hnone, hall⟩ | ⟨fault, hfault, k, hk, hsome⟩
      · exact .inl ⟨hnone, hall.trans (hone count)⟩
      · exact .inr ⟨fault, hfault, k + 1, Nat.succ_lt_succ hk, hsome.trans (hone k)⟩
    · exact .inr ⟨fault, rfl, 0, Nat.succ_pos count, hsame⟩

theorem flush_spec (s : Streams) :
    (s.flush.1 = none ∧ s.calm.flush = (none, s.flush.2.calm)) ∨
      ∃ fault, s.flush.1 = some fault ∧ s.flush.2.calm = s.calm := by
  unfold flush
  rcases s.flushes with _ | ⟨_ | fault, flushes⟩
  · exact .inl ⟨rfl, rfl⟩
  · exact .inl ⟨rfl, rfl⟩
  · exact .inr ⟨fault, rfl, rfl⟩

/-! ## Demands -/

/-- How a demand is served by an output that may fail: as by one that never does, or up to the
failure. -/
inductive Served (s : Streams) : Demand → Supply → Streams → Prop
  | met {d : Demand} {supply : Supply} {s' : Streams}
      (calm : s.calm.serve d = (supply, s'.calm)) (ahead : s'.faultsAhead = s.faultsAhead)
      (noFault : ∀ message, supply.failure? ≠ some (.write message)) : Served s d supply s'
  | cutWrite {b : UInt8} {count k : Nat} {fault : Fault} {s' : Streams} (short : k < count)
      (calm : s'.calm = (s.wrote b k).calm) (ahead : s'.faultsAhead + 1 = s.faultsAhead) :
      Served s (.write b count) { failure? := some (.ofWrite fault) } s'
  | cutRead {count : Nat} {fault : Fault} {s' : Streams} (calm : s'.calm = s.calm)
      (ahead : s'.faultsAhead + 1 = s.faultsAhead) :
      Served s (.read count) { failure? := some (.ofWrite fault) } s'

theorem served_serve (s : Streams) (d : Demand) : Served s d (s.serve d).1 (s.serve d).2 := by
  cases d with
  | nothing => exact .met rfl rfl nofun
  | write b count =>
    have hahead := faultsAhead_writeTimes s b count
    rw [serve_write]
    rcases writeTimes_spec s b count with ⟨hnone, hall⟩ | ⟨fault, hfault, k, hk, hsome⟩
    · rw [hnone] at hahead ⊢
      refine .met ?_ hahead nofun
      rw [serve_write, writeTimes_calm, hall]
    · rw [hfault] at hahead ⊢
      exact .cutWrite hk hsome hahead
  | read count =>
    have hahead := faultsAhead_flush s
    have hspec := flush_spec s
    rcases hflush : s.flush with ⟨fault?, s₁⟩
    rw [hflush] at hahead hspec
    rcases hspec with ⟨rfl, hcalm⟩ | ⟨fault, rfl, hcalm⟩
    · have hread := faultsAhead_readTimes s₁ none count
      rw [serve_read_of_flush hflush]
      refine .met ?_ (hread.trans hahead) fun message => ?_
      · rw [serve_read_of_flush hcalm, readTimes_calm]
      · rcases (s₁.readTimes none count).1 with _ | fault
        · nofun
        · simp only [Option.map, StreamError.ofRead]
          split <;> simp
    · rw [serve_read_of_failed_flush hflush]
      exact .cutRead hcalm hahead

/-! ## What is written -/

theorem output_readTimes (s : Streams) (latest : Option UInt8) (count : Nat) :
    (s.readTimes latest count).2.2.output = s.output := by
  induction count generalizing s latest with
  | zero => rfl
  | succ count ih =>
    have hread := output_read s
    unfold readTimes
    rcases hstep : s.read with ⟨fault | b, s₁⟩
    · rwa [hstep] at hread
    · rw [hstep] at hread
      exact (ih s₁ (some b)).trans hread

/-- What is written stays written. -/
theorem output_serve (s : Streams) (d : Demand) : s.output <+: (s.serve d).2.output := by
  cases d with
  | nothing => exact List.prefix_rfl
  | write b count =>
    rw [serve_write]
    rcases writeTimes_spec s b count with ⟨-, hall⟩ | ⟨-, -, k, -, hsome⟩
    · rw [output_of_calm_eq hall, output_wrote]
      exact List.prefix_append _ _
    · rw [output_of_calm_eq hsome, output_wrote]
      exact List.prefix_append _ _
  | read count =>
    have hsame := output_flush s
    rcases hflush : s.flush with ⟨_ | fault, s₁⟩
    · rw [hflush] at hsame
      rw [serve_read_of_flush hflush, output_readTimes]
      exact ⟨[], (List.append_nil _).trans hsame.symm⟩
    · rw [hflush] at hsame
      rw [serve_read_of_failed_flush hflush]
      exact ⟨[], (List.append_nil _).trans hsame.symm⟩

/-- A fault loses the end of what would have been written. -/
theorem Served.prefix_output {d : Demand} {supply : Supply} (h : Served s d supply s') :
    s'.output <+: (s.calm.serve d).2.output := by
  cases h with
  | met calm =>
    rw [calm]
    exact List.prefix_rfl
  | @cutWrite b count k _ _ short calm =>
    have hcount : List.replicate count b = List.replicate k b ++ List.replicate (count - k) b := by
      rw [List.replicate_append_replicate, Nat.add_sub_cancel' (Nat.le_of_lt short)]
    rw [serve_write, writeTimes_calm, output_calm, output_of_calm_eq calm, output_wrote,
      output_wrote, hcount, ← List.append_assoc]
    exact List.prefix_append _ _
  | cutRead calm =>
    rw [output_of_calm_eq calm]
    exact output_serve s.calm _

end Streams

end TapeMachine
