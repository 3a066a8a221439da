import TapeMachine.Proofs.Machine.Calls
import TapeMachine.Proofs.Machine.Streams
import TapeMachine.Proofs.Source.Walk

/-!
# Blocks, one operator at a time

The machine carries out a block of operators at once: it adds the count to the cell, checks a move
only where it ends, and keeps the last of the bytes it reads. `operate_spec` says that this comes to
the same as carrying out the operators one by one, also when one of them cannot be carried out.
-/

namespace TapeMachine

variable {n : Nat} {σ : Type}

/-! ## Tapes -/

namespace Tape

variable {t t' : Tape n}

@[simp] theorem write_write (t : Tape n) (a b : Cell) : (t.write a).write b = t.write b := by
  simp [write]

@[simp] theorem write_current (t : Tape n) : t.write t.current = t := by
  simp [write, current]

theorem moveTo?_eq_some_iff {target : Int} :
    t.moveTo? target = some t' ↔ t'.cells = t.cells ∧ (t'.head : Int) = target := by
  obtain ⟨cells, head⟩ := t
  obtain ⟨cells', head', hhead'⟩ := t'
  unfold moveTo?
  split
  · simp only [Option.some.injEq, mk.injEq, Fin.mk.injEq]
    constructor
    · rintro ⟨rfl, rfl⟩
      exact ⟨rfl, by omega⟩
    · rintro ⟨rfl, rfl⟩
      exact ⟨rfl, by omega⟩
  · next hout =>
    simp only [reduceCtorEq, false_iff, not_and]
    rintro rfl rfl
    omega

theorem moveTo?_eq_none_iff {target : Int} :
    t.moveTo? target = none ↔ target < 0 ∨ (n : Int) ≤ target := by
  unfold moveTo?
  split
  · simp only [reduceCtorEq, false_iff]
    omega
  · simp only [true_iff]
    omega

/-- A head that has come onto a cell has it as far to the next cells as it had before. -/
theorem moveTo?_of_moveTo? {a b : Int} (h : t.moveTo? a = some t') :
    t'.moveTo? b = t.moveTo? b := by
  obtain ⟨hcells, -⟩ := moveTo?_eq_some_iff.mp h
  unfold moveTo?
  rw [hcells]

/-- No tape is so long that the bounds of the target can be felt on it. -/
theorem moveTo?_target (hn : n ≤ Int64.maxValue.toInt) (offset : Int) :
    t.moveTo? (t.target offset) = t.moveTo? (t.head + offset) := by
  have hmin := Int64.toInt_minValue_lt_zero
  by_cases hin : 0 ≤ t.head + offset ∧ t.head + offset < n
  · rw [show t.target offset = t.head + offset by unfold target; omega]
  · rw [moveTo?_eq_none_iff.mpr (by unfold target; omega), moveTo?_eq_none_iff.mpr (by omega)]

/-- The tape when `latest` is the last byte that was read into the current cell. -/
def keep (t : Tape n) : Option UInt8 → Tape n
  | some b => t.write (Int64.ofNat b.toNat)
  | none => t

@[simp] theorem keep_none (t : Tape n) : t.keep none = t := rfl

theorem keep_write (t : Tape n) (latest : Option UInt8) (b : UInt8) :
    (t.keep latest).write (Int64.ofNat b.toNat) = t.keep (some b) := by
  cases latest <;> simp [keep]

end Tape

/-! ## Operators one by one -/

namespace World

variable {w : World n σ}

theorem operateTimes_increment (w : World n σ) (count : Nat) :
    w.operateTimes .increment count =
      .ok { w with tape := w.tape.write (w.tape.current + Int64.ofNat count) } := by
  induction count generalizing w with
  | zero => simp [operateTimes]
  | succ count ih =>
    simp [operateTimes, operate, ih, Int64.add_assoc, Int64.add_comm]

theorem operateTimes_decrement (w : World n σ) (count : Nat) :
    w.operateTimes .decrement count =
      .ok { w with tape := w.tape.write (w.tape.current - Int64.ofNat count) } := by
  induction count generalizing w with
  | zero => simp [operateTimes]
  | succ count ih =>
    simp [operateTimes, operate, ih, Int64.sub_sub, Int64.add_comm]

theorem operateTimes_output (w : World n σ) (count : Nat) :
    w.operateTimes .output count =
      .ok { w with
        written := w.written ++ List.replicate count w.tape.current.toUInt64.toUInt8 } := by
  induction count generalizing w with
  | zero => simp [operateTimes]
  | succ count ih => simp [operateTimes, operate, ih, List.replicate_succ]

/-- Many moves by one cell lead where one move by many does. -/
theorem operateTimes_move {op : Operator} {d : Int} (hd : d = 1 ∨ d = -1)
    (hop : ∀ w : World n σ, w.operate op = w.moveTo (w.tape.head + d)) (w : World n σ)
    (count : Nat) :
    match w.tape.moveTo? (w.tape.head + d * count) with
    | some tape => w.operateTimes op count = .ok { w with tape }
    | none => ∃ head,
        w.operateTimes op count = .error (.offTape, { w with tape := ⟨w.tape.cells, head⟩ }) := by
  induction count generalizing w with
  | zero =>
    have hstay : w.tape.moveTo? (w.tape.head + d * (0 : Nat)) = some w.tape :=
      Tape.moveTo?_eq_some_iff.mpr ⟨rfl, by simp⟩
    rw [hstay]
    rfl
  | succ count ih =>
    cases hone : w.tape.moveTo? (w.tape.head + d) with
    | none =>
      have hfar : w.tape.moveTo? (w.tape.head + d * (count + 1 : Nat)) = none := by
        have hout := Tape.moveTo?_eq_none_iff.mp hone
        refine Tape.moveTo?_eq_none_iff.mpr ?_
        rcases hd with rfl | rfl <;> omega
      rw [hfar]
      exact ⟨w.tape.head, by simp only [operateTimes, hop, moveTo, hone]⟩
    | some tape =>
      obtain ⟨hcells, hhead⟩ := Tape.moveTo?_eq_some_iff.mp hone
      have hfar : w.tape.head + d * (count + 1 : Nat) = tape.head + d * count := by
        rcases hd with rfl | rfl <;> omega
      have hrest := ih { w with tape }
      rw [Tape.moveTo?_of_moveTo? hone, ← hfar] at hrest
      simp only [operateTimes, hop, moveTo, hone]
      revert hrest
      cases w.tape.moveTo? (w.tape.head + d * (count + 1 : Nat)) with
      | some tape' => exact id
      | none =>
        rintro ⟨head, hrest⟩
        exact ⟨head, by rw [hrest]; simp only [hcells]⟩

end World

/-- Reading many bytes leaves the tape that keeping each of them would leave. -/
theorem Streams.Reliable.readTimes {s : Streams} (h : s.Reliable) (t : Tape n) (state : σ)
    (latest : Option UInt8) (count : Nat) :
    ∃ fault? latest' s', s.readTimes latest count = (fault?, latest', s') ∧ s'.Reliable ∧
      (fault? = none ∧ World.operateTimes .input count ⟨t.keep latest, s.unread, s.output, state⟩ =
          .ok ⟨t.keep latest', s'.unread, s'.output, state⟩ ∨
        fault? = some .endOfInput ∧
          World.operateTimes .input count ⟨t.keep latest, s.unread, s.output, state⟩ =
            .error (.starved, ⟨t.keep latest', s'.unread, s'.output, state⟩)) := by
  induction count generalizing s latest with
  | zero => exact ⟨none, latest, s, rfl, h, .inl ⟨rfl, rfl⟩⟩
  | succ count ih =>
    cases hunread : s.unread with
    | nil =>
      obtain ⟨s₁, hread, h₁, hunread₁, houtput₁⟩ := h.read_of_nil hunread
      refine ⟨some .endOfInput, latest, s₁, by rw [Streams.readTimes, hread], h₁, .inr ⟨rfl, ?_⟩⟩
      rw [hunread₁, houtput₁]
      rfl
    | cons b rest =>
      obtain ⟨s₁, hread, h₁, hunread₁, houtput₁⟩ := h.read_of_cons hunread
      have hrest := ih h₁ (some b)
      rw [hunread₁, houtput₁] at hrest
      rw [Streams.readTimes, hread]
      simpa only [World.operateTimes, World.operate, Tape.keep_write] using hrest

/-! ## What is told of a run -/

/-- What can be told of a run that has ended. -/
structure Observation (n : Nat) (σ : Type) where
  /-- How it ended; nothing if no interpretation ends like that. -/
  conclusion? : Option Conclusion
  cells : Vector Cell n
  /-- Where the head is, unless the run ended because it was to leave the tape. -/
  head? : Option (Fin n)
  unread : List UInt8
  written : List UInt8
  state : σ

def World.observe (w : World n σ) (e : Option Conclusion) : Observation n σ where
  conclusion? := e
  cells := w.tape.cells
  head? := if e = some .offTape then none else some w.tape.head
  unread := w.unread
  written := w.written
  state := w.state

def Conclusion.ofHalt : Halt → Conclusion
  | .completed => .completed
  | .outOfBounds .. => .offTape

def Conclusion.ofError? : RuntimeError → Option Conclusion
  | .outOfBounds .. => some .offTape
  | .stream _ .unexpectedEof => some .starved
  | _ => none

namespace Machine

/-- What the operators of a source act on. -/
def world (m : Machine n σ) : World n σ :=
  ⟨m.tape, m.streams.unread, m.streams.output, m.state⟩

/-- What can be told when a run has returned. -/
def observe (result : Except RuntimeError Halt × Machine n σ) : Observation n σ :=
  result.2.world.observe <| match result.1 with
    | .ok halt => some (.ofHalt halt)
    | .error e => Conclusion.ofError? e

/-- A step with which the run goes on, at index `next` and with the world `w`. -/
structure GoesOn (r : StepResult × Machine n σ) (next : Nat) (w : World n σ) : Prop where
  answer : r.1 = .ok none
  next_eq : r.2.next = next
  world_eq : r.2.world = w
  status : r.2.status = .running
  reliable : r.2.streams.Reliable

/-- A step with which the run ends like an interpretation that ends with the world `w`. -/
structure ComesToRest (r : StepResult × Machine n σ) (e : Conclusion) (w : World n σ) : Prop where
  answer : (∃ halt, r.1 = .ok (some halt) ∧ Conclusion.ofHalt halt = e) ∨
    ∃ error, r.1 = .error error ∧ Conclusion.ofError? error = some e
  world_eq : r.2.world.observe (some e) = w.observe (some e)
  reliable : r.2.streams.Reliable

/-- A step that does what `count` operators do one by one. -/
def Agrees (r : StepResult × Machine n σ) (next : Nat) :
    Except (Conclusion × World n σ) (World n σ) → Prop
  | .ok w => GoesOn r next w
  | .error (e, w) => ComesToRest r e w

section

variable {m : Machine n σ} (hn : n ≤ Int64.maxValue.toInt) (running : m.status = .running)
  (reliable : m.streams.Reliable)

include hn running reliable in
theorem agrees_moveBy (bounds : BoundsPolicy) (op : Operator) {d : Int} (hd : d = 1 ∨ d = -1)
    (hop : ∀ w : World n σ, w.operate op = w.moveTo (w.tape.head + d)) (count : Nat) :
    Agrees (m.moveBy bounds (d * count)) (m.next + 1) (m.world.operateTimes op count) := by
  have hmove := World.operateTimes_move hd hop m.world count
  rw [moveBy, Tape.moveTo?_target hn]
  cases hto : m.tape.moveTo? (m.tape.head + d * count) with
  | some tape =>
    simp only [world, hto] at hmove ⊢
    rw [hmove]
    exact ⟨rfl, rfl, rfl, running, reliable⟩
  | none =>
    simp only [world, hto] at hmove ⊢
    obtain ⟨head, hmove⟩ := hmove
    rw [hmove]
    refine ⟨?_, rfl, reliable⟩
    cases bounds with
    | halt => exact .inl ⟨_, rfl, rfl⟩
    | error => exact .inr ⟨_, rfl, rfl⟩

include running reliable in
theorem agrees_output (count : Nat) :
    Agrees (m.output count) (m.next + 1) (m.world.operateTimes .output count) := by
  obtain ⟨streams, hwrite, hreliable, hunread, houtput⟩ :=
    reliable.writeTimes m.tape.current.toUInt64.toUInt8 count
  rw [World.operateTimes_output, output, hwrite]
  refine ⟨rfl, rfl, ?_, running, hreliable⟩
  simp only [world, advance, hunread, houtput]

include running reliable in
theorem agrees_input (count : Nat) :
    Agrees (m.input count) (m.next + 1) (m.world.operateTimes .input count) := by
  obtain ⟨streams, hflush, hreliable, hunread, houtput⟩ := reliable.flush
  obtain ⟨fault?, latest, streams', hread, hreliable', hworld⟩ :=
    hreliable.readTimes m.tape m.state none count
  rw [hunread, houtput, Tape.keep_none] at hworld
  rw [input, hflush]
  simp only [hread]
  rcases hworld with ⟨rfl, hworld⟩ | ⟨rfl, hworld⟩
  · rw [world, hworld]
    cases latest <;> exact ⟨rfl, rfl, rfl, running, hreliable'⟩
  · rw [world, hworld]
    cases latest <;> exact ⟨.inr ⟨_, rfl, rfl⟩, rfl, hreliable'⟩

include hn running reliable in
/-- A block does what its operators do one by one. -/
theorem operate_spec (bounds : BoundsPolicy) (op : Operator) (count : Nat) :
    Agrees (m.operate bounds op count) (m.next + 1) (m.world.operateTimes op count) := by
  cases op with
  | increment =>
    rw [World.operateTimes_increment]
    exact ⟨rfl, rfl, rfl, running, reliable⟩
  | decrement =>
    rw [World.operateTimes_decrement]
    exact ⟨rfl, rfl, rfl, running, reliable⟩
  | moveRight =>
    have h := agrees_moveBy hn running reliable bounds .moveRight (.inl rfl) (fun _ => rfl) count
    rwa [Int.one_mul] at h
  | moveLeft =>
    have h := agrees_moveBy hn running reliable bounds .moveLeft (.inr rfl) (fun _ => rfl) count
    rwa [Int.neg_one_mul] at h
  | output => exact agrees_output running reliable count
  | input => exact agrees_input running reliable count

end

end Machine

end TapeMachine
