import TapeMachine.Machine.Streams

/-!
# Streams that do not fail

If the input only delivers data and the output takes everything, all that matters of streams is
which bytes have not been read and which were written. This module says so for each operation.
-/

namespace TapeMachine

/-- The bytes that an event of the input delivers. -/
def ReadEvent.bytes : ReadEvent → List UInt8
  | data bytes => bytes
  | _ => []

/-- Input that delivers data until it is at its end. -/
def OnlyData (reads : List ReadEvent) : Prop := ∀ e ∈ reads, ∃ bytes, e = .data bytes

theorem takeByte_of_nil {reads : List ReadEvent} (h : OnlyData reads)
    (hbytes : reads.flatMap ReadEvent.bytes = []) : takeByte reads = (.error .endOfInput, []) := by
  induction reads with
  | nil => rfl
  | cons e reads ih =>
    obtain ⟨bytes, rfl⟩ := h e List.mem_cons_self
    obtain ⟨rfl, hrest⟩ := List.append_eq_nil_iff.mp hbytes
    exact ih (fun e he => h e (List.mem_cons_of_mem _ he)) hrest

theorem takeByte_of_cons {reads : List ReadEvent} (h : OnlyData reads) {b : UInt8}
    {rest : List UInt8} (hbytes : reads.flatMap ReadEvent.bytes = b :: rest) :
    ∃ reads', takeByte reads = (.ok b, reads') ∧ OnlyData reads' ∧
      reads'.flatMap ReadEvent.bytes = rest := by
  induction reads with
  | nil => contradiction
  | cons e reads ih =>
    obtain ⟨bytes, rfl⟩ := h e List.mem_cons_self
    have hreads : OnlyData reads := fun e he => h e (List.mem_cons_of_mem _ he)
    cases bytes with
    | nil => exact ih hreads hbytes
    | cons c bytes =>
      obtain ⟨rfl, hrest⟩ := List.cons.inj hbytes
      refine ⟨_, rfl, fun e he => ?_, hrest⟩
      rcases List.mem_cons.mp he with rfl | he
      · exact ⟨bytes, rfl⟩
      · exact hreads e he

namespace Streams

def unread (s : Streams) : List UInt8 := s.reads.flatMap ReadEvent.bytes

/-- Streams that only fail when the input is at its end. -/
structure Reliable (s : Streams) : Prop where
  reads : OnlyData s.reads
  writes : s.writes = []
  flushes : s.flushes = []

variable {s : Streams}

theorem Reliable.ofChunks (chunks : List (List UInt8)) :
    Reliable { reads := chunks.map .data } where
  reads e he := by
    obtain ⟨bytes, -, rfl⟩ := List.mem_map.mp he
    exact ⟨bytes, rfl⟩
  writes := rfl
  flushes := rfl

theorem unread_ofChunks (chunks : List (List UInt8)) :
    unread { reads := chunks.map .data } = chunks.flatten := by
  rw [unread, List.flatMap_map]
  exact List.flatMap_id'

theorem Reliable.read_of_nil (h : s.Reliable) (hs : s.unread = []) :
    ∃ s', s.read = (.error .endOfInput, s') ∧ s'.Reliable ∧ s'.unread = [] ∧
      s'.output = s.output := by
  have htake := takeByte_of_nil h.reads hs
  refine ⟨s.read.2, by simp [read, htake], ?_, ?_, output_read s⟩
  · simp only [read, htake]
    exact ⟨fun e he => by contradiction, h.writes, h.flushes⟩
  · simp [read, htake, unread]

theorem Reliable.read_of_cons (h : s.Reliable) {b : UInt8} {rest : List UInt8}
    (hs : s.unread = b :: rest) :
    ∃ s', s.read = (.ok b, s') ∧ s'.Reliable ∧ s'.unread = rest ∧ s'.output = s.output := by
  obtain ⟨reads', htake, hdata, hrest⟩ := takeByte_of_cons h.reads hs
  refine ⟨s.read.2, by simp [read, htake], ?_, ?_, output_read s⟩
  · simp only [read, htake]
    exact ⟨hdata, h.writes, h.flushes⟩
  · simp [read, htake, unread, hrest]

theorem Reliable.write (h : s.Reliable) (b : UInt8) :
    ∃ s', s.write b = (none, s') ∧ s'.Reliable ∧ s'.unread = s.unread ∧
      s'.output = s.output ++ [b] := by
  have houtput := output_write s b
  refine ⟨(s.write b).2, ?_, ?_, ?_, ?_⟩
  all_goals simp only [Streams.write, h.writes, deliverByte] at houtput ⊢
  · exact ⟨h.reads, rfl, h.flushes⟩
  · rfl
  · exact houtput

theorem Reliable.flush (h : s.Reliable) :
    ∃ s', s.flush = (none, s') ∧ s'.Reliable ∧ s'.unread = s.unread ∧ s'.output = s.output := by
  refine ⟨s.flush.2, ?_, ?_, ?_, output_flush s⟩
  all_goals simp only [Streams.flush, h.flushes]
  · exact ⟨h.reads, h.writes, rfl⟩
  · rfl

theorem Reliable.writeTimes (h : s.Reliable) (b : UInt8) (count : Nat) :
    ∃ s', s.writeTimes b count = (none, s') ∧ s'.Reliable ∧ s'.unread = s.unread ∧
      s'.output = s.output ++ List.replicate count b := by
  induction count generalizing s with
  | zero => exact ⟨s, rfl, h, rfl, by simp⟩
  | succ count ih =>
    obtain ⟨s₁, hwrite, h₁, hunread₁, houtput₁⟩ := h.write b
    obtain ⟨s₂, hrest, h₂, hunread₂, houtput₂⟩ := ih h₁
    refine ⟨s₂, ?_, h₂, hunread₂.trans hunread₁, ?_⟩
    · rw [Streams.writeTimes, hwrite]
      exact hrest
    · rw [houtput₂, houtput₁, List.append_assoc, List.singleton_append, List.replicate_succ]

end Streams

end TapeMachine
