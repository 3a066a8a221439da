import TapeMachine.Proofs.Machine.HostState
import TapeMachine.Proofs.Machine.WithoutCalls

/-!
# Machines that are alike

Two machines are alike if nobody can tell them apart by their tapes and streams, wherever their runs
are looked at (`Machine.Alike`). They may keep different states for their hosts, count their steps
differently and have different indices: a host that keeps less makes no difference
(`alike_mapState`), nor do instructions that are replaced by others, or by none, that do the same
(`alike_expand`).
-/

namespace TapeMachine

namespace Machine

variable {n : Nat} {σ τ υ : Type} {job : Job σ} {job' : Job τ} {job₂ : Job υ} {m : Machine n σ}
  {m' : Machine n τ} {m₂ : Machine n υ}

/-- What is left of a run if indices do not count. -/
def unindexed (x : Except RuntimeError Halt × Machine n σ) : Remains n :=
  (remains x).renumber fun _ => 0

/-- On its way the second machine comes to all the tapes and streams that the first comes to. -/
def Reaches (job : Job σ) (job' : Job τ) (m : Machine n σ) (m' : Machine n τ) : Prop :=
  ∀ k m₁, Steps job k m m₁ →
    ∃ k' m₁', Steps job' k' m' m₁' ∧ m₁'.tape = m₁.tape ∧ m₁'.streams = m₁.streams

/-- Two machines do the same to the tape and to the streams: neither ends without the other, they
end alike, and on its way each comes to all that the other comes to. -/
structure Alike (job : Job σ) (job' : Job τ) (m : Machine n σ) (m' : Machine n τ) : Prop where
  ends : ∀ e, (∃ fuel, (m.execute job fuel).map unindexed = some e) ↔
    ∃ fuel, (m'.execute job' fuel).map unindexed = some e
  reaches : Reaches job job' m m'
  reached : Reaches job' job m' m

theorem Reaches.trans (h : Reaches job job' m m') (h' : Reaches job' job₂ m' m₂) :
    Reaches job job₂ m m₂ := by
  intro k m₁ hsteps
  obtain ⟨k', m₁', hsteps', htape, hstreams⟩ := h k m₁ hsteps
  obtain ⟨k₂, m₃, hsteps₂, htape', hstreams'⟩ := h' k' m₁' hsteps'
  exact ⟨k₂, m₃, hsteps₂, htape'.trans htape, hstreams'.trans hstreams⟩

theorem Alike.refl (job : Job σ) (m : Machine n σ) : Alike job job m m :=
  ⟨fun _ => .rfl, fun k m₁ h => ⟨k, m₁, h, rfl, rfl⟩, fun k m₁ h => ⟨k, m₁, h, rfl, rfl⟩⟩

theorem Alike.symm (h : Alike job job' m m') : Alike job' job m' m :=
  ⟨fun e => (h.ends e).symm, h.reached, h.reaches⟩

theorem Alike.trans (h : Alike job job' m m') (h' : Alike job' job₂ m' m₂) :
    Alike job job₂ m m₂ :=
  ⟨fun e => (h.ends e).trans (h'.ends e), h.reaches.trans h'.reaches, h'.reached.trans h.reached⟩

/-- A host that keeps less makes no difference. -/
theorem alike_mapState {host : Host τ} {f : σ → τ} (keeps : job.host.Keeps host f)
    (m : Machine n σ) : Alike job (job.withHost host) m (m.mapState f) where
  ends e := by
    have hsame : ∀ fuel, ((m.mapState f).execute (job.withHost host) fuel).map unindexed =
        (m.execute job fuel).map unindexed := by
      intro fuel
      rw [execute_mapState keeps, Option.map_map]
      rfl
    simp only [hsame]
  reaches k m₁ h := ⟨k, m₁.mapState f, h.mapState keeps, rfl, rfl⟩
  reached k m₁' h := by
    obtain ⟨m₁, hsteps, rfl⟩ := h.of_mapState keeps
    exact ⟨k, m₁, hsteps, rfl, rfl⟩

/-- Nor does it make a difference if instructions are replaced by what does the same. -/
theorem alike_expand {X : Instruction → List Instruction} (linked : job.program.WellLinked)
    (nolimit : job.maxSteps = none) (replaces : Replaces X job n)
    (narrow : ∀ x : Instruction, x.width X ≤ 1) (m : Machine n σ) :
    Alike job (job.expand X) m (m.renumber (job.program.place X) m.steps) where
  ends e := by
    have hends : ∀ steps (x : Except RuntimeError Halt × Machine n σ),
        unindexed x = unindexed (renumberEnd (job.program.place X) steps x) := fun steps x =>
      (renumber_remains_renumberEnd (job.program.place X) steps x).symm
    exact execute_iff_of_follows (follows_expand linked nolimit replaces hends) ⟨m.steps, rfl⟩
  reaches k m₁ h := by
    obtain ⟨k', steps', hsteps⟩ := h.expand linked nolimit replaces m.steps
    exact ⟨k', _, hsteps, rfl, rfl⟩
  reached k m₁' h := by
    obtain ⟨k', m₁, steps', hsteps, rfl⟩ := h.of_expand linked nolimit replaces narrow
    exact ⟨k', m₁, hsteps, rfl, rfl⟩

end Machine

end TapeMachine
