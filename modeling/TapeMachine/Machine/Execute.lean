import TapeMachine.Machine.Step

/-!
# Runs

A run steps until the machine halts or fails, and then flushes the output. Programs need not end, so
`Machine.execute` is given the number of steps it may take at most and has no answer if that is too
small. A flush that fails at the end turns the halt into an error, but the machine stays halted.
-/

namespace TapeMachine

namespace Machine

variable {n : Nat} {σ : Type}

/-- The end of a run that has come to rest. -/
def finish (m : Machine n σ) (halt : Halt) : Except RuntimeError Halt × Machine n σ :=
  match m.streams.flush with
  | (none, streams) => (.ok halt, { m with streams })
  | (some fault, streams) => (.error (.stream m.next (.ofWrite fault)), { m with streams })

/-- Runs to the end, if it is reached in fewer than `fuel` steps. -/
def execute (job : Job σ) :
    (fuel : Nat) → Machine n σ → Option (Except RuntimeError Halt × Machine n σ)
  | 0, _ => none
  | fuel + 1, m =>
    match m.step job with
    | (.ok none, m) => execute job fuel m
    | (.ok (some halt), m) => some (m.finish halt)
    | (.error e, m) => some (.error e, m)

end Machine

end TapeMachine
