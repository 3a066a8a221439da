import TapeMachine.Proofs.Machine.Calls

/-!
# Runs, counted by their steps

`Steps job k m m'` says that the run from `m` goes on for `k` steps and has then come to `m'`. A run
that returns has made fewer such steps than it was allowed, and then one that ended it
(`execute_eq_some_iff`); a run that does not return has made all of them (`execute_eq_none_iff`).
What two runs have in common is therefore shown for one step, carried over to `Steps`, and read off
for `Machine.execute`.
-/

namespace TapeMachine

namespace Machine

variable {n : Nat} {σ : Type} {job : Job σ} {k fuel fuel' : Nat} {m m' m₁ m₂ : Machine n σ}

/-- The run goes on for `k` steps. -/
inductive Steps (job : Job σ) : Nat → Machine n σ → Machine n σ → Prop
  | nil {m : Machine n σ} : Steps job 0 m m
  | cons {k : Nat} {m m₁ m₂ : Machine n σ} (step : m.step job = (.ok none, m₁))
      (rest : Steps job k m₁ m₂) : Steps job (k + 1) m m₂

/-- The machine after `k` steps, whatever they answer. -/
def after (job : Job σ) : Nat → Machine n σ → Machine n σ
  | 0, m => m
  | k + 1, m => after job k (m.step job).2

theorem after_add (job : Job σ) (j k : Nat) (m : Machine n σ) :
    after job (j + k) m = after job k (after job j m) := by
  induction j generalizing m with
  | zero => rw [Nat.zero_add]; rfl
  | succ j ih => rw [Nat.succ_add, after, after, ih]

theorem after_succ (job : Job σ) (k : Nat) (m : Machine n σ) :
    after job (k + 1) m = ((after job k m).step job).2 :=
  after_add job k 1 m

theorem Steps.append {j : Nat} (h : Steps job j m m₁) (h' : Steps job k m₁ m₂) :
    Steps job (j + k) m m₂ := by
  induction h with
  | nil => rwa [Nat.zero_add]
  | cons step _ ih =>
    rw [Nat.succ_add]
    exact .cons step (ih h')

/-- The last of the steps, taken apart from the others. -/
theorem Steps.exists_last (h : Steps job (k + 1) m m₂) :
    ∃ m₁, Steps job k m m₁ ∧ m₁.step job = (.ok none, m₂) := by
  induction k generalizing m with
  | zero =>
    cases h with
    | cons step rest =>
      cases rest
      exact ⟨m, .nil, step⟩
  | succ k ih =>
    cases h with
    | cons step rest =>
      obtain ⟨m₁, hrest, hlast⟩ := ih rest
      exact ⟨m₁, .cons step hrest, hlast⟩

theorem Steps.preserves {P : Machine n σ → Prop}
    (hstep : ∀ m m', m.step job = (.ok none, m') → P m → P m') (h : Steps job k m m')
    (hm : P m) : P m' := by
  induction h with
  | nil => exact hm
  | cons step _ ih => exact ih (hstep _ _ step hm)

/-- A step with which the run goes on carries out an instruction, and that is counted. -/
theorem steps_of_goesOn (h : m.step job = (.ok none, m')) : m'.steps = m.steps + 1 := by
  have ht := transition_step job m
  rw [h] at ht
  cases ht with
  | goesOn _ _ _ _ steps => exact steps
  | leaves _ _ _ _ _ answer => cases hbounds : job.bounds <;> simp [hbounds] at answer

theorem status_of_goesOn (h : m.step job = (.ok none, m')) : m'.status = .running := by
  have ht := transition_step job m
  rw [h] at ht
  cases ht with
  | goesOn _ _ _ _ _ status => exact status
  | leaves _ _ _ _ _ answer => cases hbounds : job.bounds <;> simp [hbounds] at answer

theorem Steps.steps_eq (h : Steps job k m m') : m'.steps = m.steps + k := by
  induction h with
  | nil => rfl
  | cons step _ ih =>
    rw [ih, steps_of_goesOn step]
    omega

/-- The machine that a run comes to is the one after its steps. -/
theorem Steps.after_eq (h : Steps job k m m') : after job k m = m' := by
  induction h with
  | nil => rfl
  | cons step _ ih => rw [after, step, ih]

/-! ## Runs that return, and others -/

theorem execute_of_goesOn (h : m.step job = (.ok none, m₁)) (fuel : Nat) :
    m.execute job (fuel + 1) = m₁.execute job fuel := by
  rw [execute, h]

theorem execute_of_steps (h : Steps job k m m₁) (fuel : Nat) :
    m.execute job (k + fuel) = m₁.execute job fuel := by
  induction h with
  | nil => rw [Nat.zero_add]
  | cons step _ ih => rw [Nat.succ_add, execute_of_goesOn step, ih]

/-- A step that ends a run ends it with any fuel. -/
theorem execute_succ_of_execute_one {x : Except RuntimeError Halt × Machine n σ}
    (h : m.execute job 1 = some x) (fuel : Nat) : m.execute job (fuel + 1) = some x := by
  rcases hstep : m.step job with ⟨_ | _ | halt, m₁⟩
  · rw [execute, hstep] at h ⊢
    exact h
  · rw [execute_of_goesOn hstep] at h
    contradiction
  · rw [execute, hstep] at h ⊢
    exact h

/-- A run goes on for as many steps as it may take, or it is ended by the one after some of them. -/
theorem steps_or_ends (job : Job σ) (fuel : Nat) (m : Machine n σ) :
    (m.execute job fuel = none ∧ ∃ m', Steps job fuel m m') ∨
      ∃ x, m.execute job fuel = some x ∧
        ∃ k < fuel, ∃ m₁, Steps job k m m₁ ∧ m₁.execute job 1 = some x := by
  induction fuel generalizing m with
  | zero => exact .inl ⟨rfl, m, .nil⟩
  | succ fuel ih =>
    rcases hstep : m.step job with ⟨e | _ | halt, m₁⟩
    · have hends : ∀ fuel, m.execute job (fuel + 1) = some (.error e, m₁) := fun fuel => by
        rw [execute, hstep]
      exact .inr ⟨_, hends fuel, 0, Nat.zero_lt_succ _, m, .nil, hends 0⟩
    · rw [execute_of_goesOn hstep]
      rcases ih m₁ with ⟨hnone, m', hsteps⟩ | ⟨x, hx, k, hk, m₂, hsteps, hlast⟩
      · exact .inl ⟨hnone, m', .cons hstep hsteps⟩
      · exact .inr ⟨x, hx, k + 1, Nat.succ_lt_succ hk, m₂, .cons hstep hsteps, hlast⟩
    · have hends : ∀ fuel, m.execute job (fuel + 1) = some (m₁.finish halt) := fun fuel => by
        rw [execute, hstep]
      exact .inr ⟨_, hends fuel, 0, Nat.zero_lt_succ _, m, .nil, hends 0⟩

/-- A run that does not return has gone on for all the steps it was allowed. -/
theorem execute_eq_none_iff : m.execute job fuel = none ↔ ∃ m', Steps job fuel m m' := by
  constructor
  · intro h
    rcases steps_or_ends job fuel m with ⟨-, hsteps⟩ | ⟨x, hx, -⟩
    · exact hsteps
    · rw [h] at hx
      contradiction
  · rintro ⟨m', hsteps⟩
    exact execute_of_steps hsteps 0

/-- A run that returns has gone on for some steps, and the next one has ended it. -/
theorem execute_eq_some_iff {x : Except RuntimeError Halt × Machine n σ} :
    m.execute job fuel = some x ↔
      ∃ k < fuel, ∃ m₁, Steps job k m m₁ ∧ m₁.execute job 1 = some x := by
  constructor
  · intro h
    rcases steps_or_ends job fuel m with ⟨hnone, -⟩ | ⟨y, hy, hends⟩
    · rw [h] at hnone
      contradiction
    · obtain rfl := Option.some.inj (h.symm.trans hy)
      exact hends
  · rintro ⟨k, hk, m₁, hsteps, hlast⟩
    obtain ⟨extra, rfl⟩ := Nat.exists_eq_add_of_lt hk
    rw [Nat.add_assoc, execute_of_steps hsteps]
    exact execute_succ_of_execute_one hlast extra

/-- More fuel does not change what a run has returned. -/
theorem execute_mono {x : Except RuntimeError Halt × Machine n σ}
    (h : m.execute job fuel = some x) (hle : fuel ≤ fuel') : m.execute job fuel' = some x := by
  obtain ⟨k, hk, hends⟩ := execute_eq_some_iff.mp h
  exact execute_eq_some_iff.mpr ⟨k, Nat.lt_of_lt_of_le hk hle, hends⟩

/-- All that a run can return is one thing. -/
theorem execute_unique {x y : Except RuntimeError Halt × Machine n σ}
    (hx : m.execute job fuel = some x) (hy : m.execute job fuel' = some y) : x = y := by
  have hx' := execute_mono hx (Nat.le_max_left fuel fuel')
  have hy' := execute_mono hy (Nat.le_max_right fuel fuel')
  exact Option.some.inj (hx'.symm.trans hy')

end Machine

end TapeMachine
