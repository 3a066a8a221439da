import TapeMachine.Proofs.Machine.Steps

/-!
# Machines that follow one another

Two runs can come to the same without going step by step. It is enough that the second machine
follows the first: to each step with which the first goes on it takes some steps, or it waits while
the first gets somewhere, and it ends when the first does (`Follows`). Then neither run ends without
the other (`execute_iff_of_follows`).
-/

namespace TapeMachine

namespace Machine

variable {n n' : Nat} {σ τ α : Type} {job : Job σ} {job' : Job τ} {k fuel : Nat}

/-- From machines that `R` relates the second follows the first. When the second waits, the first
comes nearer to something, as `left` tells; and `f` makes the same of its end as `g` of that of the
second. -/
def Follows (job : Job σ) (job' : Job τ) (R : Machine n σ → Machine n' τ → Prop)
    (left : Machine n σ → Nat) (f : Except RuntimeError Halt × Machine n σ → α)
    (g : Except RuntimeError Halt × Machine n' τ → α) : Prop :=
  ∀ ⦃m m'⦄, R m m' →
    (∃ m₁ k m₁', m.step job = (.ok none, m₁) ∧ Steps job' k m' m₁' ∧ R m₁ m₁' ∧
      (0 < k ∨ left m₁ < left m)) ∨
    ∃ x x', m.execute job 1 = some x ∧ m'.execute job' 1 = some x' ∧ f x = g x'

/-- A run that returns has fuel for all the steps that it takes before. -/
theorem Steps.exists_fuel {m m₁ : Machine n σ} (h : Steps job k m m₁)
    {x : Except RuntimeError Halt × Machine n σ} (hx : m.execute job fuel = some x) :
    ∃ rest, fuel = k + rest ∧ m₁.execute job rest = some x := by
  induction h generalizing fuel with
  | nil => exact ⟨fuel, (Nat.zero_add fuel).symm, hx⟩
  | cons step _ ih =>
    cases fuel with
    | zero => contradiction
    | succ fuel =>
      rw [execute_of_goesOn step] at hx
      obtain ⟨rest, rfl, hrest⟩ := ih hx
      exact ⟨rest, Nat.add_right_comm .., hrest⟩

section

variable {R : Machine n σ → Machine n' τ → Prop} {left : Machine n σ → Nat}
  {f : Except RuntimeError Halt × Machine n σ → α} {g : Except RuntimeError Halt × Machine n' τ → α}
  {m : Machine n σ} {m' : Machine n' τ} {e : α}
  (follows : Follows job job' R left f g)

include follows

theorem execute_of_follows (hm : R m m') (h : (m.execute job fuel).map f = some e) :
    ∃ fuel', (m'.execute job' fuel').map g = some e := by
  induction fuel generalizing m m' with
  | zero => contradiction
  | succ fuel ih =>
    rcases follows hm with ⟨m₁, k, m₁', hstep, hsteps, hm₁, -⟩ | ⟨x, x', hx, hx', hsame⟩
    · rw [execute_of_goesOn hstep] at h
      obtain ⟨fuel', h⟩ := ih hm₁ h
      exact ⟨k + fuel', by rw [execute_of_steps hsteps]; exact h⟩
    · rw [execute_succ_of_execute_one hx] at h
      exact ⟨1, by rw [hx', ← h, Option.map_some, Option.map_some, hsame]⟩

theorem execute_of_followed (hm : R m m') (h : (m'.execute job' fuel).map g = some e) :
    ∃ fuel', (m.execute job fuel').map f = some e := by
  induction fuel using Nat.strongRecOn generalizing m m' with
  | ind fuel ih =>
    -- While the second machine waits, the first comes nearer to what `left` counts down to.
    induction hleft : left m using Nat.strongRecOn generalizing m m' with
    | ind count ihleft =>
      rcases follows hm with ⟨m₁, k, m₁', hstep, hsteps, hm₁, hpos⟩ | ⟨x, x', hx, hx', hsame⟩
      · obtain ⟨x', hx', hobserved⟩ := Option.map_eq_some_iff.mp h
        obtain ⟨rest, rfl, hrest⟩ := hsteps.exists_fuel hx'
        have hlater : (m₁'.execute job' rest).map g = some e := by
          rw [hrest, ← hobserved]
          rfl
        have ⟨fuel', hfuel'⟩ : ∃ fuel', (m₁.execute job fuel').map f = some e := by
          rcases Nat.eq_zero_or_pos k with rfl | hk
          · rw [Nat.zero_add] at ih ihleft
            have hless : left m₁ < left m := hpos.resolve_left (Nat.lt_irrefl 0)
            exact ihleft (left m₁) (hleft ▸ hless) hm₁ hlater rfl
          · exact ih rest (Nat.lt_add_of_pos_left hk) hm₁ hlater
        exact ⟨fuel' + 1, by rw [execute_of_goesOn hstep]; exact hfuel'⟩
      · obtain ⟨y, hy, hobserved⟩ := Option.map_eq_some_iff.mp h
        obtain rfl := execute_unique hx' hy
        exact ⟨1, by rw [hx, ← hobserved, ← hsame]; rfl⟩

/-- Of two machines, one of which follows the other, both run forever or both end alike. -/
theorem execute_iff_of_follows (hm : R m m') :
    (∃ fuel, (m.execute job fuel).map f = some e) ↔
      ∃ fuel, (m'.execute job' fuel).map g = some e := by
  constructor
  · rintro ⟨_, h⟩
    exact execute_of_follows follows hm h
  · rintro ⟨_, h⟩
    exact execute_of_followed follows hm h

end

end Machine

end TapeMachine
