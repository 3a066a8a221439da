import TapeMachine.Proofs.Source.Cut
import TapeMachine.Proofs.Source.Interpreter

/-!
# An interpretation, lexeme by lexeme

The interpreter walks over characters, but when it stands in front of a lexeme it comes to stand
behind it, or at the other end of a loop. This module says where each lexeme leads to, and how
steps of an interpretation make up its run (`ends_iff_run`).
-/

namespace TapeMachine

variable {n : Nat} {σ : Type} {calls : Bool}

/-- Carries out one operator `count` times, up to the first failure. -/
def World.operateTimes (op : Operator) :
    (count : Nat) → World n σ → Except (Conclusion × World n σ) (World n σ)
  | 0, x => .ok x
  | count + 1, x =>
    match x.operate op with
    | .ok x => x.operateTimes op count
    | .error e => .error (e, x)

namespace Interpreter

variable {host : Host σ} {source : List Char} {x y z : Interpreter n σ}

/-! ## Steps, by the character that is next -/

theorem step_of_end (h : source.drop x.position = []) :
    x.step calls host source = .error .completed := by
  simp [step, h]

theorem step_of_symbol {op : Operator} {rest : List Char}
    (h : source.drop x.position = op.symbol :: rest) :
    x.step calls host source = x.act op := by
  cases op <;> simp [step, h, Operator.symbol]

theorem step_of_opening {rest : List Char} (h : source.drop x.position = '[' :: rest) :
    x.step calls host source =
      .ok (x.pass (if x.world.tape.current = 0 then gap '[' ']' 0 rest + 2 else 1)) := by
  simp [step, h]

theorem step_of_closing {rest : List Char} (h : source.drop x.position = ']' :: rest) :
    x.step calls host source =
      .ok { x with
        position := x.position - (gap ']' '[' 0 (source.take x.position).reverse + 1) } := by
  simp [step, h]

theorem step_of_other {c : Char} {rest : List Char} (h : source.drop x.position = c :: rest)
    (noOperator : Operator.ofSymbol? c = none) (noOpening : c ≠ '[') (noClosing : c ≠ ']') :
    x.step calls host source =
      if c = '\x7b' ∧ calls then
        match callBehindBrace? rest with
        | some (letters, digits) => .ok (x.call host letters digits)
        | none => .ok (x.pass 1)
      else .ok (x.pass 1) := by
  unfold step
  rw [h]
  split
  case h_10 heq =>
    obtain ⟨rfl, rfl⟩ := List.cons.inj heq
    rfl
  all_goals simp_all [Operator.ofSymbol?]

/-! ## Places between lexemes -/

/-- The interpreter stands behind the lexemes `pre` of the source and in front of `post`. -/
structure At (calls : Bool) (source : List Char) (x : Interpreter n σ) (pre post : List Lexeme) :
    Prop where
  split : lexemes calls source = pre ++ post
  position : x.position = (textOf pre).length

namespace At

variable {pre post : List Lexeme}

theorem source_eq (h : At calls source x pre post) : source = textOf pre ++ textOf post := by
  rw [← textOf_append, ← h.split, textOf_lexemes]

theorem drop_eq (h : At calls source x pre post) : source.drop x.position = textOf post := by
  rw [h.position, h.source_eq, List.drop_left]

theorem take_eq (h : At calls source x pre post) : source.take x.position = textOf pre := by
  rw [h.position, h.source_eq, List.take_left]

theorem cut (h : At calls source x pre post) : Cut calls post :=
  (h.split ▸ cut_lexemes calls source).of_append.2

theorem wellFormed (h : At calls source x pre post) {l : Lexeme} (hl : l ∈ pre ++ post) :
    l.WellFormed :=
  wellFormed_of_mem_lexemes (h.split ▸ hl)

theorem behind {w : List Lexeme} (h : At calls source x pre (w ++ post))
    (hy : y.position = x.position + (textOf w).length) : At calls source y (pre ++ w) post where
  split := by rw [h.split, List.append_assoc]
  position := by rw [hy, h.position, textOf_append, List.length_append]

theorem behind_one {l : Lexeme} (h : At calls source x pre (l :: post))
    (hy : y.position = x.position + l.text.length) : At calls source y (pre ++ [l]) post :=
  h.behind (w := [l]) (by simpa using hy)

/-! ## Steps, by the lexeme that is next -/

theorem step_end (h : At calls source x pre []) : x.step calls host source = .error .completed :=
  step_of_end h.drop_eq

theorem step_comment {c : Char} (h : At calls source x pre (.comment c :: post)) (host : Host σ) :
    x.step calls host source = .ok (x.pass 1) ∧
      At calls source (x.pass 1) (pre ++ [.comment c]) post := by
  refine ⟨?_, h.behind_one rfl⟩
  obtain ⟨noOperator, noOpening, noClosing, noCall⟩ := h.cut.1
  have hdrop : source.drop x.position = c :: textOf post := h.drop_eq
  rw [step_of_other hdrop noOperator noOpening noClosing]
  split
  · next hbrace => rw [callBehindBrace?_eq, noCall hbrace]; rfl
  · rfl

theorem step_call {letters digits : List Char}
    (h : At calls source x pre (.call letters digits :: post)) (host : Host σ) :
    x.step calls host source = .ok (x.call host letters digits) ∧
      At calls source (x.call host letters digits) (pre ++ [.call letters digits]) post := by
  constructor
  · obtain ⟨hcalls, hends⟩ := h.cut.1
    have hcall : Lexeme.call? (letters ++ '\x7d' :: (digits ++ textOf post)) =
        some (letters, digits, textOf post) := Lexeme.call?_eq_some_iff.mpr ⟨rfl, hends⟩
    have hdrop : source.drop x.position =
        '\x7b' :: (letters ++ '\x7d' :: (digits ++ textOf post)) := by
      rw [h.drop_eq]
      simp [Lexeme.text, Lexeme.bracedName]
    rw [step_of_other hdrop rfl (by decide) (by decide), if_pos ⟨rfl, hcalls⟩,
      callBehindBrace?_eq, hcall]
    rfl
  · refine h.behind_one ?_
    simp [call, Lexeme.text, Lexeme.bracedName]
    omega

theorem step_opening_zero {body : List Lexeme}
    (h : At calls source x pre (.opening :: (body ++ .closing :: post))) (host : Host σ)
    (inside : Nested body) (hzero : x.world.tape.current = 0) :
    ∃ y, x.step calls host source = .ok y ∧ y.world = x.world ∧
      At calls source y (pre ++ .opening :: (body ++ [.closing])) post := by
  have hbody : ∀ l ∈ body, l.WellFormed := fun l hl => h.wellFormed (by simp [hl])
  have hgap : gap '[' ']' 0 (textOf (body ++ .closing :: post)) = (textOf body).length := by
    rw [textOf_append, gap_forward inside hbody]
    simp [Lexeme.text, gap]
  have hdrop : source.drop x.position = '[' :: textOf (body ++ .closing :: post) := h.drop_eq
  refine ⟨_, step_of_opening hdrop, rfl, ?_⟩
  refine At.behind (w := .opening :: (body ++ [.closing])) (by simpa using h) ?_
  rw [if_pos hzero, hgap]
  simp [pass, Lexeme.text]

theorem step_opening_nonzero (h : At calls source x pre (.opening :: post)) (host : Host σ)
    (hzero : x.world.tape.current ≠ 0) :
    ∃ y, x.step calls host source = .ok y ∧ y.world = x.world ∧
      At calls source y (pre ++ [.opening]) post := by
  refine ⟨_, step_of_opening h.drop_eq, rfl, h.behind_one ?_⟩
  rw [if_neg hzero]
  rfl

theorem step_closing {front body : List Lexeme}
    (h : At calls source x (front ++ .opening :: body) (.closing :: post)) (host : Host σ)
    (inside : Nested body) :
    ∃ y, x.step calls host source = .ok y ∧ y.world = x.world ∧
      At calls source y front (.opening :: (body ++ .closing :: post)) := by
  have hbody : ∀ l ∈ body, l.WellFormed := fun l hl => h.wellFormed (by simp [hl])
  have hgap : gap ']' '[' 0 (textOf (front ++ .opening :: body)).reverse =
      (textOf body).length := by
    simp [Lexeme.text, gap_backward inside hbody, gap]
  refine ⟨_, step_of_closing h.drop_eq, rfl, by simpa using h.split, ?_⟩
  have hposition := h.position
  rw [h.take_eq, hgap]
  simp only [textOf_append, textOf_cons, Lexeme.text, List.length_append, List.length_cons,
    List.length_nil] at hposition ⊢
  omega

end At

/-! ## Many steps -/

def Leads (calls : Bool) (host : Host σ) (source : List Char) (x y : Interpreter n σ) : Prop :=
  x.step calls host source = .ok y

/-- Steps lead from `x` to `y`, and none leads on from there. -/
structure Ends (calls : Bool) (host : Host σ) (source : List Char) (x : Interpreter n σ)
    (e : Conclusion) (y : Interpreter n σ) : Prop where
  reaches : Relation.ReflTransGen (Leads calls host source) x y
  stops : y.step calls host source = .error e

theorem Ends.of_reaches {e : Conclusion}
    (h : Relation.ReflTransGen (Leads calls host source) x y) (hy : Ends calls host source y e z) :
    Ends calls host source x e z :=
  ⟨h.trans hy.reaches, hy.stops⟩

/-- A run returns what the steps of an interpretation end with. -/
theorem ends_iff_run {e : Conclusion} :
    Ends calls host source x e y ↔ ∃ fuel, run calls host source fuel x = some (e, y) := by
  constructor
  · rintro ⟨hreaches, hstops⟩
    induction hreaches using Relation.ReflTransGen.head_induction_on with
    | refl => exact ⟨1, by rw [run, hstops]⟩
    | head hstep _ ih =>
      obtain ⟨fuel, hfuel⟩ := ih
      rw [Leads] at hstep
      exact ⟨fuel + 1, by rw [run, hstep]; exact hfuel⟩
  · rintro ⟨fuel, hfuel⟩
    induction fuel generalizing x with
    | zero => contradiction
    | succ fuel ih =>
      rw [run] at hfuel
      split at hfuel
      · next x' hstep => exact .of_reaches (.single hstep) (ih hfuel)
      · next e' hstep =>
        simp only [Option.some.injEq, Prod.mk.injEq] at hfuel
        obtain ⟨rfl, rfl⟩ := hfuel
        exact ⟨.refl, hstep⟩

/-- A run is shorter from a place that it comes by later. -/
theorem run_of_transGen (h : Relation.TransGen (Leads calls host source) x y) {fuel : Nat}
    {result : Conclusion × Interpreter n σ} (hrun : run calls host source fuel x = some result) :
    ∃ fuel' < fuel, run calls host source fuel' y = some result := by
  induction h using Relation.TransGen.head_induction_on generalizing fuel with
  | single hstep =>
    cases fuel with
    | zero => contradiction
    | succ fuel =>
      rw [Leads] at hstep
      rw [run, hstep] at hrun
      exact ⟨fuel, Nat.lt_succ_self fuel, hrun⟩
  | head hstep _ ih =>
    cases fuel with
    | zero => contradiction
    | succ fuel =>
      rw [Leads] at hstep
      rw [run, hstep] at hrun
      obtain ⟨fuel', hlt, hrun'⟩ := ih hrun
      exact ⟨fuel', by omega, hrun'⟩

theorem Ends.unique {e e' : Conclusion} (h : Ends calls host source x e y)
    (h' : Ends calls host source x e' z) : e = e' ∧ y = z := by
  obtain ⟨hreaches, hstops⟩ := h
  induction hreaches using Relation.ReflTransGen.head_induction_on with
  | refl =>
    rcases h'.reaches.cases_head with rfl | ⟨w, hstep, -⟩
    · exact ⟨Except.error.inj (hstops.symm.trans h'.stops), rfl⟩
    · exact absurd (hstops.symm.trans hstep) (by simp)
  | head hstep _ ih =>
    rcases h'.reaches.cases_head with rfl | ⟨w, hstep', hrest⟩
    · exact absurd (h'.stops.symm.trans hstep) (by simp)
    · obtain rfl := Except.ok.inj (hstep.symm.trans hstep')
      exact ih ⟨hrest, h'.stops⟩

/-! ## Blocks -/

theorem leads_of_operate {op : Operator} {rest : List Char} {w : World n σ}
    (hdrop : source.drop x.position = op.symbol :: rest) (hw : x.world.operate op = .ok w) :
    Leads calls host source x ⟨x.position + 1, w⟩ := by
  rw [Leads, step_of_symbol hdrop, act, hw]
  rfl

theorem drop_behind {op : Operator} {count : Nat} {rest : List Char}
    (hdrop : source.drop x.position = List.replicate (count + 1) op.symbol ++ rest) :
    source.drop (x.position + 1) = List.replicate count op.symbol ++ rest := by
  rw [← List.drop_drop, hdrop]
  rfl

theorem reaches_of_operateTimes {op : Operator} {count : Nat} {rest : List Char} {w : World n σ}
    (hdrop : source.drop x.position = List.replicate count op.symbol ++ rest)
    (hw : x.world.operateTimes op count = .ok w) :
    Relation.ReflTransGen (Leads calls host source) x ⟨x.position + count, w⟩ := by
  induction count generalizing x with
  | zero =>
    obtain rfl := Except.ok.inj hw
    exact .refl
  | succ count ih =>
    rw [World.operateTimes] at hw
    split at hw
    · next v hv =>
      have hrest := ih (x := ⟨x.position + 1, v⟩) (drop_behind hdrop) hw
      rw [Nat.add_right_comm, Nat.add_assoc] at hrest
      exact .head (leads_of_operate hdrop hv) hrest
    · contradiction

theorem ends_of_operateTimes {op : Operator} {count : Nat} {rest : List Char} {e : Conclusion}
    {w : World n σ} (hdrop : source.drop x.position = List.replicate count op.symbol ++ rest)
    (hw : x.world.operateTimes op count = .error (e, w)) :
    ∃ y, Ends calls host source x e y ∧ y.world = w := by
  induction count generalizing x with
  | zero => contradiction
  | succ count ih =>
    rw [World.operateTimes] at hw
    split at hw
    · next v hv =>
      obtain ⟨y, hends, hy⟩ := ih (x := ⟨x.position + 1, v⟩) (drop_behind hdrop) hw
      exact ⟨y, .of_reaches (.single (leads_of_operate hdrop hv)) hends, hy⟩
    · next e' hv =>
      simp only [Except.error.injEq, Prod.mk.injEq] at hw
      obtain ⟨rfl, rfl⟩ := hw
      refine ⟨x, ⟨.refl, ?_⟩, rfl⟩
      rw [step_of_symbol hdrop, act, hv]
      rfl

namespace At

variable {pre post : List Lexeme} {op : Operator} {count : Nat}

theorem leads_run {w : World n σ} (h : At calls source x pre (.run op count :: post))
    (hw : x.world.operateTimes op count = .ok w) :
    ∃ y, Relation.TransGen (Leads calls host source) x y ∧ y.world = w ∧
      At calls source y (pre ++ [.run op count]) post := by
  have hpos : 0 < count := by
    have hwf := h.wellFormed (l := .run op count) (by simp)
    cases hwf with
    | run _ pos => exact pos
  have hreaches : Relation.ReflTransGen (Leads calls host source) x ⟨x.position + count, w⟩ :=
    reaches_of_operateTimes h.drop_eq hw
  refine ⟨⟨x.position + count, w⟩, ?_, rfl, h.behind_one (by simp [Lexeme.text])⟩
  -- The place has changed, so there was a step.
  rcases Relation.reflTransGen_iff_eq_or_transGen.mp hreaches with hsame | hsteps
  · have := congrArg Interpreter.position hsame
    simp only at this
    omega
  · exact hsteps

theorem ends_run {e : Conclusion} {w : World n σ}
    (h : At calls source x pre (.run op count :: post))
    (hw : x.world.operateTimes op count = .error (e, w)) :
    ∃ y, Ends calls host source x e y ∧ y.world = w :=
  ends_of_operateTimes h.drop_eq hw

end At

end Interpreter

end TapeMachine
