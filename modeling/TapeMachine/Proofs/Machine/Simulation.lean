import TapeMachine.Proofs.Machine.Blocks
import TapeMachine.Proofs.Program.Places

/-!
# Programs mean what their sources say

A machine that runs a compiled program is followed by an interpreter of the source. One instruction
is one or more steps of the interpreter: comments are passed over, blocks are gone through, and at
the end of a loop the interpreter goes back to its start and tests the cell again. Both always stand
between the same lexemes with the same tape, streams and state (`Match`), and so neither ends
without the other (`observe_execute_iff_run`).
-/

namespace TapeMachine

open Interpreter (At Leads Ends)

variable {n : Nat} {σ : Type} {host : Host σ} {calls : Bool} {source : List Char} {job : Job σ}

/-- What a call is given if the digits behind it are `digits`. -/
theorem getD_argument? (digits : List Char) :
    (argument? digits).getD 0 =
      if decimalValue digits ≤ Int64.maxValue.toInt then Int64.ofNat (decimalValue digits)
      else 0 := by
  have hmax : (maxArgument : Int) = Int64.maxValue.toInt := rfl
  simp only [argument?]
  by_cases h : decimalValue digits ≤ maxArgument
  · rw [if_pos h, if_pos (by omega)]
    rfl
  · rw [if_neg h, if_neg (by omega)]
    rfl

/-- A running machine and an interpreter that stand between the lexemes `pre` and `post`. -/
structure Match (calls : Bool) (source : List Char) (m : Machine n σ) (x : Interpreter n σ)
    (pre post : List Lexeme) : Prop where
  place : At calls source x pre post
  next_eq : m.next = codeSize pre
  world_eq : m.world = x.world
  running : m.status = .running
  reliable : m.streams.Reliable

/-- What a step of the machine comes to: the interpreter follows it to the next place, or they both
end. -/
def Followed (calls : Bool) (host : Host σ) (source : List Char) (x : Interpreter n σ)
    (r : StepResult × Machine n σ) : Prop :=
  (∃ y pre post, Relation.TransGen (Leads calls host source) x y ∧ r.1 = .ok none ∧
    Match calls source r.2 y pre post) ∨
  ∃ e y, Ends calls host source x e y ∧ Machine.ComesToRest r e y.world

theorem Followed.of_leads {x y : Interpreter n σ} {r : StepResult × Machine n σ}
    (hxy : Leads calls host source x y) (h : Followed calls host source y r) :
    Followed calls host source x r := by
  rcases h with ⟨z, pre, post, hsteps, hanswer, hmatch⟩ | ⟨e, z, hends, hrest⟩
  · exact .inl ⟨z, pre, post, .head hxy hsteps, hanswer, hmatch⟩
  · exact .inr ⟨e, z, .of_reaches (.single hxy) hends, hrest⟩

theorem Followed.of_goesOn {x y : Interpreter n σ} {r : StepResult × Machine n σ}
    {pre post : List Lexeme} (hxy : Relation.TransGen (Leads calls host source) x y)
    (hy : At calls source y pre post) (h : Machine.GoesOn r (codeSize pre) y.world) :
    Followed calls host source x r :=
  .inl ⟨y, pre, post, hxy, h.answer, hy, h.next_eq, h.world_eq, h.status, h.reliable⟩

namespace Match

variable {m : Machine n σ} {x : Interpreter n σ} {pre post : List Lexeme}

section

variable (h : Match calls source m x pre post) (nolimit : job.maxSteps = none)

include h nolimit in
theorem step_eq {i : Instruction} (here : job.program.instructions[codeSize pre]? = some i) :
    m.step job = { m with steps := m.steps + 1 }.perform job i := by
  refine Machine.step_of_instruction h.running (h.next_eq ▸ here) ?_
  rw [Machine.limitReached?, nolimit]
  rfl

include h nolimit in
/-- A bracket changes nothing but the place. -/
theorem goesOn_bracket {i : Instruction} (here : job.program.instructions[codeSize pre]? = some i)
    (bracket : (∃ close, i = .loopOpen close) ∨ ∃ opening, i = .loopClose opening) {next : Nat}
    (hnext : m.successor i = next) : Machine.GoesOn (m.step job) next x.world := by
  subst hnext
  rw [h.step_eq nolimit here, ← h.world_eq]
  rcases bracket with ⟨close, rfl⟩ | ⟨opening, rfl⟩ <;> by_cases hzero : m.tape.current = 0
  all_goals
    simp only [Machine.perform, Machine.successor, hzero, if_true, if_false]
    exact ⟨rfl, rfl, rfl, h.running, h.reliable⟩

end

theorem followed_end (h : Match calls source m x pre [])
    (hsegment : Segment job.program 0 (lexemes calls source) job.program.size) :
    Followed calls host source x (m.step job) := by
  have hlast : job.program.instructions[m.next]? = none := by
    have hsize := hsegment.end_eq
    rw [h.place.split, List.append_nil, Nat.zero_add, ← h.next_eq] at hsize
    rw [← hsize]
    exact Array.getElem?_eq_none (Nat.le_refl _)
  rw [Machine.step_of_end h.running hlast]
  refine .inr ⟨.completed, x, ⟨.refl, h.place.step_end⟩, .inl ⟨_, rfl, rfl⟩, ?_, h.reliable⟩
  rw [← h.world_eq]
  rfl

theorem followed_run {op : Operator} {count : Nat}
    (h : Match calls source m x pre (.run op count :: post)) (hn : n ≤ Int64.maxValue.toInt)
    (nolimit : job.maxSteps = none)
    (here : job.program.instructions[codeSize pre]? = some (.run op count)) :
    Followed calls host source x (m.step job) := by
  have hspec : Machine.Agrees (m.step job) (m.next + 1) (x.world.operateTimes op count) := by
    rw [h.step_eq nolimit here, ← h.world_eq]
    exact Machine.operate_spec (m := { m with steps := m.steps + 1 }) hn h.running h.reliable
      job.bounds op count
  cases hw : x.world.operateTimes op count with
  | ok w =>
    rw [hw] at hspec
    obtain ⟨y, hsteps, rfl, hy⟩ := h.place.leads_run hw
    refine .of_goesOn hsteps hy ?_
    rw [codeSize_append, ← h.next_eq]
    exact hspec
  | error result =>
    rw [hw] at hspec
    obtain ⟨y, hends, hy⟩ := h.place.ends_run hw
    exact .inr ⟨result.1, y, hends, hy ▸ hspec⟩

theorem followed_call {letters digits : List Char} {i : Instruction}
    (h : Match calls source m x pre (.call letters digits :: post))
    (nolimit : job.maxSteps = none) (hl : (Lexeme.call letters digits).instruction? = some i)
    (here : job.program.instructions[codeSize pre]? = some i) :
    Followed calls job.host source x (m.step job) := by
  obtain rfl := Option.some.inj hl
  obtain ⟨hstep, hy⟩ := h.place.step_call job.host
  refine .of_goesOn (.single hstep) hy ?_
  rw [h.step_eq nolimit here, codeSize_append, ← h.next_eq, getD_argument?]
  refine ⟨rfl, rfl, ?_, h.running, h.reliable⟩
  rw [Interpreter.call, ← h.world_eq]
  rfl

theorem followed_opening {body rest : List Lexeme}
    (h : Match calls source m x pre (.opening :: (body ++ .closing :: rest)))
    (nolimit : job.maxSteps = none) (inside : Nested body)
    (here : job.program.instructions[codeSize pre]? =
      some (.loopOpen (codeSize pre + 1 + codeSize body))) :
    Followed calls host source x (m.step job) := by
  have hcell : m.tape.current = x.world.tape.current := by rw [← h.world_eq]; rfl
  by_cases hzero : x.world.tape.current = 0
  · obtain ⟨y, hstep, hworld, hy⟩ := h.place.step_opening_zero host inside hzero
    refine .of_goesOn (.single hstep) hy ?_
    rw [hworld]
    refine h.goesOn_bracket nolimit here (.inl ⟨_, rfl⟩) ?_
    simp [Machine.successor, hcell, hzero, Lexeme.codeSize]
    omega
  · obtain ⟨y, hstep, hworld, hy⟩ := h.place.step_opening_nonzero host hzero
    refine .of_goesOn (.single hstep) hy ?_
    rw [hworld]
    refine h.goesOn_bracket nolimit here (.inl ⟨_, rfl⟩) ?_
    simp [Machine.successor, hcell, hzero, Lexeme.codeSize, h.next_eq]

theorem followed_closing {front body : List Lexeme}
    (h : Match calls source m x (front ++ .opening :: body) (.closing :: post))
    (nolimit : job.maxSteps = none) (inside : Nested body)
    (here : job.program.instructions[codeSize (front ++ .opening :: body)]? =
      some (.loopClose (codeSize front))) :
    Followed calls host source x (m.step job) := by
  have hcell : m.tape.current = x.world.tape.current := by rw [← h.world_eq]; rfl
  obtain ⟨y, hback, hyworld, hy⟩ := h.place.step_closing host inside
  -- The interpreter tests the cell once more, at the start of the loop.
  by_cases hzero : x.world.tape.current = 0
  · obtain ⟨z, hstep, hworld, hz⟩ := hy.step_opening_zero host inside (by rw [hyworld]; exact hzero)
    refine .of_goesOn (.head hback (.single hstep)) hz ?_
    rw [hworld, hyworld]
    refine h.goesOn_bracket nolimit here (.inr ⟨_, rfl⟩) ?_
    simp [Machine.successor, hcell, hzero, Lexeme.codeSize, h.next_eq]
    omega
  · obtain ⟨z, hstep, hworld, hz⟩ := hy.step_opening_nonzero host (by rw [hyworld]; exact hzero)
    refine .of_goesOn (.head hback (.single hstep)) hz ?_
    rw [hworld, hyworld]
    refine h.goesOn_bracket nolimit here (.inr ⟨_, rfl⟩) ?_
    simp [Machine.successor, hcell, hzero, Lexeme.codeSize]

/-- The interpreter follows every step of the machine. -/
theorem followed (h : Match calls source m x pre post) (hn : n ≤ Int64.maxValue.toInt)
    (nolimit : job.maxSteps = none)
    (hsegment : Segment job.program 0 (lexemes calls source) job.program.size) :
    Followed calls job.host source x (m.step job) := by
  -- The machine has nothing to do at a comment; the induction is on what is still to be read.
  induction post generalizing x pre with
  | nil => exact h.followed_end hsegment
  | cons l post ih =>
    have hplaced := hsegment.placed h.place.split
    cases hplaced with
    | @comment c =>
      obtain ⟨hstep, hy⟩ := h.place.step_comment job.host
      refine .of_leads hstep (ih ⟨hy, ?_, h.world_eq, h.running, h.reliable⟩)
      simp [h.next_eq, Lexeme.codeSize]
    | single hl here =>
      rw [Nat.zero_add] at here
      cases l with
      | run op count =>
        obtain rfl := Option.some.inj hl
        exact h.followed_run hn nolimit here
      | call letters digits => exact h.followed_call nolimit hl here
      | opening => contradiction
      | closing => contradiction
      | comment c => contradiction
    | opening inside here =>
      rw [Nat.zero_add] at here
      exact h.followed_opening nolimit inside here
    | closing split inside here =>
      subst split
      rw [Nat.zero_add, Nat.zero_add] at here
      exact h.followed_closing nolimit inside here

end Match

/-! ## Whole runs -/

/-- What can be told when an interpretation has ended. -/
def Interpreter.observe (result : Conclusion × Interpreter n σ) : Observation n σ :=
  result.2.world.observe (some result.1)

/-- A step that ends a run ends it with what could be told of the step. -/
theorem Machine.ComesToRest.execute {m : Machine n σ} {e : Conclusion} {w : World n σ}
    (h : ComesToRest (m.step job) e w) (fuel : Nat) :
    (m.execute job (fuel + 1)).map Machine.observe = some (w.observe (some e)) := by
  rcases hstep : m.step job with ⟨answer, m'⟩
  rw [hstep] at h
  rw [← h.world_eq, Machine.execute, hstep]
  rcases h.answer with ⟨halt, rfl, rfl⟩ | ⟨error, rfl, herror⟩
  · obtain ⟨streams, hflush, -, hunread, houtput⟩ := h.reliable.flush
    simp only [finish, hflush, Option.map_some, Machine.observe, world, hunread, houtput]
  · simp only [Option.map_some, Machine.observe, herror]

section

variable {m : Machine n σ} {x : Interpreter n σ} {pre post : List Lexeme}
  (hn : n ≤ Int64.maxValue.toInt) (nolimit : job.maxSteps = none)
  (hsegment : Segment job.program 0 (lexemes calls source) job.program.size)
  {o : Observation n σ}

include hn nolimit hsegment

theorem Match.run_of_execute (h : Match calls source m x pre post) {fuel : Nat}
    (hexecute : (m.execute job fuel).map Machine.observe = some o) :
    ∃ fuel', (x.run calls job.host source fuel').map Interpreter.observe = some o := by
  induction fuel generalizing m x pre post with
  | zero => contradiction
  | succ fuel ih =>
    rcases h.followed hn nolimit hsegment with
      ⟨y, pre', post', hsteps, hanswer, hmatch⟩ | ⟨e, y, hends, hrest⟩
    · have hgoes : m.execute job (fuel + 1) = (m.step job).2.execute job fuel := by
        rw [Machine.execute, show m.step job = (.ok none, (m.step job).2) from Prod.ext hanswer rfl]
      rw [hgoes] at hexecute
      obtain ⟨fuel', hrun⟩ := ih hmatch hexecute
      obtain ⟨⟨e, z⟩, hrun, hobserve⟩ := Option.map_eq_some_iff.mp hrun
      obtain ⟨fuel'', hrun''⟩ :=
        Interpreter.ends_iff_run.mp (.of_reaches hsteps.to_reflTransGen
          (Interpreter.ends_iff_run.mpr ⟨fuel', hrun⟩))
      exact ⟨fuel'', by rw [hrun'', ← hobserve]; rfl⟩
    · rw [hrest.execute] at hexecute
      obtain ⟨fuel', hrun⟩ := Interpreter.ends_iff_run.mp hends
      exact ⟨fuel', by rw [hrun]; exact hexecute⟩

theorem Match.execute_of_run (h : Match calls source m x pre post) {fuel : Nat}
    (hrun : (x.run calls job.host source fuel).map Interpreter.observe = some o) :
    ∃ fuel', (m.execute job fuel').map Machine.observe = some o := by
  induction fuel using Nat.strongRecOn generalizing m x pre post with
  | ind fuel ih =>
    obtain ⟨⟨e, z⟩, hrun', hobserve⟩ := Option.map_eq_some_iff.mp hrun
    rcases h.followed hn nolimit hsegment with
      ⟨y, pre', post', hsteps, hanswer, hmatch⟩ | ⟨e', y, hends, hrest⟩
    · obtain ⟨fuel', hlt, hshorter⟩ := Interpreter.run_of_transGen hsteps hrun'
      obtain ⟨fuel'', hexecute⟩ := ih fuel' hlt hmatch (by rw [hshorter, ← hobserve]; rfl)
      refine ⟨fuel'' + 1, ?_⟩
      rwa [Machine.execute,
        show m.step job = (.ok none, (m.step job).2) from Prod.ext hanswer rfl]
    · obtain ⟨rfl, rfl⟩ := hends.unique (Interpreter.ends_iff_run.mpr ⟨fuel, hrun'⟩)
      exact ⟨1, by rw [hrest.execute 0, ← hobserve]; rfl⟩

end

/-- Compiling keeps the meaning of a source: the program ends if and only if the interpretation of
the source does, in the same way and with the same tape, streams and state of the host. -/
theorem observe_execute_iff_run {σ : Type} {source : String} (h : checkBrackets source = .ok ())
    (compiler : CompilerSettings) (settings : MachineSettings)
    (hcells : settings.cells ≤ Int64.maxValue.toInt) (nolimit : settings.maxSteps = none)
    (host : Host σ) (chunks : List (List UInt8)) (state : σ) :
    ∃ c, compile compiler source = .ok c ∧ ∀ o,
      (∃ fuel, ((Machine.start settings { reads := chunks.map .data } state).execute
          (.ofSettings settings c.program host) fuel).map Machine.observe = some o) ↔
        ∃ fuel, ((Interpreter.start settings chunks.flatten state).run compiler.customInstructions
          host source.toList fuel).map Interpreter.observe = some o := by
  obtain ⟨is, -, hcompile⟩ := compile_of_checkBrackets h compiler
  have hsegment := segment_of_compile hcompile
  refine ⟨_, hcompile, fun o => ?_⟩
  have hmatch : Match compiler.customInstructions source.toList
      (Machine.start settings { reads := chunks.map .data } state)
      (Interpreter.start settings chunks.flatten state) []
      (lexemes compiler.customInstructions source.toList) := by
    refine ⟨⟨rfl, rfl⟩, rfl, ?_, rfl, .ofChunks chunks⟩
    rw [Machine.world, Machine.start, Streams.unread_ofChunks]
    rfl
  constructor
  · rintro ⟨_, hexecute⟩
    exact hmatch.run_of_execute hcells nolimit hsegment hexecute
  · rintro ⟨_, hrun⟩
    exact hmatch.execute_of_run hcells nolimit hsegment hrun

theorem observe_execute_count_down :
    ∃ c, compile {} ",[.-]>" = .ok c ∧ ∃ fuel,
      ((Machine.start { memorySize := 2 } { reads := [[2]].map .data } ()).execute
        (.ofSettings { memorySize := 2 } c.program .silent) fuel).map Machine.observe =
      some { conclusion? := some .completed, cells := #v[0, 0], head? := some (1 : Fin 2)
             unread := [], written := [2, 1], state := () } := by
  have hbrackets : checkBrackets ",[.-]>" = .ok () := rfl
  obtain ⟨c, hcompile, hsame⟩ := observe_execute_iff_run hbrackets {} { memorySize := 2 }
    (by decide) rfl .silent [[2]] ()
  exact ⟨c, hcompile, (hsame _).mpr ⟨30, rfl⟩⟩

end TapeMachine
