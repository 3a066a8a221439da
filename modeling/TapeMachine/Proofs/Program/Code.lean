import TapeMachine.Program.Compile
import TapeMachine.Proofs.Source.Nesting

/-!
# The code of nested lexemes

`Code k ls is` says without an order of work which instructions nested lexemes stand for if the
first is put at index `k`: a loop is its body between two instructions that hold each other's index.
Assembly fills these indices in later, by way of a stack and placeholders, and ends with the same
instructions (`Assembly.addAll_of_code`). So a source is compiled if and only if its brackets
match, and to its code (`compile_of_checkBrackets`).
-/

namespace TapeMachine

namespace Lexeme

/-- The instruction that a lexeme without a partner stands for, if it stands for any. -/
def instruction? : Lexeme → Option Instruction
  | run op n => some (.run op n)
  | call letters digits =>
    some (.call (String.ofList (bracedName letters)) ((argument? digits).getD 0))
  | opening | closing | comment _ => none

/-- What is wrong with the argument of a lexeme that starts at `p`. -/
def argumentErrors (p : Position) : Lexeme → List ArgumentError
  | call letters digits =>
    match argument? digits with
    | some _ => []
    | none => [⟨String.ofList (bracedName letters), String.ofList digits, p⟩]
  | _ => []

end Lexeme

/-- What is wrong with the arguments of lexemes that start at `p`. -/
def argumentErrors (p : Position) : List Lexeme → List ArgumentError
  | [] => []
  | l :: ls => l.argumentErrors p ++ argumentErrors (p.advanceAll l.text) ls

theorem argumentErrors_append (p : Position) (a b : List Lexeme) :
    argumentErrors p (a ++ b) =
      argumentErrors p a ++ argumentErrors (p.advanceAll (textOf a)) b := by
  induction a generalizing p with
  | nil => rfl
  | cons l a ih =>
    simp only [List.cons_append, argumentErrors, ih, textOf_cons, Position.advanceAll_append,
      List.append_assoc]

/-- The instructions of nested lexemes, the first of them at index `k`. -/
inductive Code : (k : Nat) → List Lexeme → List Instruction → Prop
  | nil {k : Nat} : Code k [] []
  | comment {k : Nat} {c : Char} {ls : List Lexeme} {is : List Instruction} (rest : Code k ls is) :
      Code k (.comment c :: ls) is
  | single {k : Nat} {l : Lexeme} {i : Instruction} {ls : List Lexeme} {is : List Instruction}
      (h : l.instruction? = some i) (rest : Code (k + 1) ls is) : Code k (l :: ls) (i :: is)
  | loop {k : Nat} {body ls : List Lexeme} {inner is : List Instruction}
      (inside : Code (k + 1) body inner) (rest : Code (k + 1 + inner.length + 1) ls is) :
      Code k (.opening :: (body ++ .closing :: ls))
        (.loopOpen (k + 1 + inner.length) :: (inner ++ .loopClose k :: is))

/-- The instruction with another index for its partner. -/
def Instruction.renumber (r : Nat → Nat) : Instruction → Instruction
  | run op n => run op n
  | loopOpen close => loopOpen (r close)
  | loopClose opening => loopClose (r opening)
  | call name argument => call name argument

theorem Lexeme.renumber_of_instruction? {l : Lexeme} {i : Instruction}
    (h : l.instruction? = some i) (r : Nat → Nat) : i.renumber r = i := by
  cases l <;> simp only [instruction?, Option.some.injEq, reduceCtorEq] at h <;> subst h <;> rfl

/-- Code that is moved on only has its indices changed. -/
theorem Code.shift {k : Nat} {ls : List Lexeme} {is : List Instruction} (h : Code k ls is)
    (d : Nat) : Code (k + d) ls (is.map (.renumber (· + d))) := by
  induction h with
  | nil => exact .nil
  | comment _ ih => exact .comment ih
  | @single k l i ls is hl _ ih =>
    rw [Nat.add_right_comm] at ih
    rw [List.map_cons, Lexeme.renumber_of_instruction? hl]
    exact .single hl ih
  | @loop k body ls inner is _ _ ihbody ihrest =>
    have hclose : k + 1 + inner.length + d =
        k + d + 1 + (inner.map (Instruction.renumber (· + d))).length := by
      rw [List.length_map]
      omega
    rw [Nat.add_right_comm k 1 d] at ihbody
    rw [Nat.add_right_comm _ 1 d, hclose] at ihrest
    simp only [List.map_cons, List.map_append, Instruction.renumber, hclose]
    exact .loop ihbody ihrest

/-- Code may be followed by code. -/
theorem Code.append {k : Nat} {a b : List Lexeme} {is js : List Instruction} (h : Code k a is)
    (rest : Code (k + is.length) b js) : Code k (a ++ b) (is ++ js) := by
  induction h with
  | nil => exact rest
  | comment _ ih => exact .comment (ih rest)
  | @single k l i ls is hl _ ih =>
    rw [List.length_cons, Nat.add_comm is.length 1, ← Nat.add_assoc] at rest
    exact .single hl (ih rest)
  | @loop k body ls inner is hinside _ _ ihrest =>
    have hlen : k + (Instruction.loopOpen (k + 1 + inner.length) ::
        (inner ++ .loopClose k :: is)).length = k + 1 + inner.length + 1 + is.length := by
      simp only [List.length_cons, List.length_append]
      omega
    rw [hlen] at rest
    simp only [List.cons_append, List.append_assoc]
    exact .loop hinside (ihrest rest)

theorem Nested.exists_code {ls : List Lexeme} (h : Nested ls) (k : Nat) : ∃ is, Code k ls is := by
  induction h generalizing k with
  | nil => exact ⟨[], .nil⟩
  | @plain l ls hopen hclose _ ih =>
    cases hl : l.instruction? with
    | some i =>
      obtain ⟨is, his⟩ := ih (k + 1)
      exact ⟨i :: is, .single hl his⟩
    | none =>
      obtain ⟨is, his⟩ := ih k
      cases l with
      | comment c => exact ⟨is, .comment his⟩
      | opening => exact absurd rfl hopen
      | closing => exact absurd rfl hclose
      | run => contradiction
      | call => contradiction
  | loop _ _ ihbody ihrest =>
    obtain ⟨inner, hinner⟩ := ihbody (k + 1)
    obtain ⟨is, his⟩ := ihrest (k + 1 + inner.length + 1)
    exact ⟨_, .loop hinner his⟩

theorem Code.nested {k : Nat} {ls : List Lexeme} {is : List Instruction} (h : Code k ls is) :
    Nested ls := by
  induction h with
  | nil => exact .nil
  | comment _ ih => exact .plain nofun nofun ih
  | single hl _ ih =>
    refine .plain ?_ ?_ ih
    · rintro rfl
      contradiction
    · rintro rfl
      contradiction
  | loop _ _ ihbody ihrest => exact .loop ihbody ihrest

/-! ## Assembly -/

namespace Assembly

/-- An assembly to which the code `is` of the lexemes `ls` has been added. -/
def extend (a : Assembly) (ls : List Lexeme) (is : List Instruction) : Assembly :=
  { a with
    instructions := a.instructions ++ is.toArray
    position := a.position.advanceAll (textOf ls)
    diagnostics := a.diagnostics ++ (argumentErrors a.position ls).toArray }

@[simp] theorem size_extend (a : Assembly) (ls : List Lexeme) (is : List Instruction) :
    (a.extend ls is).instructions.size = a.instructions.size + is.length := by
  simp [extend]

theorem extend_extend (a : Assembly) (ls ls' : List Lexeme) (is is' : List Instruction) :
    (a.extend ls is).extend ls' is' = a.extend (ls ++ ls') (is ++ is') := by
  simp [extend, argumentErrors_append, Position.advanceAll_append]

theorem addAll_append (a : Assembly) (ls ls' : List Lexeme) :
    a.addAll (ls ++ ls') =
      match a.addAll ls with
      | .ok b => b.addAll ls'
      | .error e => .error e := by
  induction ls generalizing a with
  | nil => rfl
  | cons l ls ih =>
    simp only [List.cons_append, addAll]
    cases a.add l with
    | ok b => exact ih b
    | error e => rfl

theorem add_comment (a : Assembly) (c : Char) :
    a.add (.comment c) = .ok (a.extend [.comment c] []) := by
  simp [add, place, extend, argumentErrors, Lexeme.argumentErrors, Except.map]

theorem add_single (a : Assembly) {l : Lexeme} {i : Instruction} (h : l.instruction? = some i) :
    a.add l = .ok (a.extend [l] [i]) := by
  cases l with
  | run op n =>
    obtain rfl := Option.some.inj h
    simp [add, place, push, extend, argumentErrors, Lexeme.argumentErrors, Except.map]
  | call letters digits =>
    obtain rfl := Option.some.inj h
    cases harg : argument? digits <;>
      simp [add, place, call, harg, push, extend, argumentErrors, Lexeme.argumentErrors, Except.map]
  | opening => contradiction
  | closing => contradiction
  | comment c => contradiction

/-- The end of a loop fills in the index that its start was left without. -/
theorem add_closing (a : Assembly) (body : List Lexeme) (inner : List Instruction) :
    ({ a.extend [.opening] [.loopOpen 0] with
        opened := a.opened.push a.instructions.size }.extend body inner).add .closing =
      .ok (a.extend (.opening :: (body ++ [.closing]))
        (.loopOpen (a.instructions.size + 1 + inner.length) ::
          (inner ++ [.loopClose a.instructions.size]))) := by
  simp [add, place, closeLoop, Stack.pop, Stack.push, extend, argumentErrors_append,
    Lexeme.argumentErrors, argumentErrors, Position.advanceAll_append, Except.map, Nat.add_assoc,
    Nat.add_comm 1]

/-- Assembly adds the code of nested lexemes and leaves the loops around them open. -/
theorem addAll_of_code {k : Nat} {ls : List Lexeme} {is : List Instruction} (h : Code k ls is)
    (a : Assembly) (hk : a.instructions.size = k) : a.addAll ls = .ok (a.extend ls is) := by
  induction h generalizing a with
  | nil => simp [addAll, extend, argumentErrors]
  | comment _ ih =>
    rw [addAll, add_comment]
    simp only
    rw [ih _ (by simpa using hk), extend_extend]
    rfl
  | single h _ ih =>
    rw [addAll, add_single a h]
    simp only
    rw [ih _ (by simpa using hk), extend_extend]
    rfl
  | @loop k body ls inner is _ _ ihbody ihrest =>
    have hopen : a.add .opening = .ok
        { a.extend [.opening] [.loopOpen 0] with
          opened := a.opened.push a.instructions.size } := by
      simp [add, place, openLoop, push, extend, argumentErrors, Lexeme.argumentErrors, Except.map]
    rw [addAll, hopen]
    simp only
    rw [addAll_append, ihbody _ (by simp [hk])]
    simp only
    rw [addAll, add_closing]
    simp only
    rw [ihrest _ (by simp [hk]; omega), extend_extend]
    simp [hk]

end Assembly

/-- Lexemes are the code of one list of instructions only. -/
theorem Code.unique {ls : List Lexeme} {is js : List Instruction} (h : Code 0 ls is)
    (h' : Code 0 ls js) : is = js := by
  have hsame := (Assembly.addAll_of_code h {} rfl).symm.trans (Assembly.addAll_of_code h' {} rfl)
  have hinstructions := congrArg Assembly.instructions (Except.ok.inj hsame)
  simpa [Assembly.extend] using hinstructions

/-! ## Compilation -/

theorem compile_of_code {settings : CompilerSettings} {source : String} {is : List Instruction}
    (h : checkBrackets source = .ok ())
    (hcode : Code 0 (lexemes settings.customInstructions source.toList) is) :
    compile settings source = .ok ⟨⟨is.toArray⟩,
      argumentErrors .start (lexemes settings.customInstructions source.toList)⟩ := by
  simp [compile, h, Assembly.addAll_of_code hcode {} rfl, Assembly.extend]

/-- A source whose brackets match is compiled to its code. -/
theorem compile_of_checkBrackets {source : String} (h : checkBrackets source = .ok ())
    (settings : CompilerSettings) :
    ∃ is, Code 0 (lexemes settings.customInstructions source.toList) is ∧
      compile settings source = .ok ⟨⟨is.toArray⟩,
        argumentErrors .start (lexemes settings.customInstructions source.toList)⟩ := by
  obtain ⟨is, his⟩ := (nested_lexemes h settings.customInstructions).exists_code 0
  exact ⟨is, his, compile_of_code h his⟩

theorem exists_compile {source : String} (h : checkBrackets source = .ok ())
    (settings : CompilerSettings) : ∃ c, compile settings source = .ok c := by
  obtain ⟨_, -, hc⟩ := compile_of_checkBrackets h settings
  exact ⟨_, hc⟩

theorem checkBrackets_of_compile {settings : CompilerSettings} {source : String} {c : Compiled}
    (h : compile settings source = .ok c) : checkBrackets source = .ok () := by
  unfold compile at h
  split at h
  · contradiction
  · assumption

/-- Every compiled program is the code of its source. -/
theorem code_of_compile {settings : CompilerSettings} {source : String} {c : Compiled}
    (h : compile settings source = .ok c) :
    Code 0 (lexemes settings.customInstructions source.toList) c.program.instructions.toList := by
  obtain ⟨is, his, hcompile⟩ := compile_of_checkBrackets (checkBrackets_of_compile h) settings
  obtain rfl := Except.ok.inj (h.symm.trans hcompile)
  exact his

end TapeMachine
