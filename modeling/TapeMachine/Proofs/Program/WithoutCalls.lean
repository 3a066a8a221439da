import TapeMachine.Proofs.Program.Expansion
import TapeMachine.Proofs.Source.Cut

/-!
# Programs without their calls

A source can be compiled with calls or with calls as comment. The second program is the first with
its calls taken out: what is left keeps its order, and the indices in it count only what is left
(`compile_withoutCalls`). That a call is comment to the end, and that the block behind it does not
join the one in front of it, follows from how texts are cut.
-/

namespace TapeMachine

/-! ## What is left -/

def Instruction.isCall : Instruction → Bool
  | call .. => true
  | _ => false

namespace Program

/-- The number of instructions in front of an index that are no calls. -/
def rank (p : Program) (i : Nat) : Nat := (p.instructions.toList.take i).countP (!·.isCall)

/-- The program with its calls taken out. -/
def withoutCalls (p : Program) : Program :=
  ⟨((p.instructions.toList.filter (!·.isCall)).map (.renumber p.rank)).toArray⟩

end Program

/-- What is left of an instruction: a call is taken out. -/
def Instruction.withoutCall (x : Instruction) : List Instruction := if x.isCall then [] else [x]

theorem Instruction.expand_withoutCall (x : Instruction) (r : Nat → Nat) :
    x.expand withoutCall r = if x.isCall then [] else [x.renumber r] := by
  cases x <;> rfl

theorem flatMap_expand_withoutCall (r : Nat → Nat) (is : List Instruction) :
    is.flatMap (Instruction.expand Instruction.withoutCall r) =
      (is.filter (!·.isCall)).map (.renumber r) := by
  induction is with
  | nil => rfl
  | cons x is ih =>
    rw [List.flatMap_cons, ih, Instruction.expand_withoutCall]
    cases hx : x.isCall <;> simp [hx]

namespace Program

theorem place_withoutCall (p : Program) : p.place Instruction.withoutCall = p.rank := by
  funext i
  rw [place, flatMap_expand_withoutCall, List.length_map, rank, List.countP_eq_length_filter]

/-- To take out the calls is to put nothing in their place. -/
theorem withoutCalls_eq_expand (p : Program) :
    p.withoutCalls = p.expand Instruction.withoutCall := by
  rw [expand, flatMap_expand_withoutCall, place_withoutCall, withoutCalls]

end Program

/-! ## Calls as comment -/

/-- The comment that a lexeme is if calls are comment. -/
def Lexeme.withoutCall : Lexeme → List Lexeme
  | call name digits => (call name digits).text.map comment
  | l => [l]

theorem textOf_map_comment (s : List Char) : textOf (s.map .comment) = s := by
  induction s with
  | nil => rfl
  | cons c s ih => rw [List.map_cons, textOf_cons, ih]; rfl

theorem Lexeme.textOf_withoutCall (l : Lexeme) : textOf l.withoutCall = l.text := by
  cases l with
  | call name digits => exact textOf_map_comment _
  | _ => exact List.append_nil _

theorem textOf_withoutCalls (ls : List Lexeme) :
    textOf (ls.flatMap Lexeme.withoutCall) = textOf ls := by
  induction ls with
  | nil => rfl
  | cons l ls ih => rw [List.flatMap_cons, textOf_append, l.textOf_withoutCall, ih, textOf_cons]

/-- Text without operators and brackets is comment if calls are. -/
theorem Cut.comments {s : List Char} {ls : List Lexeme}
    (noOperator : ∀ c ∈ s, Operator.ofSymbol? c = none) (noBracket : Lexeme.NoBracket s)
    (h : Cut false ls) : Cut false (s.map .comment ++ ls) := by
  induction s with
  | nil => exact h
  | cons c s ih =>
    obtain ⟨hop, hops⟩ := List.forall_mem_cons.mp noOperator
    obtain ⟨hbracket, hbrackets⟩ := List.forall_mem_cons.mp noBracket
    exact ⟨⟨hop, hbracket.1, hbracket.2, nofun⟩, ih hops hbrackets⟩

theorem Cut.withoutCalls {calls : Bool} {ls : List Lexeme} (h : Cut calls ls) :
    Cut false (ls.flatMap Lexeme.withoutCall) := by
  induction ls with
  | nil => trivial
  | cons l ls ih =>
    obtain ⟨hends, htail⟩ := h
    have hrest := ih htail
    have hwf := hends.wellFormed
    rw [← textOf_withoutCalls] at hends
    cases l with
    | run op n => exact ⟨hends, hrest⟩
    | opening => exact ⟨hends, hrest⟩
    | closing => exact ⟨hends, hrest⟩
    | call name digits => exact hrest.comments (hwf.noOperator nofun) (hwf.noBracket nofun nofun)
    | comment c =>
      obtain ⟨noOperator, noOpening, noClosing, -⟩ := hends
      exact ⟨⟨noOperator, noOpening, noClosing, nofun⟩, hrest⟩

/-- Without calls a text is cut as it is with them, and what was a call is comment. -/
theorem lexemes_false (calls : Bool) (s : List Char) :
    lexemes false s = (lexemes calls s).flatMap Lexeme.withoutCall := by
  refine lexemes_eq_iff.mpr ⟨?_, (cut_lexemes calls s).withoutCalls⟩
  rw [textOf_withoutCalls]
  exact textOf_lexemes calls s

/-! ## Code without calls -/

theorem code_map_comment (k : Nat) (s : List Char) : Code k (s.map .comment) [] := by
  induction s with
  | nil => exact .nil
  | cons c s ih => exact .comment ih

theorem Lexeme.expands_withoutCall :
    Expands Lexeme.withoutCall Instruction.withoutCall where
  opening := rfl
  closing := rfl
  comment _ _ := .comment .nil
  single := by
    intro l x k hl
    cases l with
    | run op n =>
      obtain rfl := Option.some.inj hl
      exact .single rfl .nil
    | call name digits =>
      obtain rfl := Option.some.inj hl
      exact code_map_comment k (call name digits).text
    | opening => contradiction
    | closing => contradiction
    | comment c => contradiction

/-- With calls as comment a source is compiled to the program it is compiled to otherwise, without
the calls. -/
theorem compile_withoutCalls {source : String} {c : Compiled}
    (h : compile { customInstructions := true } source = .ok c) :
    ∃ d, compile { customInstructions := false } source = .ok d ∧
      d.program = c.program.withoutCalls := by
  have hcode := (code_of_compile h).expand Lexeme.expands_withoutCall c.program.tracks_place
  rw [← lexemes_false] at hcode
  refine ⟨_, compile_of_code (checkBrackets_of_compile h) hcode, ?_⟩
  exact c.program.withoutCalls_eq_expand.symm

end TapeMachine
