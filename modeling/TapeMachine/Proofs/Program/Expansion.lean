import TapeMachine.Proofs.Program.Code

/-!
# Programs with other instructions in their place

In a program each instruction that holds no index can be replaced by several others, or by none.
What comes behind is moved, and the indices in loops have to follow (`Program.expand`). If lexemes
are replaced in the same way, the expanded program is the code of the new lexemes (`Code.expand`).
-/

namespace TapeMachine

variable {X : Instruction → List Instruction} {r : Nat → Nat}

namespace Instruction

/-- What is put in the place of an instruction: `X` says it of those that hold no index, and `r`
says where the indices of the others lead. -/
def expand (X : Instruction → List Instruction) (r : Nat → Nat) : Instruction → List Instruction
  | loopOpen close => [loopOpen (r close)]
  | loopClose opening => [loopClose (r opening)]
  | run op count => X (run op count)
  | call name argument => X (call name argument)

/-- How many instructions are put in the place of one. -/
def width (X : Instruction → List Instruction) : Instruction → Nat
  | loopOpen _ | loopClose _ => 1
  | run op count => (X (run op count)).length
  | call name argument => (X (call name argument)).length

@[simp] theorem length_expand (x : Instruction) : (x.expand X r).length = x.width X := by
  cases x <;> rfl

end Instruction

namespace Program

/-- Where the place of an instruction is in the expanded program. -/
def place (X : Instruction → List Instruction) (p : Program) (i : Nat) : Nat :=
  ((p.instructions.toList.take i).flatMap (Instruction.expand X id)).length

def expand (X : Instruction → List Instruction) (p : Program) : Program :=
  ⟨(p.instructions.toList.flatMap (Instruction.expand X (p.place X))).toArray⟩

variable {p : Program} {i j : Nat} {x : Instruction}

/-- How long expanded code is has nothing to do with its indices. -/
theorem length_flatMap_expand (r r' : Nat → Nat) (is : List Instruction) :
    (is.flatMap (Instruction.expand X r)).length =
      (is.flatMap (Instruction.expand X r')).length := by
  simp only [List.length_flatMap, Instruction.length_expand]

theorem place_succ (h : p.instructions[i]? = some x) :
    p.place X (i + 1) = p.place X i + x.width X := by
  rw [place, List.take_add_one, Array.getElem?_toList, h]
  simp [place]

/-- What is put in the place of an instruction stands there. -/
theorem expand_getElem? (h : p.instructions[i]? = some x) (hj : j < x.width X) :
    (p.expand X).instructions[p.place X i + j]? = (x.expand X (p.place X))[j]? := by
  obtain ⟨hi, hx⟩ := List.getElem?_eq_some_iff.mp ((Array.getElem?_toList ..).trans h)
  have hsplit : p.instructions.toList =
      p.instructions.toList.take i ++ x :: p.instructions.toList.drop (i + 1) := by
    rw [← hx, ← List.drop_eq_getElem_cons hi, List.take_append_drop]
  have hfront : ((p.instructions.toList.take i).flatMap
      (Instruction.expand X (p.place X))).length = p.place X i := length_flatMap_expand _ _ _
  have hall := congrArg (List.flatMap (Instruction.expand X (p.place X))) hsplit
  rw [List.flatMap_append, List.flatMap_cons] at hall
  rw [expand, List.getElem?_toArray, hall, ← hfront,
    List.getElem?_append_right (Nat.le_add_right _ j), Nat.add_sub_cancel_left]
  exact List.getElem?_append_left ((Instruction.length_expand x).symm ▸ hj)

theorem expand_getElem?_end (h : p.instructions[i]? = none) :
    (p.expand X).instructions[p.place X i]? = none := by
  have hall : p.instructions.toList.take i = p.instructions.toList :=
    List.take_of_length_le (Array.getElem?_eq_none_iff.mp h)
  rw [expand, List.getElem?_toArray, place, hall, length_flatMap_expand id (p.place X)]
  exact List.getElem?_eq_none (Nat.le_refl _)

end Program

/-! ## Code -/

/-- Lexemes and instructions are replaced in the same way. -/
structure Expands (L : Lexeme → List Lexeme) (X : Instruction → List Instruction) : Prop where
  opening : L .opening = [.opening]
  closing : L .closing = [.closing]
  comment : ∀ c k, Code k (L (.comment c)) []
  single : ∀ {l x} k, l.instruction? = some x → Code k (L l) (X x)

/-- From index `k` on, where `is` stand, `r` says where they stand when they have been replaced. -/
def Tracks (X : Instruction → List Instruction) (r : Nat → Nat) (k : Nat)
    (is : List Instruction) : Prop :=
  ∀ n ≤ is.length, r (k + n) = r k + ((is.take n).flatMap (Instruction.expand X r)).length

namespace Tracks

variable {k : Nat} {a b is : List Instruction} {x : Instruction}

theorem length (h : Tracks X r k is) :
    r (k + is.length) = r k + (is.flatMap (Instruction.expand X r)).length := by
  rw [h _ (Nat.le_refl _), List.take_length]

theorem left (h : Tracks X r k (a ++ b)) : Tracks X r k a := by
  intro n hn
  rw [h n (by simp; omega), List.take_append_of_le_length hn]

theorem right (h : Tracks X r k (a ++ b)) : Tracks X r (k + a.length) b := by
  intro n hn
  have hfront := h.left.length
  have hn := h (a.length + n) (by simp; omega)
  rw [← Nat.add_assoc, List.take_length_add_append, List.flatMap_append, List.length_append] at hn
  omega

theorem head (h : Tracks X r k (x :: is)) : r (k + 1) = r k + x.width X := by
  rw [h 1 (by simp)]
  simp

theorem tail (h : Tracks X r k (x :: is)) : Tracks X r (k + 1) is := right (a := [x]) h

end Tracks

theorem Program.tracks_place (p : Program) : Tracks X (p.place X) 0 p.instructions.toList := by
  intro n _
  rw [Nat.zero_add, length_flatMap_expand _ id]
  exact (Nat.zero_add _).symm

theorem Lexeme.expand_of_instruction? {l : Lexeme} {x : Instruction} (h : l.instruction? = some x) :
    x.expand X r = X x := by
  cases l <;> simp only [instruction?, Option.some.injEq, reduceCtorEq] at h <;> subst h <;> rfl

/-- The code of lexemes that have been replaced is the expanded code. -/
theorem Code.expand {L : Lexeme → List Lexeme} (hL : Expands L X) {k : Nat} {ls : List Lexeme}
    {is : List Instruction} (h : Code k ls is) (hr : Tracks X r k is) :
    Code (r k) (ls.flatMap L) (is.flatMap (Instruction.expand X r)) := by
  induction h with
  | nil => exact .nil
  | comment _ ih => exact (hL.comment _ _).append (ih hr)
  | @single k l x ls is hl _ ih =>
    have hhead := hr.head
    rw [← Instruction.length_expand (r := r), Lexeme.expand_of_instruction? hl] at hhead
    rw [List.flatMap_cons, List.flatMap_cons, Lexeme.expand_of_instruction? hl]
    exact (hL.single _ hl).append (hhead ▸ ih hr.tail)
  | @loop k body ls inner is _ _ ihbody ihrest =>
    have hinside := hr.tail.left
    have hclosing := hr.tail.right
    have hopen : r (k + 1) = r k + 1 := hr.head
    have hclose := hinside.length
    have hnext : r (k + 1 + inner.length + 1) = r (k + 1 + inner.length) + 1 := hclosing.head
    have hbody := ihbody hinside
    have hrest := ihrest hclosing.tail
    rw [hnext, hclose, hopen] at hrest
    rw [hopen] at hbody hclose
    simp only [List.flatMap_cons, List.flatMap_append, hL.opening, hL.closing, List.cons_append,
      List.nil_append, Instruction.expand, hclose]
    exact .loop hbody hrest

end TapeMachine
