import TapeMachine.Proofs.Program.Code

/-!
# The links between the two ends of a loop

A program is flat, and what holds its loops together are the indices in its instructions.
`Segment p i ls j` says where the code of lexemes lies in a program, and by recursion over it the
links of every compiled program are found to be sound: the two ends of a loop name each other, and
loops do not cross (`jumps_sound_of_compile`).
-/

namespace TapeMachine

variable {p : Program}

/-- The instructions of `p` from index `i` up to `j` are the code of lexemes. -/
inductive Segment (p : Program) : (i : Nat) → List Lexeme → (j : Nat) → Prop
  | nil {i : Nat} : Segment p i [] i
  | comment {i j : Nat} {c : Char} {ls : List Lexeme} (rest : Segment p i ls j) :
      Segment p i (.comment c :: ls) j
  | single {i j : Nat} {l : Lexeme} {x : Instruction} {ls : List Lexeme}
      (hl : l.instruction? = some x) (here : p.instructions[i]? = some x)
      (rest : Segment p (i + 1) ls j) : Segment p i (l :: ls) j
  | loop {i c j : Nat} {body ls : List Lexeme} (here : p.instructions[i]? = some (.loopOpen c))
      (inside : Segment p (i + 1) body c) (there : p.instructions[c]? = some (.loopClose i))
      (rest : Segment p (c + 1) ls j) : Segment p i (.opening :: (body ++ .closing :: ls)) j

theorem Segment.le {i j : Nat} {ls : List Lexeme} (h : Segment p i ls j) : i ≤ j := by
  induction h <;> omega

/-- Code that stands in a program at its own index is a segment. -/
theorem Code.segment {k : Nat} {ls : List Lexeme} {is : List Instruction} (h : Code k ls is)
    (hp : ∀ n < is.length, p.instructions[k + n]? = is[n]?) : Segment p k ls (k + is.length) := by
  induction h with
  | nil => exact .nil
  | comment _ ih => exact .comment (ih hp)
  | @single k l i ls is hl _ ih =>
    have hrest := ih fun n hn => by
      have := hp (n + 1) (by simpa using hn)
      rwa [List.getElem?_cons_succ, ← Nat.add_assoc, Nat.add_right_comm] at this
    rw [List.length_cons, ← Nat.add_assoc, Nat.add_right_comm]
    exact .single hl (by simpa using hp 0 (by simp)) hrest
  | @loop k body ls inner is _ _ ihbody ihrest =>
    have hlen : (Instruction.loopOpen (k + 1 + inner.length) ::
        (inner ++ .loopClose k :: is)).length = 1 + inner.length + 1 + is.length := by
      simp only [List.length_cons, List.length_append]
      omega
    rw [hlen] at hp ⊢
    have hbody := ihbody fun n hn => by
      have := hp (1 + n) (by omega)
      rw [Nat.add_comm 1 n, List.getElem?_cons_succ, List.getElem?_append_left hn] at this
      rwa [Nat.add_assoc, Nat.add_comm 1 n]
    have hrest := ihrest fun n hn => by
      have := hp (1 + inner.length + 1 + n) (by omega)
      rw [show 1 + inner.length + 1 + n = (inner.length + (n + 1)) + 1 by omega,
        List.getElem?_cons_succ, List.getElem?_append_right (by omega), Nat.add_sub_cancel_left,
        List.getElem?_cons_succ] at this
      rwa [show k + 1 + inner.length + 1 + n = k + (inner.length + (n + 1) + 1) by omega]
    have hclose := hp (1 + inner.length) (by omega)
    rw [Nat.add_comm 1, List.getElem?_cons_succ] at hclose
    refine .loop (by simpa using hp 0 (by omega)) hbody ?_ ?_
    · simpa [Nat.add_assoc, Nat.add_comm, Nat.add_left_comm] using hclose
    · simpa only [Nat.add_assoc] using hrest

/-- A compiled program is from end to end the code of its source. -/
theorem segment_of_compile {settings : CompilerSettings} {source : String} {c : Compiled}
    (h : compile settings source = .ok c) :
    Segment c.program 0 (lexemes settings.customInstructions source.toList) c.program.size := by
  have hcode := (code_of_compile h).segment (p := c.program) fun n _ => by
    rw [Nat.zero_add, Array.getElem?_toList]
  rwa [Nat.zero_add, Array.length_toList] at hcode

/-! ## Links -/

/-- An instruction that holds no index. -/
def Instruction.IsFree (x : Instruction) : Prop := (∀ c, x ≠ .loopOpen c) ∧ ∀ o, x ≠ .loopClose o

theorem Lexeme.isFree_of_instruction? {l : Lexeme} {x : Instruction} (h : l.instruction? = some x) :
    x.IsFree := by
  cases l <;> simp only [instruction?, Option.some.injEq, reduceCtorEq] at h <;>
    subst h <;> simp [Instruction.IsFree]

/-- The loops that lie in a program from index `i` up to `j` are whole and do not cross. -/
structure Program.Linked (p : Program) (i j : Nat) : Prop where
  opening : ∀ {o c}, i ≤ o → o < j → p.instructions[o]? = some (.loopOpen c) →
    o < c ∧ c < j ∧ p.instructions[c]? = some (.loopClose o)
  closing : ∀ {o c}, i ≤ c → c < j → p.instructions[c]? = some (.loopClose o) →
    i ≤ o ∧ o < c ∧ p.instructions[o]? = some (.loopOpen c)
  nested : ∀ {o₁ c₁ o₂ c₂}, i ≤ o₁ → o₁ < o₂ → o₂ < j →
    p.instructions[o₁]? = some (.loopOpen c₁) → p.instructions[o₂]? = some (.loopOpen c₂) →
    c₁ < o₂ ∨ c₂ < c₁

namespace Program.Linked

theorem empty (i : Nat) : p.Linked i i :=
  ⟨by omega, by omega, by omega⟩

/-- An instruction in front that holds no index changes nothing. -/
theorem cons {i j : Nat} {x : Instruction} (hx : x.IsFree) (here : p.instructions[i]? = some x)
    (h : p.Linked (i + 1) j) : p.Linked i j := by
  have behind_open : ∀ {o c}, i ≤ o → p.instructions[o]? = some (.loopOpen c) → i + 1 ≤ o := by
    rintro o c hio ho
    refine Nat.lt_of_le_of_ne hio ?_
    rintro rfl
    exact hx.1 c (Option.some.inj (here.symm.trans ho))
  refine ⟨fun hio hoj ho => h.opening (behind_open hio ho) hoj ho, fun {o c} hic hcj hc => ?_,
    fun hio hlt hoj h₁ h₂ => h.nested (behind_open hio h₁) hlt hoj h₁ h₂⟩
  have hne : i ≠ c := by
    rintro rfl
    exact hx.2 o (Option.some.inj (here.symm.trans hc))
  obtain ⟨hio, hlt, ho⟩ := h.closing (by omega) hcj hc
  exact ⟨by omega, hlt, ho⟩

/-- Two ends that name each other can be put around the loops of a body. -/
theorem loop {i c j : Nat} (here : p.instructions[i]? = some (.loopOpen c))
    (there : p.instructions[c]? = some (.loopClose i)) (hic : i < c) (hcj : c < j)
    (inside : p.Linked (i + 1) c) (rest : p.Linked (c + 1) j) : p.Linked i j := by
  refine ⟨fun {o d} hio hoj ho => ?_, fun {o d} hid hdj hd => ?_,
    fun {o₁ c₁ o₂ c₂} hio hlt hoj h₁ h₂ => ?_⟩
  · rcases (by omega : o = i ∨ (i + 1 ≤ o ∧ o < c) ∨ o = c ∨ c + 1 ≤ o) with
      rfl | ⟨hlo, hhi⟩ | rfl | hlo
    · obtain rfl : c = d := by simpa [here] using ho
      exact ⟨hic, hcj, there⟩
    · obtain ⟨hod, hdc, hd⟩ := inside.opening hlo hhi ho
      exact ⟨hod, by omega, hd⟩
    · simp [there] at ho
    · exact rest.opening hlo hoj ho
  · rcases (by omega : d = i ∨ (i + 1 ≤ d ∧ d < c) ∨ d = c ∨ c + 1 ≤ d) with
      rfl | ⟨hlo, hhi⟩ | rfl | hlo
    · simp [here] at hd
    · obtain ⟨hio, hod, ho⟩ := inside.closing hlo hhi hd
      exact ⟨by omega, hod, ho⟩
    · obtain rfl : i = o := by simpa [there] using hd
      exact ⟨Nat.le_refl i, hic, here⟩
    · obtain ⟨hco, hod, ho⟩ := rest.closing hlo hdj hd
      exact ⟨by omega, hod, ho⟩
  · rcases (by omega : o₁ = i ∨ (i + 1 ≤ o₁ ∧ o₁ < c) ∨ o₁ = c ∨ c + 1 ≤ o₁) with
      rfl | ⟨hlo, hhi⟩ | rfl | hlo
    · obtain rfl : c = c₁ := by simpa [here] using h₁
      rcases (by omega : o₂ < c ∨ o₂ = c ∨ c < o₂) with hin | rfl | hout
      · exact .inr (inside.opening (by omega) hin h₂).2.1
      · simp [there] at h₂
      · exact .inl hout
    · rcases (by omega : o₂ < c ∨ c ≤ o₂) with hin | hout
      · exact inside.nested hlo hlt hin h₁ h₂
      · exact .inl (Nat.lt_of_lt_of_le (inside.opening hlo hhi h₁).2.1 hout)
    · simp [there] at h₁
    · exact rest.nested hlo hlt hoj h₁ h₂

end Program.Linked

theorem Segment.linked {i j : Nat} {ls : List Lexeme} (h : Segment p i ls j) : p.Linked i j := by
  induction h with
  | nil => exact .empty _
  | comment _ ih => exact ih
  | single hl here _ ih => exact ih.cons (Lexeme.isFree_of_instruction? hl) here
  | loop here inside there rest ihbody ihrest =>
    have := inside.le
    have := rest.le
    exact .loop here there (by omega) (by omega) ihbody ihrest

/-- The blocks of a segment stand for as many operators as those of its lexemes. -/
theorem Segment.count_pos {i j : Nat} {ls : List Lexeme} (h : Segment p i ls j)
    (hwf : ∀ l ∈ ls, l.WellFormed) {k n : Nat} {op : Operator} (hik : i ≤ k) (hkj : k < j)
    (hk : p.instructions[k]? = some (.run op n)) : 0 < n := by
  induction h with
  | nil => omega
  | comment _ ih => exact ih (fun l hl => hwf l (List.mem_cons_of_mem _ hl)) hik hkj
  | @single i j l x ls hl here _ ih =>
    by_cases hki : k = i
    · subst hki
      obtain rfl := Option.some.inj (here.symm.trans hk)
      cases l <;> simp only [Lexeme.instruction?, Option.some.injEq, reduceCtorEq,
        Instruction.run.injEq] at hl
      obtain ⟨rfl, rfl⟩ := hl
      cases hwf _ List.mem_cons_self with
      | run _ pos => exact pos
    · exact ih (fun l hl => hwf l (List.mem_cons_of_mem _ hl)) (by omega) hkj
  | @loop i c j body ls here _ there _ ihbody ihrest =>
    rcases (by omega : k = i ∨ (i + 1 ≤ k ∧ k < c) ∨ k = c ∨ c + 1 ≤ k) with
      rfl | ⟨hlo, hhi⟩ | rfl | hlo
    · simp [here] at hk
    · exact ihbody (fun l hl => hwf l (by simp [hl])) hlo hhi
    · simp [there] at hk
    · exact ihrest (fun l hl => hwf l (by simp [hl])) hlo hkj

/-! ## Whole programs -/

/-- What the machine relies on in a program. -/
structure Program.WellLinked (p : Program) : Prop where
  /-- The start of a loop names its end, which is behind it and names it. -/
  opening : ∀ (i c : Nat), p.instructions[i]? = some (.loopOpen c) →
    i < c ∧ c < p.size ∧ p.instructions[c]? = some (.loopClose i)
  /-- The end of a loop names its start, which is in front of it and names it. -/
  closing : ∀ (i o : Nat), p.instructions[i]? = some (.loopClose o) →
    o < i ∧ p.instructions[o]? = some (.loopOpen i)
  /-- Of two loops, one is behind the other or within it. -/
  nested : ∀ (o₁ c₁ o₂ c₂ : Nat), p.instructions[o₁]? = some (.loopOpen c₁) →
    p.instructions[o₂]? = some (.loopOpen c₂) → o₁ < o₂ → c₁ < o₂ ∨ c₂ < c₁
  /-- A block is never empty. -/
  count : ∀ (i : Nat) (op : Operator) (n : Nat), p.instructions[i]? = some (.run op n) → 1 ≤ n

theorem Program.lt_size_of_getElem? {i : Nat} {x : Instruction}
    (h : p.instructions[i]? = some x) : i < p.size :=
  (Array.getElem?_eq_some_iff.mp h).1

theorem Segment.wellLinked {ls : List Lexeme} (h : Segment p 0 ls p.size)
    (hwf : ∀ l ∈ ls, l.WellFormed) : p.WellLinked where
  opening _ _ hi := h.linked.opening (Nat.zero_le _) (p.lt_size_of_getElem? hi) hi
  closing _ _ hi := (h.linked.closing (Nat.zero_le _) (p.lt_size_of_getElem? hi) hi).2
  nested _ _ _ _ h₁ h₂ hlt :=
    h.linked.nested (Nat.zero_le _) hlt (p.lt_size_of_getElem? h₂) h₁ h₂
  count _ _ _ hi := h.count_pos hwf (Nat.zero_le _) (p.lt_size_of_getElem? hi) hi

theorem wellLinked_of_compile {settings : CompilerSettings} {source : String} {c : Compiled}
    (h : compile settings source = .ok c) : c.program.WellLinked :=
  (segment_of_compile h).wellLinked fun _ => wellFormed_of_mem_lexemes

/-- The jump table of every compiled program is sound: the ends of a loop lie in the program, in
order, and name each other, no two loops cross, and what is no end of a loop jumps nowhere. -/
theorem jumps_sound_of_compile {settings : CompilerSettings} {source : String} {c : Compiled}
    (h : compile settings source = .ok c) :
    (∀ (i : Nat) (x : Instruction), c.program.instructions[i]? = some x →
      match x with
      | .loopOpen j => i < j ∧ j < c.program.size ∧
          c.program.instructions[j]? = some (.loopClose i)
      | .loopClose j => j < i ∧ c.program.instructions[j]? = some (.loopOpen i)
      | .run _ n => x.partner = 0 ∧ 1 ≤ n
      | .call .. => x.partner = 0) ∧
    ∀ (o₁ c₁ o₂ c₂ : Nat), c.program.instructions[o₁]? = some (.loopOpen c₁) →
      c.program.instructions[o₂]? = some (.loopOpen c₂) → o₁ < o₂ → c₁ < o₂ ∨ c₂ < c₁ := by
  have hlinked := wellLinked_of_compile h
  refine ⟨fun i x hx => ?_, hlinked.nested⟩
  cases x with
  | run op n => exact ⟨rfl, hlinked.count i op n hx⟩
  | loopOpen j => exact hlinked.opening i j hx
  | loopClose j => exact hlinked.closing i j hx
  | call name argument => rfl

theorem jumps_sound_of_compile_loop_in_loop :
    ∃ c, compile {} "+[>[-]<-]" = .ok c ∧ c.program.instructions[1]? = some (.loopOpen 8) ∧
      1 < 8 ∧ 8 < c.program.size ∧ c.program.instructions[8]? = some (.loopClose 1) := by
  have hcompile : compile {} "+[>[-]<-]" = .ok ⟨⟨#[.run .increment 1, .loopOpen 8,
      .run .moveRight 1, .loopOpen 5, .run .decrement 1, .loopClose 3, .run .moveLeft 1,
      .run .decrement 1, .loopClose 1]⟩, []⟩ := by with_unfolding_all rfl
  exact ⟨_, hcompile, rfl, (jumps_sound_of_compile hcompile).1 1 _ rfl⟩

end TapeMachine
