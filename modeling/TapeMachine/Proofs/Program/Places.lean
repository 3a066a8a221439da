import TapeMachine.Proofs.Program.Links

/-!
# What a program has for each lexeme

The lexemes of a source split in many ways into those that have been read, the one that is next and
those to come. `Segment.placed` says for each of these splits which instruction the program has
there, and for a bracket also where in the source its partner is.
-/

namespace TapeMachine

variable {p : Program}

/-- How many instructions a lexeme stands for. -/
def Lexeme.codeSize : Lexeme → Nat
  | comment _ => 0
  | _ => 1

/-- How many instructions lexemes stand for. -/
def codeSize : List Lexeme → Nat
  | [] => 0
  | l :: ls => l.codeSize + codeSize ls

@[simp] theorem codeSize_nil : codeSize [] = 0 := rfl

@[simp] theorem codeSize_cons (l : Lexeme) (ls : List Lexeme) :
    codeSize (l :: ls) = l.codeSize + codeSize ls := rfl

@[simp] theorem codeSize_append (a b : List Lexeme) :
    codeSize (a ++ b) = codeSize a + codeSize b := by
  induction a with
  | nil => simp
  | cons l a ih => rw [List.cons_append, codeSize_cons, ih, codeSize_cons, Nat.add_assoc]

theorem Lexeme.codeSize_of_instruction? {l : Lexeme} {x : Instruction}
    (h : l.instruction? = some x) : l.codeSize = 1 := by
  cases l with
  | comment c => contradiction
  | _ => rfl

theorem Segment.end_eq {i j : Nat} {ls : List Lexeme} (h : Segment p i ls j) :
    j = i + codeSize ls := by
  induction h with
  | nil => rfl
  | comment _ ih => rw [ih, codeSize_cons, Lexeme.codeSize, Nat.zero_add]
  | single hl _ _ ih => rw [ih, codeSize_cons, Lexeme.codeSize_of_instruction? hl, Nat.add_assoc]
  | loop _ _ _ _ ihbody ihrest =>
    simp only [codeSize_cons, codeSize_append, Lexeme.codeSize]
    omega

theorem Segment.nested {i j : Nat} {ls : List Lexeme} (h : Segment p i ls j) : Nested ls := by
  induction h with
  | nil => exact .nil
  | comment _ ih => exact .plain (by simp) (by simp) ih
  | single hl _ _ ih =>
    refine .plain ?_ ?_ ih
    · rintro rfl
      contradiction
    · rintro rfl
      contradiction
  | loop _ _ _ _ ihbody ihrest => exact .loop ihbody ihrest

/-- What `p` has for a lexeme between `pre` and `post` if the first of `pre` is at index `i`. -/
inductive Placed (p : Program) (i : Nat) (pre : List Lexeme) : Lexeme → List Lexeme → Prop
  | comment {c : Char} {post : List Lexeme} : Placed p i pre (.comment c) post
  | single {l : Lexeme} {x : Instruction} {post : List Lexeme} (hl : l.instruction? = some x)
      (here : p.instructions[i + codeSize pre]? = some x) : Placed p i pre l post
  | opening {body rest : List Lexeme} (inside : Nested body)
      (here : p.instructions[i + codeSize pre]? =
        some (.loopOpen (i + codeSize pre + 1 + codeSize body))) :
      Placed p i pre .opening (body ++ .closing :: rest)
  | closing {front body post : List Lexeme} (split : pre = front ++ .opening :: body)
      (inside : Nested body)
      (here : p.instructions[i + codeSize pre]? = some (.loopClose (i + codeSize front))) :
      Placed p i pre .closing post

namespace Placed

variable {i : Nat} {pre post : List Lexeme} {l : Lexeme}

theorem prepend {k : Nat} (w : List Lexeme) (h : Placed p k pre l post)
    (hk : k = i + codeSize w) : Placed p i (w ++ pre) l post := by
  subst hk
  have hindex : i + codeSize (w ++ pre) = i + codeSize w + codeSize pre := by
    rw [codeSize_append, Nat.add_assoc]
  cases h with
  | comment => exact .comment
  | single hl here => exact .single hl (by rwa [hindex])
  | opening inside here => exact .opening inside (by rwa [hindex])
  | @closing front body post split inside here =>
    have hsplit : w ++ pre = w ++ front ++ .opening :: body := by rw [split, List.append_assoc]
    refine .closing hsplit inside ?_
    rwa [hindex, codeSize_append, ← Nat.add_assoc]

theorem append (w : List Lexeme) (h : Placed p i pre l post) : Placed p i pre l (post ++ w) := by
  cases h with
  | comment => exact .comment
  | single hl here => exact .single hl here
  | opening inside here =>
    rw [List.append_assoc, List.cons_append]
    exact .opening inside here
  | closing split inside here => exact .closing split inside here

end Placed

/-- In a segment every lexeme has the instruction it stands for, at the index that the lexemes in
front of it fill up to. -/
theorem Segment.placed {i j : Nat} {ls : List Lexeme} (h : Segment p i ls j)
    {pre post : List Lexeme} {l : Lexeme} (hsplit : ls = pre ++ l :: post) :
    Placed p i pre l post := by
  induction h generalizing pre l post with
  | nil => simp at hsplit
  | @comment i j c ls _ ih =>
    cases pre with
    | nil =>
      obtain ⟨rfl, rfl⟩ := List.cons.inj hsplit
      exact .comment
    | cons k pre =>
      obtain ⟨rfl, htail⟩ := List.cons.inj hsplit
      exact (ih htail).prepend [.comment c] rfl
  | @single i j k x ls hk here _ ih =>
    cases pre with
    | nil =>
      obtain ⟨rfl, rfl⟩ := List.cons.inj hsplit
      exact .single hk here
    | cons k' pre =>
      obtain ⟨rfl, htail⟩ := List.cons.inj hsplit
      exact (ih htail).prepend [k] (by simp [Lexeme.codeSize_of_instruction? hk])
  | @loop i c j body ls here inside there _ ihbody ihrest =>
    have hc := inside.end_eq
    cases pre with
    | nil =>
      obtain ⟨rfl, rfl⟩ := List.cons.inj hsplit
      refine .opening inside.nested ?_
      rw [codeSize_nil, Nat.add_zero, here, hc]
    | cons k pre =>
      obtain ⟨rfl, htail⟩ := List.cons.inj hsplit
      have hend : Placed p i (.opening :: body) .closing ls := by
        have hsplit : Lexeme.opening :: body = [] ++ .opening :: body := rfl
        refine .closing hsplit inside.nested ?_
        simpa [Lexeme.codeSize, ← Nat.add_assoc, ← hc] using there
      -- The lexeme is behind the body, where the end of the loop comes first, or within it.
      rcases List.append_eq_append_iff.mp htail with ⟨t, rfl, ht⟩ | ⟨t, rfl, ht⟩
      · cases t with
        | nil =>
          obtain ⟨rfl, rfl⟩ := List.cons.inj ht
          rwa [List.append_nil]
        | cons k t =>
          obtain ⟨rfl, rfl⟩ := List.cons.inj ht
          have hrest := (ihrest rfl).prepend (i := i) (.opening :: (body ++ [.closing]))
            (by simp [Lexeme.codeSize]; omega)
          simpa using hrest
      · cases t with
        | nil =>
          obtain ⟨rfl, rfl⟩ := List.cons.inj ht
          rwa [List.append_nil] at hend
        | cons k t =>
          obtain ⟨rfl, rfl⟩ := List.cons.inj ht
          exact ((ihbody rfl).prepend [.opening] rfl).append _

end TapeMachine
