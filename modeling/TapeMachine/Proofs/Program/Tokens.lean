import TapeMachine.Proofs.Program.Code
import TapeMachine.Proofs.Source.Cut
import TapeMachine.Proofs.Source.Interpreter

/-!
# What a program keeps of its source

Apart from comments a program keeps all of its source. `tokens` reads a source one operator, bracket
or call at a time, with no blocks, and `Instruction.tokens` takes an instruction apart in the same
way; both give the same (`compile_preserves_tokens`). The other half of that statement is about
blocks: an instruction counts a block as long as it goes, and what stands between two blocks that
could have been one is comment.
-/

namespace TapeMachine

/-- What a source consists of if its comments are left out. -/
inductive Token where
  /-- An operator or a bracket. -/
  | symbol (c : Char)
  | call (name : String) (argument : Cell)
  deriving DecidableEq, Repr

/-- The tokens of a call. -/
def Token.ofCall (letters digits : List Char) : Token :=
  call (String.ofList ('\x7b' :: (letters ++ ['\x7d']))) ((argument? digits).getD 0)

/-- The tokens of a text, read one by one. -/
def tokens (calls : Bool) : List Char → List Token
  | [] => []
  | c :: rest =>
    if c ∈ ['+', '-', '>', '<', '.', ',', '[', ']'] then .symbol c :: tokens calls rest
    else if c = '\x7b' ∧ calls then
      match callBehindBrace? rest with
      | some (letters, digits) =>
        .ofCall letters digits :: tokens calls (rest.drop (letters.length + 1 + digits.length))
      | none => tokens calls rest
    else tokens calls rest
termination_by text => text.length
decreasing_by all_goals simp; try omega

/-- The tokens that an instruction stands for. -/
def Instruction.tokens : Instruction → List Token
  | run op n => List.replicate n (.symbol op.symbol)
  | loopOpen _ => [.symbol '[']
  | loopClose _ => [.symbol ']']
  | call name argument => [.call name argument]

/-- The tokens of instructions, in order. -/
def tokensOf (is : List Instruction) : List Token := is.flatMap Instruction.tokens

/-! ## The tokens of lexemes -/

def Lexeme.tokens : Lexeme → List Token
  | run op n => List.replicate n (.symbol op.symbol)
  | opening => [.symbol '[']
  | closing => [.symbol ']']
  | call letters digits => [.ofCall letters digits]
  | comment _ => []

variable {calls : Bool}

theorem tokens_symbol (op : Operator) (rest : List Char) :
    tokens calls (op.symbol :: rest) = .symbol op.symbol :: tokens calls rest := by
  rw [tokens, if_pos]
  cases op <;> decide

theorem tokens_replicate (op : Operator) (n : Nat) (rest : List Char) :
    tokens calls (List.replicate n op.symbol ++ rest) =
      List.replicate n (.symbol op.symbol) ++ tokens calls rest := by
  induction n with
  | zero => rfl
  | succ n ih => rw [List.replicate_succ, List.cons_append, tokens_symbol, ih]; rfl

theorem not_mem_symbols {c : Char} (noOperator : Operator.ofSymbol? c = none) (noOpening : c ≠ '[')
    (noClosing : c ≠ ']') : c ∉ ['+', '-', '>', '<', '.', ',', '[', ']'] := by
  intro hc
  simp only [List.mem_cons, List.not_mem_nil, or_false] at hc
  rcases hc with rfl | rfl | rfl | rfl | rfl | rfl | rfl | rfl <;> contradiction

theorem tokens_lexeme {l : Lexeme} {after : List Char} (h : l.EndsBefore calls after) :
    tokens calls (l.text ++ after) = l.tokens ++ tokens calls after := by
  cases l with
  | run op n => exact tokens_replicate op n after
  | opening => simp [Lexeme.text, tokens, Lexeme.tokens]
  | closing => simp [Lexeme.text, tokens, Lexeme.tokens]
  | call letters digits =>
    obtain ⟨hcalls, hends⟩ := h
    have hcall : Lexeme.call? (letters ++ '\x7d' :: (digits ++ after)) =
        some (letters, digits, after) := Lexeme.call?_eq_some_iff.mpr ⟨rfl, hends⟩
    have hdrop :
        (letters ++ '\x7d' :: (digits ++ after)).drop (letters.length + 1 + digits.length) =
          after := by
      rw [Nat.add_assoc, ← List.drop_drop, List.drop_left, Nat.add_comm, List.drop_succ_cons,
        List.drop_left]
    have htext : (Lexeme.call letters digits).text ++ after =
        '\x7b' :: (letters ++ '\x7d' :: (digits ++ after)) := by
      simp [Lexeme.text, Lexeme.bracedName]
    rw [htext, tokens, if_neg (by decide), if_pos ⟨rfl, hcalls⟩, callBehindBrace?_eq, hcall]
    simp only [Option.map_some, hdrop]
    rfl
  | comment c =>
    obtain ⟨noOperator, noOpening, noClosing, noCall⟩ := h
    have hcomment := not_mem_symbols noOperator noOpening noClosing
    simp only [Lexeme.text, List.cons_append, List.nil_append, Lexeme.tokens]
    rw [tokens, if_neg hcomment]
    split
    · next hbrace => rw [callBehindBrace?_eq, noCall hbrace]; rfl
    · rfl

theorem Cut.tokens_textOf {ls : List Lexeme} (h : Cut calls ls) :
    tokens calls (textOf ls) = ls.flatMap Lexeme.tokens := by
  induction ls with
  | nil => simp [tokens]
  | cons l ls ih => rw [textOf_cons, tokens_lexeme h.1, ih h.2, List.flatMap_cons]

/-! ## Lexemes and instructions side by side -/

/-- An instruction made of a lexeme; where its partner is makes no difference. -/
inductive Lexeme.MakesUp : Lexeme → Instruction → Prop
  | single {l : Lexeme} {x : Instruction} (h : l.instruction? = some x) : MakesUp l x
  | opening (close : Nat) : MakesUp .opening (.loopOpen close)
  | closing (start : Nat) : MakesUp .closing (.loopClose start)

/-- Lexemes that make up instructions one for one, with comments between them. -/
inductive MakeUp : List Lexeme → List Instruction → Prop
  | nil : MakeUp [] []
  | comment {c : Char} {ls : List Lexeme} {is : List Instruction} (rest : MakeUp ls is) :
      MakeUp (.comment c :: ls) is
  | cons {l : Lexeme} {x : Instruction} {ls : List Lexeme} {is : List Instruction}
      (h : l.MakesUp x) (rest : MakeUp ls is) : MakeUp (l :: ls) (x :: is)

theorem MakeUp.append {a b : List Lexeme} {xs ys : List Instruction} (ha : MakeUp a xs)
    (hb : MakeUp b ys) : MakeUp (a ++ b) (xs ++ ys) := by
  induction ha with
  | nil => exact hb
  | comment _ ih => exact .comment ih
  | cons h _ ih => exact .cons h ih

theorem Code.makeUp {k : Nat} {ls : List Lexeme} {is : List Instruction} (h : Code k ls is) :
    MakeUp ls is := by
  induction h with
  | nil => exact .nil
  | comment _ ih => exact .comment ih
  | single hl _ ih => exact .cons (.single hl) ih
  | loop _ _ ihbody ihrest => exact .cons (.opening _) (ihbody.append (.cons (.closing _) ihrest))

/-- Where there is an instruction there is the lexeme that makes it up. -/
theorem MakeUp.split {ls : List Lexeme} {xs ys : List Instruction} {x : Instruction}
    (h : MakeUp ls (xs ++ x :: ys)) :
    ∃ pre l post, ls = pre ++ l :: post ∧ MakeUp pre xs ∧ l.MakesUp x ∧ MakeUp post ys := by
  generalize his : xs ++ x :: ys = is at h
  induction h generalizing xs with
  | nil => simp at his
  | comment _ ih =>
    obtain ⟨pre, l, post, rfl, hpre, hl, hpost⟩ := ih his
    exact ⟨_ :: pre, l, post, rfl, .comment hpre, hl, hpost⟩
  | cons h rest ih =>
    cases xs with
    | nil =>
      obtain ⟨rfl, rfl⟩ := List.cons.inj his
      exact ⟨[], _, _, rfl, .nil, h, rest⟩
    | cons y xs =>
      obtain ⟨rfl, htail⟩ := List.cons.inj his
      obtain ⟨pre, l, post, rfl, hpre, hl, hpost⟩ := ih htail
      exact ⟨_ :: pre, l, post, rfl, .cons h hpre, hl, hpost⟩

theorem Lexeme.MakesUp.tokens {l : Lexeme} {x : Instruction} (h : l.MakesUp x) :
    x.tokens = l.tokens := by
  cases h with
  | single h =>
    cases l with
    | run op n => obtain rfl := Option.some.inj h; rfl
    | call letters digits => obtain rfl := Option.some.inj h; rfl
    | opening => contradiction
    | closing => contradiction
    | comment c => contradiction
  | opening close => rfl
  | closing start => rfl

theorem MakeUp.tokensOf_eq {ls : List Lexeme} {is : List Instruction} (h : MakeUp ls is)
    (hcut : Cut calls ls) : tokensOf is = tokens calls (textOf ls) := by
  rw [hcut.tokens_textOf]
  induction h with
  | nil => rfl
  | comment _ ih => exact ih hcut.2
  | cons h _ ih => rw [tokensOf, List.flatMap_cons, h.tokens, ← tokensOf, ih hcut.2]; rfl

theorem Lexeme.MakesUp.eq_run {l : Lexeme} {op : Operator} {n : Nat} (h : l.MakesUp (.run op n)) :
    l = .run op n := by
  cases h with
  | single h =>
    cases l with
    | run op' n' => obtain ⟨rfl, rfl⟩ := Instruction.run.inj (Option.some.inj h); rfl
    | call letters digits => cases h
    | opening => contradiction
    | closing => contradiction
    | comment c => contradiction

/-! ## Blocks -/

/-- Two blocks of one operator are never next to each other. -/
theorem Cut.symbol_ne {op op' : Operator} {m n : Nat} {post : List Lexeme}
    (h : Cut calls (.run op' m :: .run op n :: post)) : op'.symbol ≠ op.symbol := by
  obtain ⟨⟨-, hhead⟩, ⟨hn, -⟩, -⟩ := h
  obtain ⟨n, rfl⟩ := Nat.exists_eq_succ_of_ne_zero (Nat.ne_of_gt hn)
  intro heq
  apply hhead
  rw [textOf_cons, Lexeme.text, List.replicate_succ, List.cons_append, List.head?_cons, heq]

/-- What is in front of a block does not end with its operator. -/
theorem Cut.getLast?_ne {pre post : List Lexeme} {op : Operator} {n : Nat}
    (h : Cut calls (pre ++ .run op n :: post)) : (textOf pre).getLast? ≠ some op.symbol := by
  rcases List.eq_nil_or_concat pre with rfl | ⟨pre, l, rfl⟩
  · simp
  rw [List.concat_eq_append, List.append_assoc] at h
  have hcut := h.of_append.2
  have hwf := hcut.1.wellFormed
  have hlast : (textOf (pre.concat l)).getLast? = l.text.getLast? := by
    rw [List.concat_eq_append, textOf_append, textOf_cons, textOf_nil, List.append_nil,
      List.getLast?_append, List.getLast?_eq_some_getLast hwf.text_ne_nil]
    rfl
  intro hop
  have hmem : op.symbol ∈ l.text := List.mem_of_getLast? (hlast ▸ hop)
  by_cases hrun : ∃ op' m, l = .run op' m
  · obtain ⟨op', m, rfl⟩ := hrun
    exact hcut.symbol_ne (List.eq_of_mem_replicate hmem).symm
  · have hnone := hwf.noOperator (fun op' m hl => hrun ⟨op', m, hl⟩) _ hmem
    rw [Operator.ofSymbol?_symbol] at hnone
    contradiction

/-- Where an instruction counts a block, there is that block in the source, as long as it goes. -/
theorem MakeUp.split_run {ls : List Lexeme} {xs ys : List Instruction} {op : Operator} {n : Nat}
    (h : MakeUp ls (xs ++ .run op n :: ys)) (hcut : Cut calls ls) :
    ∃ pre post, ls = pre ++ .run op n :: post ∧ MakeUp pre xs ∧ MakeUp post ys ∧ 0 < n ∧
      (textOf pre).getLast? ≠ some op.symbol ∧ (textOf post).head? ≠ some op.symbol := by
  obtain ⟨pre, l, post, rfl, hpre, hl, hpost⟩ := h.split
  obtain rfl := hl.eq_run
  obtain ⟨hn, hhead⟩ := hcut.of_append.2.1
  exact ⟨pre, post, rfl, hpre, hpost, hn, hcut.getLast?_ne, hhead⟩

/-- Between two blocks of one operator there is text. -/
theorem Cut.gap_ne_nil {gap post : List Lexeme} {op : Operator} {m n : Nat}
    (h : Cut calls (.run op m :: (gap ++ .run op n :: post))) : textOf gap ≠ [] := by
  cases gap with
  | nil => exact absurd rfl h.symbol_ne
  | cons l gap =>
    have hne := h.2.1.wellFormed.text_ne_nil
    rw [textOf_cons]
    exact fun hnil => hne (List.append_eq_nil_iff.mp hnil).1

/-- A program has the tokens of its source, in order. An instruction that counts operators stands
for a block of the source with other characters on both sides. Between two such blocks of one
operator there is text, and it is comment. -/
theorem compile_preserves_tokens {settings : CompilerSettings} {source : String} {c : Compiled}
    (h : compile settings source = .ok c) :
    tokensOf c.program.instructions.toList =
      tokens settings.customInstructions source.toList ∧
    (∀ xs op n ys, c.program.instructions.toList = xs ++ .run op n :: ys →
      ∃ front behind, source.toList = front ++ List.replicate n op.symbol ++ behind ∧ 0 < n ∧
        front.getLast? ≠ some op.symbol ∧ behind.head? ≠ some op.symbol ∧
        tokens settings.customInstructions front = tokensOf xs ∧
        tokens settings.customInstructions behind = tokensOf ys) ∧
    ∀ xs op m n ys, c.program.instructions.toList = xs ++ .run op m :: .run op n :: ys →
      ∃ front gap behind, source.toList = front ++ List.replicate m op.symbol ++ gap ++
          List.replicate n op.symbol ++ behind ∧
        gap ≠ [] ∧ tokens settings.customInstructions gap = [] ∧
        tokens settings.customInstructions front = tokensOf xs ∧
        tokens settings.customInstructions behind = tokensOf ys := by
  have hmade := (code_of_compile h).makeUp
  have hcut := cut_lexemes settings.customInstructions source.toList
  have htext : textOf (lexemes settings.customInstructions source.toList) = source.toList :=
    textOf_lexemes _ _
  refine ⟨?_, ?_, ?_⟩
  · rw [hmade.tokensOf_eq hcut, htext]
  · intro xs op n ys his
    rw [his] at hmade
    obtain ⟨pre, post, hls, hpre, hpost, hn, hlast, hhead⟩ := hmade.split_run hcut
    rw [hls] at hcut htext
    obtain ⟨hcutpre, -, hcutpost⟩ := hcut.of_append
    refine ⟨textOf pre, textOf post, ?_, hn, hlast, hhead, ?_, ?_⟩
    · rw [← htext]
      simp [Lexeme.text]
    · exact (hpre.tokensOf_eq hcutpre).symm
    · exact (hpost.tokensOf_eq hcutpost).symm
  · intro xs op m n ys his
    rw [his] at hmade
    obtain ⟨pre, rest, hls, hpre, hrest, -⟩ := hmade.split_run hcut
    rw [hls] at hcut htext
    obtain ⟨hcutpre, hblocks⟩ := hcut.of_append
    -- The second block is the first thing behind the first that makes up an instruction.
    have hrest : MakeUp rest ([] ++ .run op n :: ys) := hrest
    obtain ⟨gap, post, rfl, hgap, hpost, -⟩ := hrest.split_run hblocks.2
    obtain ⟨hcutgap, -, hcutpost⟩ := hblocks.2.of_append
    refine ⟨textOf pre, textOf gap, textOf post, ?_, hblocks.gap_ne_nil, ?_, ?_, ?_⟩
    · rw [← htext]
      simp [Lexeme.text]
    · exact (hgap.tokensOf_eq hcutgap).symm
    · exact (hpre.tokensOf_eq hcutpre).symm
    · exact (hpost.tokensOf_eq hcutpost).symm

theorem compile_preserves_tokens_gap :
    ∃ c, compile { customInstructions := true } "\x7ba\x7d2++ +" = .ok c ∧
      tokensOf c.program.instructions.toList = tokens true "\x7ba\x7d2++ +".toList ∧
      ∃ front gap behind, "\x7ba\x7d2++ +".toList = front ++ List.replicate 2 '+' ++ gap ++
          List.replicate 1 '+' ++ behind ∧
        gap ≠ [] ∧ tokens true gap = [] ∧ tokens true front = [.call "\x7ba\x7d" 2] ∧
        tokens true behind = [] := by
  have hcompile : compile { customInstructions := true } "\x7ba\x7d2++ +" =
      .ok ⟨⟨#[.call "\x7ba\x7d" 2, .run .increment 2, .run .increment 1]⟩, []⟩ := by
    with_unfolding_all rfl
  obtain ⟨htokens, -, hblocks⟩ := compile_preserves_tokens hcompile
  exact ⟨_, hcompile, htokens, hblocks [.call "\x7ba\x7d" 2] .increment 2 1 [] rfl⟩

end TapeMachine
