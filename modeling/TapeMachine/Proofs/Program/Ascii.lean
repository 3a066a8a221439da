import TapeMachine.Proofs.Program.Bytes
import TapeMachine.Proofs.Source.Cut

/-!
# Only ASCII has a meaning

A character that is not ASCII is comment, and its width in columns is that of a blank. So with a
blank in the place of each of them a source is cut into the same lexemes (`lexemes_map_blanked`),
and checking, assembling and scanning it come to the same, but for byte offsets
(`compile_blanked`).
-/

namespace TapeMachine

variable {calls : Bool}

/-- A blank in the place of a character that is not ASCII. -/
def blanked (c : Char) : Char := if IsSmall c then c else ' '

/-! ## Characters -/

theorem blanked_of_isSmall {c : Char} (h : IsSmall c) : blanked c = c := if_pos h

theorem map_blanked_of_isSmall {s : List Char} (h : ∀ c ∈ s, IsSmall c) : s.map blanked = s :=
  (List.map_congr_left fun c hc => blanked_of_isSmall (h c hc)).trans (List.map_id' s)

/-- Apart from the blank, an ASCII character is there if and only if it was there before. -/
theorem blanked_eq_iff {c d : Char} (hd : IsSmall d) (hblank : d ≠ ' ') :
    blanked c = d ↔ c = d := by
  unfold blanked
  split
  · exact Iff.rfl
  · next hc =>
    constructor
    · exact fun h => absurd h.symm hblank
    · exact fun h => absurd (h ▸ hd) hc

/-- A class of ASCII characters without the blank has the same members. -/
theorem class_blanked {P : Char → Bool} (hsmall : ∀ c, P c → IsSmall c) (hblank : P ' ' = false)
    (c : Char) : P (blanked c) = P c := by
  unfold blanked
  split
  · rfl
  · next hc =>
    rw [hblank, Bool.eq_false_iff.mpr fun h => hc (hsmall c h)]

theorem ofSymbol?_blanked (c : Char) : Operator.ofSymbol? (blanked c) = Operator.ofSymbol? c := by
  unfold blanked
  split
  · rfl
  · next hc =>
    rw [ofSymbol?_of_large hc]
    rfl

theorem head?_map_blanked {s : List Char} {d : Char} (hd : IsSmall d) (hblank : d ≠ ' ') :
    (s.map blanked).head? = some d ↔ s.head? = some d := by
  rw [List.head?_map, Option.map_eq_some_iff]
  simp only [blanked_eq_iff hd hblank, exists_eq_right]

/-! ## Lexemes -/

namespace Lexeme

/-- The lexeme with a blank in the place of a comment that is not ASCII. -/
def blanked : Lexeme → Lexeme
  | comment c => comment (TapeMachine.blanked c)
  | l => l

theorem WellFormed.text_blanked {l : Lexeme} (h : l.WellFormed) :
    l.blanked.text = l.text.map TapeMachine.blanked := by
  refine Eq.symm ?_
  cases h with
  | run op =>
    apply map_blanked_of_isSmall
    intro c hc
    rw [List.eq_of_mem_replicate hc]
    exact isSmall_symbol op
  | opening => rfl
  | closing => rfl
  | call _ lower digit => exact map_blanked_of_isSmall (isSmall_of_mem_text_call lower digit)
  | comment => rfl

theorem WellFormed.blanked {l : Lexeme} (h : l.WellFormed) : l.blanked.WellFormed := by
  cases h with
  | run op pos => exact .run op pos
  | opening => exact .opening
  | closing => exact .closing
  | call name_ne lower digit => exact .call name_ne lower digit
  | comment noOperator noOpening noClosing =>
    refine .comment ((ofSymbol?_blanked _).trans noOperator) ?_ ?_
    · rwa [ne_eq, blanked_eq_iff (by decide) (by decide)]
    · rwa [ne_eq, blanked_eq_iff (by decide) (by decide)]

/-- No call comes about by blanks. -/
theorem call?_map_blanked {s : List Char} (h : call? s = none) :
    call? (s.map TapeMachine.blanked) = none := by
  cases hcall : call? (s.map TapeMachine.blanked) with
  | none => rfl
  | some found =>
    obtain ⟨name, digits, rest⟩ := found
    obtain ⟨htext, name_ne, lower, -, -⟩ := call?_eq_some_iff.mp hcall
    obtain ⟨front, behind, rfl, hfront, hbehind⟩ := List.map_eq_append_iff.mp htext
    obtain ⟨c, after, rfl, hc, -⟩ := List.map_eq_cons_iff.mp hbehind
    rw [blanked_eq_iff (by decide) (by decide)] at hc
    have hlower : ∀ d ∈ front, d.isLower := by
      intro d hd
      rw [← class_blanked isSmall_of_isLower rfl]
      exact lower _ (hfront ▸ List.mem_map_of_mem hd)
    have hne : front ≠ [] := by
      rintro rfl
      exact name_ne hfront.symm
    rw [hc, call?_of_name hne hlower] at h
    contradiction

theorem EndsBefore.blanked {l : Lexeme} {after : List Char} (h : l.EndsBefore calls after) :
    l.blanked.EndsBefore calls (after.map TapeMachine.blanked) := by
  cases l with
  | run op n =>
    have hblank : op.symbol ≠ ' ' := by cases op <;> decide
    exact ⟨h.1, fun hhead => h.2 ((head?_map_blanked (isSmall_symbol op) hblank).mp hhead)⟩
  | opening => trivial
  | closing => trivial
  | call name digits =>
    obtain ⟨hcalls, name_ne, lower, digit, stop⟩ := h
    refine ⟨hcalls, name_ne, lower, digit, ?_⟩
    intro c hc hdigit
    have hblank : c ≠ ' ' := by
      rintro rfl
      contradiction
    exact stop c ((head?_map_blanked (isSmall_of_isDigit c hdigit) hblank).mp hc) hdigit
  | comment c =>
    have hwf := (EndsBefore.wellFormed (l := comment c) h).blanked
    cases hwf with
    | comment noOperator noOpening noClosing =>
      refine ⟨noOperator, noOpening, noClosing, ?_⟩
      rintro ⟨hbrace, hcalls⟩
      rw [blanked_eq_iff (by decide) (by decide)] at hbrace
      exact call?_map_blanked (h.2.2.2 ⟨hbrace, hcalls⟩)

end Lexeme

theorem textOf_map_blanked {ls : List Lexeme} (h : ∀ l ∈ ls, l.WellFormed) :
    textOf (ls.map .blanked) = (textOf ls).map blanked := by
  induction ls with
  | nil => rfl
  | cons l ls ih =>
    obtain ⟨hl, hls⟩ := List.forall_mem_cons.mp h
    rw [List.map_cons, textOf_cons, textOf_cons, List.map_append, hl.text_blanked, ih hls]

theorem Cut.blanked {ls : List Lexeme} (h : Cut calls ls) : Cut calls (ls.map .blanked) := by
  induction ls with
  | nil => trivial
  | cons l ls ih =>
    obtain ⟨hends, htail⟩ := h
    refine ⟨?_, ih htail⟩
    rw [textOf_map_blanked htail.wellFormed]
    exact hends.blanked

/-- With blanks a text is cut where it was cut before. -/
theorem lexemes_map_blanked (calls : Bool) (s : List Char) :
    lexemes calls (s.map blanked) = (lexemes calls s).map .blanked := by
  have hcut := cut_lexemes calls s
  refine lexemes_eq_iff.mpr ⟨?_, hcut.blanked⟩
  rw [textOf_map_blanked hcut.wellFormed, textOf_lexemes]

/-! ## What is left without byte offsets -/

def Position.withoutOffset (p : Position) : Position := { p with offset := 0 }

def BracketError.withoutOffset : BracketError → BracketError
  | unmatchedClose p => unmatchedClose p.withoutOffset
  | unmatchedOpen p => unmatchedOpen p.withoutOffset

def ArgumentError.withoutOffset (e : ArgumentError) : ArgumentError :=
  { e with position := e.position.withoutOffset }

def Compiled.withoutOffsets (c : Compiled) : Compiled :=
  { c with diagnostics := c.diagnostics.map .withoutOffset }

def Assembly.withoutOffsets (a : Assembly) : Assembly :=
  { a with
    position := a.position.withoutOffset
    diagnostics := a.diagnostics.map .withoutOffset }

def ByteScan.withoutOffsets (s : ByteScan) : ByteScan :=
  { s with offset := 0, diagnostics := s.diagnostics.map .withoutOffset }

/-- A result that may be a fault of the brackets, without byte offsets. -/
def withoutOffsetsIn {α : Type} (f : α → α) (r : Except BracketError α) : Except BracketError α :=
  (r.map f).mapError BracketError.withoutOffset

@[simp] theorem withoutOffsetsIn_ok {α : Type} (f : α → α) (x : α) :
    withoutOffsetsIn f (.ok x) = .ok (f x) := rfl

@[simp] theorem withoutOffsetsIn_error {α : Type} (f : α → α) (e : BracketError) :
    withoutOffsetsIn f (.error e) = .error e.withoutOffset := rfl

/-! ## Checking and assembling -/

variable {p q : Position} {a b : Assembly}

theorem withoutOffset_advance_blanked (h : q.withoutOffset = p.withoutOffset) (c : Char) :
    (q.advance (blanked c)).withoutOffset = (p.advance c).withoutOffset := by
  have hline := congrArg Position.line h
  have hcolumn := congrArg Position.column h
  simp only [Position.withoutOffset] at hline hcolumn
  have hnewline := blanked_eq_iff (c := c) (d := '\n') (by decide) (by decide)
  simp only [Position.advance, Position.withoutOffset, hnewline]
  split <;> simp [hline, hcolumn]

theorem withoutOffset_advanceAll_blanked (h : q.withoutOffset = p.withoutOffset) (s : List Char) :
    (q.advanceAll (s.map blanked)).withoutOffset = (p.advanceAll s).withoutOffset := by
  induction s generalizing p q with
  | nil => exact h
  | cons c s ih => exact ih (withoutOffset_advance_blanked h c)

theorem scanBrackets_blanked {opened opened' : Stack Position}
    (h : q.withoutOffset = p.withoutOffset)
    (hopened : opened'.map Position.withoutOffset = opened.map Position.withoutOffset)
    (s : List Char) :
    withoutOffsetsIn id (scanBrackets q opened' (s.map blanked)) =
      withoutOffsetsIn id (scanBrackets p opened s) := by
  induction s generalizing p q opened opened' with
  | nil =>
    cases opened with
    | nil =>
      obtain rfl := List.map_eq_nil_iff.mp hopened
      rfl
    | cons r outer =>
      obtain ⟨r', outer', rfl, hr, -⟩ := List.map_eq_cons_iff.mp hopened
      exact congrArg (fun r => Except.error (BracketError.unmatchedOpen r)) hr
  | cons c s ih =>
    have hnext := withoutOffset_advance_blanked h c
    rw [List.map_cons, scanBrackets, scanBrackets]
    simp only [blanked_eq_iff (show IsSmall '[' by decide) (by decide),
      blanked_eq_iff (show IsSmall ']' by decide) (by decide)]
    split
    · exact ih hnext (List.cons_eq_cons.mpr ⟨h, hopened⟩)
    split
    · cases opened with
      | nil =>
        obtain rfl := List.map_eq_nil_iff.mp hopened
        exact congrArg (fun r => Except.error (BracketError.unmatchedClose r)) h
      | cons r outer =>
        obtain ⟨r', outer', rfl, -, houter⟩ := List.map_eq_cons_iff.mp hopened
        exact ih hnext houter
    · exact ih hnext hopened

theorem checkBrackets_blanked (source : String) :
    withoutOffsetsIn id (checkBrackets (source.map blanked)) =
      withoutOffsetsIn id (checkBrackets source) := by
  rw [checkBrackets, String.toList_map]
  exact scanBrackets_blanked rfl rfl source.toList

namespace Assembly

theorem withoutOffsets_eq_iff :
    b.withoutOffsets = a.withoutOffsets ↔
      b.instructions = a.instructions ∧ b.opened = a.opened ∧
        b.position.withoutOffset = a.position.withoutOffset ∧
        b.diagnostics.map ArgumentError.withoutOffset =
          a.diagnostics.map ArgumentError.withoutOffset := by
  simp [withoutOffsets]

theorem place_blanked (h : b.withoutOffsets = a.withoutOffsets) (l : Lexeme) :
    withoutOffsetsIn withoutOffsets (b.place l.blanked) =
      withoutOffsetsIn withoutOffsets (a.place l) := by
  obtain ⟨hinstructions, hopened, hposition, hdiagnostics⟩ := withoutOffsets_eq_iff.mp h
  cases l with
  | run op n =>
    refine congrArg Except.ok (withoutOffsets_eq_iff.mpr ⟨?_, hopened, hposition, hdiagnostics⟩)
    simp [push, hinstructions]
  | opening =>
    refine congrArg Except.ok (withoutOffsets_eq_iff.mpr ⟨?_, ?_, hposition, hdiagnostics⟩)
    · simp [openLoop, push, hinstructions]
    · simp [openLoop, hinstructions, hopened]
  | closing =>
    simp only [Lexeme.blanked, place, closeLoop, hopened, hinstructions]
    split
    · exact congrArg (fun p => Except.error (BracketError.unmatchedClose p)) hposition
    · exact congrArg Except.ok (withoutOffsets_eq_iff.mpr ⟨rfl, rfl, hposition, hdiagnostics⟩)
  | call letters digits =>
    simp only [Lexeme.blanked, place, call]
    split
    · refine congrArg Except.ok (withoutOffsets_eq_iff.mpr ⟨?_, hopened, hposition, hdiagnostics⟩)
      simp [push, hinstructions]
    · refine congrArg Except.ok (withoutOffsets_eq_iff.mpr ⟨?_, hopened, hposition, ?_⟩)
      · simp [push, hinstructions]
      · simp [ArgumentError.withoutOffset, hdiagnostics, hposition]
  | comment c => exact congrArg Except.ok h

theorem add_blanked (h : b.withoutOffsets = a.withoutOffsets) {l : Lexeme} (hl : l.WellFormed) :
    withoutOffsetsIn withoutOffsets (b.add l.blanked) =
      withoutOffsetsIn withoutOffsets (a.add l) := by
  have hplace := place_blanked h l
  unfold add
  revert hplace
  cases a.place l <;> cases b.place l.blanked
  all_goals
    intro hplace
    simp only [withoutOffsetsIn_ok, withoutOffsetsIn_error, Except.map, reduceCtorEq,
      Except.ok.injEq, Except.error.injEq] at hplace ⊢
  · exact hplace
  · obtain ⟨hinstructions, hopened, hposition, hdiagnostics⟩ := withoutOffsets_eq_iff.mp hplace
    refine withoutOffsets_eq_iff.mpr ⟨hinstructions, hopened, ?_, hdiagnostics⟩
    rw [hl.text_blanked]
    exact withoutOffset_advanceAll_blanked hposition l.text

theorem addAll_blanked (h : b.withoutOffsets = a.withoutOffsets) {ls : List Lexeme}
    (hwf : ∀ l ∈ ls, l.WellFormed) :
    withoutOffsetsIn withoutOffsets (b.addAll (ls.map .blanked)) =
      withoutOffsetsIn withoutOffsets (a.addAll ls) := by
  induction ls generalizing a b with
  | nil => exact congrArg Except.ok h
  | cons l ls ih =>
    obtain ⟨hl, hls⟩ := List.forall_mem_cons.mp hwf
    have hadd := add_blanked h hl
    rw [List.map_cons, addAll, addAll]
    revert hadd
    cases a.add l <;> cases b.add l.blanked
    all_goals
      intro hadd
      simp only [withoutOffsetsIn_ok, withoutOffsetsIn_error, reduceCtorEq, Except.ok.injEq,
        Except.error.injEq] at hadd
    · exact congrArg Except.error hadd
    · exact ih hadd hls

theorem addAll_lexemes_blanked (calls : Bool) (source : String) :
    withoutOffsetsIn withoutOffsets
        (Assembly.addAll {} (lexemes calls (source.map TapeMachine.blanked).toList)) =
      withoutOffsetsIn withoutOffsets (Assembly.addAll {} (lexemes calls source.toList)) := by
  rw [String.toList_map, lexemes_map_blanked]
  exact addAll_blanked rfl fun _ => wellFormed_of_mem_lexemes

/-! ## Compiling -/

/-- What a finished assembly is compiled to. -/
def compiled (a : Assembly) : Compiled := ⟨⟨a.instructions⟩, a.diagnostics.toList⟩

theorem withoutOffsets_compiled (a : Assembly) :
    a.compiled.withoutOffsets = a.withoutOffsets.compiled := by
  simp [compiled, Compiled.withoutOffsets, withoutOffsets]

theorem withoutOffsets_scan (a : Assembly) : a.scan.withoutOffsets = a.withoutOffsets.scan := rfl

end Assembly

theorem withoutOffsetsIn_map {α β : Type} {f : β → β} {g : α → β} {k : α → α}
    (h : ∀ x, f (g x) = g (k x)) (r : Except BracketError α) :
    withoutOffsetsIn f (r.map g) = (withoutOffsetsIn k r).map g := by
  cases r with
  | ok x => exact congrArg Except.ok (h x)
  | error e => rfl

theorem compile_eq (settings : CompilerSettings) (source : String) :
    compile settings source =
      match checkBrackets source with
      | .error e => .error e
      | .ok () =>
        (Assembly.addAll {} (lexemes settings.customInstructions source.toList)).map
          Assembly.compiled := by
  unfold compile
  cases checkBrackets source with
  | error e => rfl
  | ok => cases Assembly.addAll {} (lexemes settings.customInstructions source.toList) <;> rfl

/-- No character that is not ASCII has a meaning, and it takes one column: if blanks are put in the
place of all of them, compiling the source comes to the same, with the same program and the same
reports or with the same error, at the same lines and columns. So does the scan over its bytes,
which meets other bytes then and fewer of them. Only the byte offsets of places differ. -/
theorem compile_blanked (settings : CompilerSettings) (source : String) :
    withoutOffsetsIn Compiled.withoutOffsets (compile settings (source.map blanked)) =
      withoutOffsetsIn Compiled.withoutOffsets (compile settings source) ∧
    withoutOffsetsIn ByteScan.withoutOffsets
        (ByteScan.ofSource settings.customInstructions (source.map blanked)) =
      withoutOffsetsIn ByteScan.withoutOffsets
        (ByteScan.ofSource settings.customInstructions source) := by
  have hadd := Assembly.addAll_lexemes_blanked settings.customInstructions source
  have hcheck := checkBrackets_blanked source
  constructor
  · rw [compile_eq, compile_eq]
    revert hcheck
    cases checkBrackets source <;> cases checkBrackets (source.map blanked)
    all_goals
      intro hcheck
      simp only [withoutOffsetsIn_ok, withoutOffsetsIn_error, reduceCtorEq, Except.error.injEq]
        at hcheck
    · exact congrArg Except.error hcheck
    · dsimp only
      rw [withoutOffsetsIn_map Assembly.withoutOffsets_compiled,
        withoutOffsetsIn_map Assembly.withoutOffsets_compiled, hadd]
  · rw [ByteScan.ofSource_eq, ByteScan.ofSource_eq,
      withoutOffsetsIn_map Assembly.withoutOffsets_scan,
      withoutOffsetsIn_map Assembly.withoutOffsets_scan, hadd]

end TapeMachine
