import TapeMachine.Proofs.Program.Brackets
import TapeMachine.Proofs.Program.CheckedScan

/-!
# Every access is in range

A scan is in range if its cursor is not past the end of the source and its open loops are in the
program (`ByteScan.InRange`); its cursor may stand inside a character. From such a scan a turn makes
no access that cannot be made and does what it does without the checks (`checkedTurn_eq`), and it
leads to a scan in range that is further on (`InRange.of_iterate`). So the scan comes to the end of
the source without a fault (`compile_accesses_in_range`).
-/

namespace TapeMachine

namespace ByteScan

variable {calls : Bool} {source : String} {s t : ByteScan} {b : UInt8}

/-! ## One turn -/

/-- Before, between and behind the name and the digits of a call are boundaries. -/
theorem checkedCall_eq {front rest letters digits after : List Char}
    (h : source.toList = front ++ '\x7b' :: rest) (hs : s.offset = (Position.behind front).offset)
    (hcall : Lexeme.call? rest = some (letters, digits, after)) :
    s.checkedCall source (letters.length + 2) digits.length =
      .ok ((s.call source (bytesOf source.toList) letters.length digits.length).pass
        (letters.length + 2 + digits.length)) := by
  cases Lexeme.call?_wellFormed hcall with
  | call _ lower digit =>
    have hletters := isSmall_of_mem_bracedName lower
    have hdigits : ∀ c ∈ digits, IsSmall c := fun c hc => isSmall_of_isDigit c (digit c hc)
    have hname : source.toList = front ++ Lexeme.bracedName letters ++ (digits ++ after) := by
      simp [h, Lexeme.call?_eq_some hcall, Lexeme.bracedName]
    have hliteral : source.toList = front ++ Lexeme.bracedName letters ++ digits ++ after := by
      rw [hname, List.append_assoc (front ++ _)]
    have hdrop : (bytesOf source.toList).drop s.offset =
        bytesOf (Lexeme.bracedName letters ++ (digits ++ after)) := by
      rw [hs]
      exact drop_bytesOf (hname.trans (List.append_assoc ..))
    have hnameText := textBetween_of_split hname
    have hliteralText := textBetween_of_split hliteral
    rw [offset_behind_append hdigits, offset_behind_append hletters, Lexeme.length_bracedName,
      ← hs] at hliteralText
    rw [offset_behind_append hletters, Lexeme.length_bracedName, ← hs] at hnameText
    rw [call_eq lower digit hdrop, checkedCall]
    simp only [hnameText, hliteralText, Stop.ok_bind, String.toList_ofList]
    cases argument? digits <;> simp [append_eq, emit, pass, Nat.add_assoc]

/-- What keeps the accesses of a scan in range. Nothing is asked about the characters of the source:
the cursor may stand inside one. -/
structure InRange (source : String) (s : ByteScan) : Prop where
  offset_le : s.offset ≤ source.utf8ByteSize
  opened : ∀ i ∈ s.opened, i < s.instructions.size

theorem inRange_start (source : String) : InRange source {} := ⟨Nat.zero_le _, nofun⟩

/-- The checks of a turn pass. -/
theorem checkedTurn_eq (h : s.InRange source) (hb : (bytesOf source.toList)[s.offset]? = some b)
    (calls : Bool) :
    s.checkedTurn calls source (bytesOf source.toList) b =
      (s.turn calls source (bytesOf source.toList) b).mapError .bracket := by
  have hdrop : (bytesOf source.toList).drop s.offset =
      b :: (bytesOf source.toList).drop (s.offset + 1) := by
    rw [List.drop_eq_getElem?_toList_append, hb]
    rfl
  cases hop : Operator.ofSymbol? (byteChar b) with
  | some op =>
    simp only [checkedTurn, turn, Kind.ofByte?, hop, Option.map_some, passBlock_eq hdrop]
    simp [Kind.counted, append_eq, Except.mapError, emit, pass]
  | none =>
    simp only [checkedTurn, turn, Kind.ofByte?, hop, Option.map_none]
    by_cases hopen : byteChar b = '['
    · simp [hopen, append_eq, Except.mapError, emit, pass]
    by_cases hclose : byteChar b = ']'
    · have hopened := h.opened
      obtain ⟨offset, opened, instructions, diagnostics⟩ := s
      simp only [hclose]
      cases opened with
      | nil => rfl
      | cons start outer =>
        have hstart : start < (instructions.push (.loopClose start)).size := by
          rw [Array.size_push]
          exact Nat.lt_succ_of_lt (hopened start List.mem_cons_self)
        simp [Stack.pop, append_eq, emit, pass, replaceAt_of_lt hstart, Except.mapError]
    by_cases hbrace : byteChar b = '\x7b' ∧ calls
    · -- No large character has the byte of a brace, so the cursor stands in front of a character.
      obtain ⟨hbyte, rfl⟩ := hbrace
      have hsmall : IsSmall (byteChar b) := by
        rw [hbyte]
        decide
      obtain ⟨front, rest, hsource, hfront, hrest⟩ := exists_front_of_drop hdrop hsmall
      rw [hbyte] at hsource
      rw [length_bytesOf] at hfront
      simp only [hbyte, checkedLengths?_eq hdrop, ← hrest, callLengths?_bytesOf]
      cases hcall : Lexeme.call? rest with
      | none => rfl
      | some found =>
        obtain ⟨letters, digits, after⟩ := found
        exact checkedCall_eq hsource hfront.symm hcall
    · simp [hopen, hclose, hbrace, Except.mapError]

namespace InRange

theorem emit (h : s.InRange source) (i : Instruction) : (s.emit i).InRange source := by
  refine ⟨h.offset_le, fun j hj => ?_⟩
  rw [ByteScan.emit, Array.size_push]
  exact Nat.lt_succ_of_lt (h.opened j hj)

theorem pass (h : s.InRange source) {count : Nat} (hle : s.offset + count ≤ source.utf8ByteSize) :
    (s.pass count).InRange source := ⟨hle, h.opened⟩

theorem call (h : s.InRange source) (bytes : List UInt8) (letters digits : Nat) :
    (s.call source bytes letters digits).InRange source := by
  unfold ByteScan.call
  dsimp only
  split
  · exact h.emit _
  · exact ⟨h.offset_le, (h.emit _).opened⟩

end InRange

theorem callLengths?_le {more : List UInt8} {letters digits : Nat}
    (h : callLengths? more = some (letters, digits)) : letters + 1 + digits ≤ more.length := by
  unfold callLengths? at h
  dsimp only at h
  split at h
  · contradiction
  · next hcall =>
    obtain ⟨rfl, rfl⟩ := Prod.mk.inj (Option.some.inj h)
    simp only [not_or, Decidable.not_not] at hcall
    have hletters := lt_length_of_getElem?_map hcall.2
    have hdigits := (List.takeWhile_sublist (fun b => (byteChar b).isDigit)
      (l := more.drop ((more.takeWhile fun b => (byteChar b).isLower).length + 1))).length_le
    rw [List.length_drop] at hdigits
    omega

/-- A turn at a byte of the source leads to a scan in range again. -/
theorem InRange.of_turn (h : s.InRange source) (hb : (bytesOf source.toList)[s.offset]? = some b)
    (ht : s.turn calls source (bytesOf source.toList) b = .ok t) : t.InRange source := by
  have hmore : s.offset + 1 + ((bytesOf source.toList).drop (s.offset + 1)).length =
      source.utf8ByteSize := by
    have hlt := (List.getElem?_eq_some_iff.mp hb).1
    rw [length_bytesOf_toList] at hlt
    rw [List.length_drop, length_bytesOf_toList]
    omega
  have hone : s.offset + 1 ≤ source.utf8ByteSize := hmore ▸ Nat.le_add_right ..
  rcases turn_cases ht with
    ⟨op, count, hcount, rfl⟩ | rfl | ⟨start, outer, hopened, rfl⟩ | ⟨letters, digits, hcall, rfl⟩ |
    rfl
  · have hblock := (List.takeWhile_sublist (· == b)
      (l := (bytesOf source.toList).drop (s.offset + 1))).length_le
    refine (h.emit _).pass ?_
    rw [offset_emit]
    omega
  · refine ⟨hone, fun i hi => ?_⟩
    rcases List.mem_cons.mp hi with rfl | hi
    · exact (Array.size_push ..) ▸ Nat.lt_succ_self _
    · exact (h.emit _).opened i hi
  · refine ⟨hone, fun i hi => ?_⟩
    rw [Array.size_setIfInBounds, Array.size_push]
    exact Nat.lt_succ_of_lt (h.opened i (hopened ▸ List.mem_cons_of_mem start hi))
  · have hle := callLengths?_le hcall
    refine (h.call _ _ _).pass ?_
    rw [offset_call]
    omega
  · exact h.pass hone

/-! ## Whole scans -/

theorem iterate_of_end (h : (bytesOf source.toList)[s.offset]? = none) (calls : Bool) :
    s.iterate calls source = .ok none := by
  simp only [iterate, toUTF8_eq_bytesOf, h]

theorem iterate_of_byte (h : s.InRange source) (hb : (bytesOf source.toList)[s.offset]? = some b)
    (calls : Bool) :
    s.iterate calls source =
      ((s.turn calls source (bytesOf source.toList) b).map some).mapError .bracket := by
  simp only [iterate, toUTF8_eq_bytesOf, hb, checkedTurn_eq h hb]
  cases s.turn calls source (bytesOf source.toList) b <;> rfl

/-- A scan in range is at the end of the source, or one more turn brings it nearer to the end, or it
blames a bracket. -/
theorem InRange.iterate_cases (h : s.InRange source) (calls : Bool) :
    (s.offset = source.utf8ByteSize ∧ s.iterate calls source = .ok none) ∨
      (s.offset < source.utf8ByteSize ∧ ∃ t, s.iterate calls source = .ok (some t) ∧
        t.InRange source ∧ s.offset < t.offset) ∨
      (s.offset < source.utf8ByteSize ∧ ∃ e, s.iterate calls source = .error (.bracket e)) := by
  have hlength := length_bytesOf_toList source
  cases hb : (bytesOf source.toList)[s.offset]? with
  | none =>
    have hle := List.getElem?_eq_none_iff.mp hb
    exact .inl ⟨Nat.le_antisymm h.offset_le (hlength ▸ hle), iterate_of_end hb calls⟩
  | some b =>
    have hlt := hlength ▸ (List.getElem?_eq_some_iff.mp hb).1
    rw [iterate_of_byte h hb]
    cases hturn : s.turn calls source (bytesOf source.toList) b with
    | ok t => exact .inr (.inl ⟨hlt, t, rfl, h.of_turn hb hturn, offset_lt_of_turn hturn⟩)
    | error e => exact .inr (.inr ⟨hlt, e, rfl⟩)

theorem InRange.of_iterate (h : s.InRange source) (ht : s.iterate calls source = .ok (some t)) :
    t.InRange source ∧ s.offset < t.offset := by
  rcases h.iterate_cases calls with ⟨-, hend⟩ | ⟨-, u, hnext, hu⟩ | ⟨-, e, hblame⟩
  · simp [hend] at ht
  · rw [hnext] at ht
    obtain rfl := Option.some.inj (Except.ok.inj ht)
    exact hu
  · simp [hblame] at ht

/-- How a scan goes on: with no access that cannot be made, nearer to the end with every turn, and
until it is there. -/
structure Proceeds (calls : Bool) (source : String) (s : ByteScan) : Prop where
  within : s.offset ≤ source.utf8ByteSize
  noFault : ∀ f, s.iterate calls source ≠ .error (.fault f)
  forward : ∀ t, s.iterate calls source = .ok (some t) → s.offset < t.offset
  end_iff : s.iterate calls source = .ok none ↔ s.offset = source.utf8ByteSize

theorem InRange.proceeds (h : s.InRange source) (calls : Bool) : s.Proceeds calls source := by
  refine ⟨h.offset_le, ?_, fun t ht => (h.of_iterate ht).2, ?_⟩
  all_goals
    rcases h.iterate_cases calls with ⟨heq, hend⟩ | ⟨hlt, u, hnext, -⟩ | ⟨hlt, e, hblame⟩
  · simp [hend]
  · simp [hnext]
  · simp [hblame]
  · simp [heq, hend]
  · simp [hnext, Nat.ne_of_lt hlt]
  · simp [hblame, Nat.ne_of_lt hlt]

theorem Turns.inRange {n : Nat} (h : Turns calls source n s t) (hs : s.InRange source) :
    t.InRange source ∧ s.offset + n ≤ t.offset := by
  induction h with
  | nil => exact ⟨hs, Nat.le_refl _⟩
  | cons turn _ ih =>
    obtain ⟨hnext, hforward⟩ := hs.of_iterate turn
    obtain ⟨ht, hle⟩ := ih hnext
    exact ⟨ht, by omega⟩

/-- The scan that runs without checks is made of checked turns, to its end or to the bracket that it
blames. -/
theorem InRange.exists_turns (h : s.InRange source) (calls : Bool) :
    match s.run calls source (bytesOf source.toList) with
    | .ok t => ∃ n, Turns calls source n s t ∧ t.iterate calls source = .ok none
    | .error e => ∃ n t, Turns calls source n s t ∧
        t.iterate calls source = .error (.bracket e) := by
  fun_induction run calls source (bytesOf source.toList) s with
  | case1 s hend => exact ⟨0, .nil, iterate_of_end hend calls⟩
  | case2 s b hb t hturn ih =>
    have hnext : s.iterate calls source = .ok (some t) := by
      rw [iterate_of_byte h hb, hturn]
      rfl
    have hrest := ih (h.of_turn hb hturn)
    split at hrest
    · obtain ⟨n, hturns, hend⟩ := hrest
      exact ⟨n + 1, .cons hnext hturns, hend⟩
    · obtain ⟨n, u, hturns, hblame⟩ := hrest
      exact ⟨n + 1, u, .cons hnext hturns, hblame⟩
  | case3 s b hb e hturn =>
    have hblame : s.iterate calls source = .error (.bracket e) := by
      rw [iterate_of_byte h hb, hturn]
      rfl
    exact ⟨0, s, .nil, hblame⟩

end ByteScan

open ByteScan

/-- Compiling makes no access that cannot be made and comes to an end, whatever the source is. A
scan under way has made at most one turn for each byte that it has passed, and goes on as `Proceeds`
says. Behind a check that succeeds it stops at the very end of the source, where it has made the
program. The check itself reads one character after another and has nothing to index or to cut; the
place that it blames is a boundary. -/
theorem compile_accesses_in_range (settings : CompilerSettings) (source : String) :
    (∀ n s, Turns settings.customInstructions source n {} s →
      n ≤ s.offset ∧ s.Proceeds settings.customInstructions source) ∧
    (checkBrackets source = .ok () → ∃ n s,
      Turns settings.customInstructions source n {} s ∧
      s.iterate settings.customInstructions source = .ok none ∧
      s.offset = source.utf8ByteSize ∧
      compile settings source = .ok ⟨⟨s.instructions⟩, s.diagnostics.toList⟩) ∧
    ∀ e, checkBrackets source = .error e →
      compile settings source = .error e ∧ IsBoundary source e.position.offset := by
  have hstart := inRange_start source
  refine ⟨?_, ?_, ?_⟩
  · intro n s h
    obtain ⟨hs, hle⟩ := h.inRange hstart
    exact ⟨(Nat.zero_add n) ▸ hle, hs.proceeds _⟩
  · intro hcheck
    have hagree := agree_lexemes settings.customInstructions source
    rw [hcheck] at hagree
    obtain ⟨a, hadd, -⟩ := hagree
    have hscan := ofSource_eq settings.customInstructions source
    have hturns := hstart.exists_turns settings.customInstructions
    rw [ofSource, toUTF8_eq_bytesOf, hadd] at hscan
    rw [hscan] at hturns
    obtain ⟨n, hturns, hend⟩ := hturns
    have hproceeds := (hturns.inRange hstart).1.proceeds settings.customInstructions
    refine ⟨n, a.scan, hturns, hend, hproceeds.end_iff.mp hend, ?_⟩
    simp only [compile, hcheck, hadd]
    rfl
  · intro e he
    refine ⟨by simp only [compile, he], ?_⟩
    rcases blamed_of_checkBrackets_error he with
      ⟨front, rest, hsource, -, rfl⟩ | ⟨front, rest, hsource, -, rfl⟩
    · exact isBoundary_behind hsource
    · exact isBoundary_behind hsource

/-- After one turn the cursor is inside the first character, and the scan goes on from there to the
end. -/
theorem compile_accesses_in_range_inside_character :
    Turns true "é[\x7ba\x7d7]" 1 {} { offset := 1 } ∧ ¬IsBoundary "é[\x7ba\x7d7]" 1 ∧
      ByteScan.Proceeds true "é[\x7ba\x7d7]" { offset := 1 } ∧
      checkBrackets "é[\x7ba\x7d7]" = .ok () ∧
      (∃ n s, Turns true "é[\x7ba\x7d7]" n {} s ∧
        s.iterate true "é[\x7ba\x7d7]" = .ok none ∧ s.offset = 8 ∧
        compile {} "é[\x7ba\x7d7]" = .ok ⟨⟨s.instructions⟩, s.diagnostics.toList⟩) ∧
      checkBrackets "é]" = .error (.unmatchedClose ⟨1, 2, 2⟩) ∧
      compile {} "é]" = .error (.unmatchedClose ⟨1, 2, 2⟩) ∧ IsBoundary "é]" 2 := by
  obtain ⟨hproceeds, hend, -⟩ := compile_accesses_in_range {} "é[\x7ba\x7d7]"
  have hturn : Turns true "é[\x7ba\x7d7]" 1 {} { offset := 1 } :=
    .cons (by with_unfolding_all rfl) .nil
  have hcheck : checkBrackets "é[\x7ba\x7d7]" = .ok () := by with_unfolding_all rfl
  have hblame : checkBrackets "é]" = .error (.unmatchedClose ⟨1, 2, 2⟩) := by
    with_unfolding_all rfl
  obtain ⟨hcompile, hboundary⟩ := (compile_accesses_in_range {} "é]").2.2 _ hblame
  exact ⟨hturn, by with_unfolding_all decide, (hproceeds 1 _ hturn).2, hcheck, hend hcheck, hblame,
    hcompile, hboundary⟩

end TapeMachine
