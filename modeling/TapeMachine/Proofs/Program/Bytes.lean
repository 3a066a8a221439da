import TapeMachine.Proofs.Program.ByteScan
import TapeMachine.Proofs.Program.Code

/-!
# Assembly from bytes

A scan over the bytes of a source comes to what assembly comes to (`ByteScan.ofSource_eq`). The two
skip comments differently, one by bytes and one by characters, and agree everywhere else: an
assembly is at a place in the text, and the scan is at the byte offset of that place
(`Assembly.Aligned`).
-/

namespace TapeMachine

/-! ## The bytes of a lexeme -/

theorem isSmall_of_isLower (c : Char) (h : c.isLower) : IsSmall c := by
  have hrange : (decide ('a'.val ≤ c.val) && decide (c.val ≤ 'z'.val)) = true := h
  rw [Bool.and_eq_true, decide_eq_true_eq, decide_eq_true_eq] at hrange
  exact Nat.lt_of_le_of_lt hrange.2 (by decide)

theorem isSmall_of_isDigit (c : Char) (h : c.isDigit) : IsSmall c := by
  simp only [Char.isDigit, Bool.and_eq_true, decide_eq_true_eq] at h
  exact Nat.lt_of_le_of_lt h.2 (by decide)

theorem isSmall_symbol (op : Operator) : IsSmall op.symbol := by
  cases op <;> decide

theorem Lexeme.length_bracedName (letters : List Char) :
    (bracedName letters).length = letters.length + 2 := by
  simp [bracedName]

theorem isSmall_of_mem_bracedName {letters : List Char} (h : ∀ c ∈ letters, c.isLower) :
    ∀ c ∈ Lexeme.bracedName letters, IsSmall c := by
  intro c hc
  simp only [Lexeme.bracedName, List.mem_cons, List.mem_append, List.not_mem_nil, or_false] at hc
  rcases hc with rfl | hc | rfl
  · decide
  · exact isSmall_of_isLower c (h c hc)
  · decide

theorem Lexeme.isSmall_of_mem_text_call {letters digits : List Char}
    (lower : ∀ c ∈ letters, c.isLower) (digit : ∀ c ∈ digits, c.isDigit) :
    ∀ c ∈ (call letters digits).text, IsSmall c := by
  intro c hc
  rcases List.mem_append.mp hc with hc | hc
  · exact isSmall_of_mem_bracedName lower c hc
  · exact isSmall_of_isDigit c (digit c hc)

/-- A call is read off the bytes as it is read off the characters. -/
theorem callLengths?_bytesOf (rest : List Char) :
    ByteScan.callLengths? (bytesOf rest) =
      (Lexeme.call? rest).map fun (letters, digits, _) => (letters.length, digits.length) := by
  have hafter := drop_length_takeWhile_bytesOf isSmall_of_isLower rest
  have hbrace : (bytesOf rest)[(rest.takeWhile Char.isLower).length]?.map byteChar = some '\x7d' ↔
      (rest.dropWhile Char.isLower).head? = some '\x7d' := by
    rw [← head_bytesOf_iff (by decide), ← hafter, List.getElem?_drop, Nat.add_zero]
  unfold ByteScan.callLengths? Lexeme.call?
  dsimp only
  rw [length_takeWhile_bytesOf isSmall_of_isLower fun _ => rfl, ← List.drop_drop, hafter]
  split
  · next hno =>
    split
    · next hname hbehind =>
      rw [ne_eq, hbrace, hname, hbehind] at hno
      simp at hno
    · rfl
  · next hyes =>
    simp only [not_or, Decidable.not_not, hbrace] at hyes
    obtain ⟨c, cs, hname⟩ := List.exists_cons_of_length_pos (Nat.pos_of_ne_zero hyes.1)
    obtain ⟨after, hbehind⟩ := List.head?_eq_some_iff.mp hyes.2
    have hone : (bytesOf ('\x7d' :: after)).drop 1 = bytesOf after := rfl
    rw [hname, hbehind, hone, length_takeWhile_bytesOf isSmall_of_isDigit fun _ => rfl]
    rfl

/-! ## Scan and assembly -/

theorem ByteScan.slice_eq {bytes : List UInt8} {i j : Nat} {t more : List Char}
    (h : bytes.drop i = bytesOf (t ++ more)) (hsmall : ∀ c ∈ t, IsSmall c)
    (hj : j = i + t.length) : slice bytes i j = String.ofList t := by
  have hlength := length_bytesOf_of_isSmall hsmall
  rw [slice, h, hj, Nat.add_sub_cancel_left, bytesOf_append, ← hlength, List.take_left,
    map_byteChar_bytesOf hsmall]

/-- The scan adds the call whose letters and digits are next. -/
theorem ByteScan.call_eq {source : String} {bytes : List UInt8} {s : ByteScan}
    {letters digits after : List Char} (lower : ∀ c ∈ letters, c.isLower)
    (digit : ∀ c ∈ digits, c.isDigit)
    (h : bytes.drop s.offset = bytesOf (Lexeme.bracedName letters ++ (digits ++ after))) :
    s.call source bytes letters.length digits.length =
      match argument? digits with
      | some argument => s.emit (.call (String.ofList (Lexeme.bracedName letters)) argument)
      | none =>
        { s.emit (.call (String.ofList (Lexeme.bracedName letters)) 0) with
          diagnostics := s.diagnostics.push ⟨String.ofList (Lexeme.bracedName letters),
            String.ofList digits, .locate source s.offset⟩ } := by
  have hletters := isSmall_of_mem_bracedName lower
  have hdigits : ∀ c ∈ digits, IsSmall c := fun c hc => isSmall_of_isDigit c (digit c hc)
  have hdrop : bytes.drop (s.offset + (letters.length + 2)) = bytesOf (digits ++ after) := by
    rw [← List.drop_drop, h, bytesOf_append, ← Lexeme.length_bracedName,
      ← length_bytesOf_of_isSmall hletters, List.drop_left]
  have hname := slice_eq h hletters (by rw [Lexeme.length_bracedName])
  have hliteral := slice_eq hdrop hdigits rfl
  cases hargument : argument? digits
  all_goals simp only [call, hname, hliteral, String.toList_ofList, hargument]

namespace Assembly

/-- The scan that has come as far as an assembly. -/
def scan (a : Assembly) : ByteScan :=
  ⟨a.position.offset, a.opened, a.instructions, a.diagnostics⟩

/-- An assembly that has come to the rest `text` of a source. -/
structure Aligned (source : String) (a : Assembly) (text : List Char) : Prop where
  behind : ∃ front, source.toList = front ++ text ∧ a.position = .behind front
  opened : ∀ i ∈ a.opened, i < a.instructions.size

variable {a b : Assembly} {source : String}

theorem aligned_start (source : String) : Aligned source {} source.toList :=
  ⟨⟨[], rfl, Position.advanceAll_start []⟩, nofun⟩

theorem map_scan_add {l : Lexeme} (hplace : a.place l = .ok b) (hsmall : ∀ c ∈ l.text, IsSmall c) :
    (a.add l).map scan = .ok (b.scan.pass l.text.length) := by
  have hlength := length_bytesOf_of_isSmall hsmall
  simp [add, hplace, Except.map, scan, ByteScan.pass, offset_advanceAll, hlength]

namespace Aligned

variable {text : List Char}

theorem drop_eq (h : a.Aligned source text) :
    (bytesOf source.toList).drop a.scan.offset = bytesOf text := by
  obtain ⟨front, hsource, hposition⟩ := h.behind
  rw [scan, hposition]
  exact drop_bytesOf hsource

theorem locate_eq (h : a.Aligned source text) : .locate source a.scan.offset = a.position := by
  obtain ⟨front, hsource, hposition⟩ := h.behind
  rw [scan, hposition]
  exact Position.locate_offset hsource

theorem turn_run {op : Operator} {rest : List Char} {byte : UInt8}
    (hrest : (bytesOf source.toList).drop (a.scan.offset + 1) = bytesOf rest)
    (hbyte : byteChar byte = op.symbol) (calls : Bool) :
    a.scan.turn calls source (bytesOf source.toList) byte =
      (a.add (.run op ((rest.takeWhile (· == op.symbol)).length + 1))).map scan := by
  have hsmall := isSmall_symbol op
  have hclass : ∀ d : Char, (d == op.symbol) = true → IsSmall d := by
    intro d hd
    rwa [eq_of_beq hd]
  have hsame : ∀ b, (b == byte) = (byteChar b == op.symbol) := by
    intro b
    rw [← hbyte, Bool.eq_iff_iff, beq_iff_eq, beq_iff_eq]
    exact ⟨congrArg byteChar, byteChar_inj⟩
  have hall : ∀ n, ∀ d ∈ List.replicate n op.symbol, IsSmall d := by
    intro n d hd
    rwa [List.eq_of_mem_replicate hd]
  rw [map_scan_add (l := .run op _) rfl (hall _), ByteScan.turn]
  simp only [hbyte, Operator.ofSymbol?_symbol, hrest, length_takeWhile_bytesOf hclass hsame,
    Lexeme.text, List.length_replicate]
  rfl

theorem turn_opening {byte : UInt8} (hbyte : byteChar byte = '[') (calls : Bool) :
    a.scan.turn calls source (bytesOf source.toList) byte = (a.add .opening).map scan := by
  have hsmall : ∀ c ∈ Lexeme.opening.text, IsSmall c := List.forall_mem_singleton.mpr (by decide)
  rw [map_scan_add rfl hsmall, ByteScan.turn]
  simp only [hbyte]
  rfl

theorem turn_closing {rest : List Char} {byte : UInt8} (h : a.Aligned source (']' :: rest))
    (hbyte : byteChar byte = ']') (calls : Bool) :
    a.scan.turn calls source (bytesOf source.toList) byte = (a.add .closing).map scan := by
  have hlocate := h.locate_eq
  have hopened := h.opened
  obtain ⟨instructions, opened, position, diagnostics⟩ := a
  cases opened with
  | nil =>
    simp only [ByteScan.turn, hbyte, hlocate]
    rfl
  | cons start outer =>
    have hstart : start < instructions.size := hopened start List.mem_cons_self
    have hpatch : ∀ x y : Instruction, (instructions.push x).setIfInBounds start y =
        (instructions.setIfInBounds start y).push x := by
      intro x y
      simp [Array.setIfInBounds, hstart, Nat.lt_succ_of_lt hstart, Array.set_push]
    have hsmall : ∀ c ∈ Lexeme.closing.text, IsSmall c :=
      List.forall_mem_singleton.mpr (by decide)
    rw [map_scan_add rfl hsmall, ByteScan.turn]
    simp only [hbyte, scan, Stack.pop, List.head?_cons, List.tail_cons, hpatch]
    rfl

theorem turn_call {letters digits after rest : List Char} {byte : UInt8}
    (h : a.Aligned source ('\x7b' :: rest)) (hbyte : byteChar byte = '\x7b')
    (hrest : (bytesOf source.toList).drop (a.scan.offset + 1) = bytesOf rest)
    (hcall : Lexeme.call? rest = some (letters, digits, after)) :
    a.scan.turn true source (bytesOf source.toList) byte =
      (a.add (.call letters digits)).map scan := by
  have hwf := Lexeme.call?_wellFormed hcall
  have htext := Lexeme.call?_eq_some hcall
  cases hwf with
  | call _ lower digit =>
    have hbehind : (bytesOf source.toList).drop a.scan.offset =
        bytesOf (Lexeme.bracedName letters ++ (digits ++ after)) := by
      rw [h.drop_eq, htext]
      simp [Lexeme.bracedName]
    have hcalled : a.scan.call source (bytesOf source.toList) letters.length digits.length =
        (a.call letters digits).scan := by
      rw [ByteScan.call_eq lower digit hbehind, h.locate_eq, Assembly.call]
      cases argument? digits <;> rfl
    rw [map_scan_add rfl (Lexeme.isSmall_of_mem_text_call lower digit), ← hcalled]
    simp [ByteScan.turn, hbyte, hrest, callLengths?_bytesOf, hcall, Operator.ofSymbol?, Lexeme.text,
      Lexeme.length_bracedName]

/-- At a small character the scan does what assembly does with the lexeme that starts there. -/
theorem turn_eq {c : Char} {rest : List Char} {byte : UInt8} (h : a.Aligned source (c :: rest))
    (hsmall : IsSmall c) (hencode : String.utf8EncodeChar c = [byte]) (hbyte : byteChar byte = c)
    (calls : Bool) :
    a.scan.turn calls source (bytesOf source.toList) byte =
      (a.add (Lexeme.next calls c rest).1).map scan := by
  have hrest : (bytesOf source.toList).drop (a.scan.offset + 1) = bytesOf rest := by
    rw [← List.drop_drop, h.drop_eq, bytesOf_cons, hencode]
    rfl
  cases hop : Operator.ofSymbol? c with
  | some op =>
    obtain rfl := Operator.ofSymbol?_eq_some_iff.mp hop
    simp only [Lexeme.next, hop]
    exact turn_run hrest hbyte calls
  | none =>
    by_cases hopen : c = '['
    · subst hopen
      exact turn_opening hbyte calls
    by_cases hclose : c = ']'
    · subst hclose
      exact h.turn_closing hbyte calls
    have hcomment : (a.add (.comment c)).map scan = .ok (a.scan.pass 1) :=
      map_scan_add rfl (by simpa [Lexeme.text] using hsmall)
    by_cases hbrace : c = '\x7b' ∧ calls
    · obtain ⟨rfl, rfl⟩ := hbrace
      cases hcall : Lexeme.call? rest with
      | some found =>
        obtain ⟨letters, digits, after⟩ := found
        simp only [Lexeme.next, hop, hcall]
        exact h.turn_call hbyte hrest hcall
      | none =>
        simp only [ByteScan.turn, Lexeme.next, hbyte, hrest, hop, callLengths?_bytesOf, hcall]
        exact hcomment.symm
    · simp only [ByteScan.turn, Lexeme.next, hbyte, hop, hopen, hclose, hbrace, if_false]
      exact hcomment.symm

/-- Assembly leaves the place to `add` and opens loops only at instructions that it has. -/
theorem of_place {l : Lexeme} (hopened : ∀ i ∈ a.opened, i < a.instructions.size)
    (h : a.place l = .ok b) :
    b.position = a.position ∧ ∀ i ∈ b.opened, i < b.instructions.size := by
  cases l with
  | run op n =>
    obtain rfl := Except.ok.inj h
    refine ⟨rfl, fun i hi => ?_⟩
    simpa [push] using Nat.lt_succ_of_lt (hopened i hi)
  | opening =>
    obtain rfl := Except.ok.inj h
    refine ⟨rfl, fun i hi => ?_⟩
    rcases List.mem_cons.mp hi with rfl | hi
    · simp [openLoop, push]
    · simpa [openLoop, push] using Nat.lt_succ_of_lt (hopened i hi)
  | closing =>
    obtain ⟨instructions, opened, position, diagnostics⟩ := a
    cases opened with
    | nil => contradiction
    | cons start outer =>
      obtain rfl := Except.ok.inj h
      refine ⟨rfl, fun i hi => ?_⟩
      simpa using Nat.lt_succ_of_lt (hopened i (List.mem_cons_of_mem start hi))
  | call letters digits =>
    obtain rfl := Except.ok.inj h
    unfold call
    cases argument? digits <;>
      exact ⟨rfl, fun i hi => by simpa [push] using Nat.lt_succ_of_lt (hopened i hi)⟩
  | comment c =>
    obtain rfl := Except.ok.inj h
    exact ⟨rfl, hopened⟩

theorem add {l : Lexeme} {rest : List Char} (h : a.Aligned source (l.text ++ rest))
    (hadd : a.add l = .ok b) : b.Aligned source rest := by
  obtain ⟨front, hsource, hposition⟩ := h.behind
  unfold Assembly.add at hadd
  cases hplace : a.place l with
  | error e => simp [hplace, Except.map] at hadd
  | ok placed =>
    obtain ⟨hkept, hopened⟩ := of_place h.opened hplace
    simp only [hplace, Except.map, Except.ok.injEq] at hadd
    subst hadd
    refine ⟨⟨front ++ l.text, by rw [hsource, List.append_assoc], ?_⟩, hopened⟩
    rw [hkept, hposition, Position.advanceAll_behind]

end Aligned

end Assembly

/-! ## Large characters -/

theorem ne_of_large {c : Char} (h : ¬IsSmall c) (d : Char) (hd : IsSmall d := by decide) : c ≠ d :=
  fun heq => h (heq ▸ hd)

theorem ofSymbol?_of_large {c : Char} (h : ¬IsSmall c) : Operator.ofSymbol? c = none := by
  cases hop : Operator.ofSymbol? c with
  | none => rfl
  | some op =>
    rw [Operator.ofSymbol?_eq_some_iff] at hop
    exact absurd hop (ne_of_large h op.symbol (isSmall_symbol op))

namespace ByteScan

variable {calls : Bool} {source : String} {bytes : List UInt8} {s : ByteScan}

theorem turn_of_large {b : UInt8} (h : ¬IsSmall (byteChar b)) :
    s.turn calls source bytes b = .ok (s.pass 1) := by
  simp [turn, ofSymbol?_of_large h, ne_of_large h '[', ne_of_large h ']', ne_of_large h '\x7b']

/-- Bytes of large characters are passed over one by one. -/
theorem run_of_large {large more : List UInt8} (h : bytes.drop s.offset = large ++ more)
    (hlarge : ∀ b ∈ large, ¬IsSmall (byteChar b)) :
    s.run calls source bytes = (s.pass large.length).run calls source bytes := by
  induction large generalizing s with
  | nil => rfl
  | cons b large ih =>
    have hbyte : bytes[s.offset]? = some b := by
      have := congrArg (·[0]?) h
      simpa [List.getElem?_drop] using this
    have hrest : bytes.drop (s.pass 1).offset = large ++ more := by
      rw [offset_pass, ← List.drop_drop, h]
      rfl
    have htail := ih hrest fun d hd => hlarge d (List.mem_cons_of_mem b hd)
    rw [run_of_turn hbyte, turn_of_large (hlarge b List.mem_cons_self)]
    simp only [htail]
    simp [pass, Nat.add_assoc, Nat.add_comm 1]

end ByteScan

theorem Lexeme.next_of_large {c : Char} (h : ¬IsSmall c) (calls : Bool) (rest : List Char) :
    next calls c rest = (comment c, rest) := by
  simp [next, ofSymbol?_of_large h, ne_of_large h '[', ne_of_large h ']', ne_of_large h '\x7b']

/-! ## Whole scans -/

/-- From the same place on, the scan comes to what assembly comes to. -/
theorem Assembly.Aligned.run_eq {source : String} {calls : Bool} {text : List Char} {a : Assembly}
    (h : a.Aligned source text) :
    a.scan.run calls source (bytesOf source.toList) = (a.addAll (lexemes calls text)).map scan := by
  fun_induction lexemes calls text generalizing a with
  | case1 =>
    have hend : (bytesOf source.toList)[a.scan.offset]? = none := by
      have := congrArg (·[0]?) h.drop_eq
      simpa [List.getElem?_drop] using this
    rw [ByteScan.run_of_end hend]
    rfl
  | case2 c rest ih =>
    have htext := Lexeme.text_next calls c rest
    by_cases hsmall : IsSmall c
    · obtain ⟨byte, hencode, hbyte⟩ := encode_of_isSmall hsmall
      have hat : (bytesOf source.toList)[a.scan.offset]? = some byte := by
        have := congrArg (·[0]?) h.drop_eq
        simpa [List.getElem?_drop, hencode] using this
      rw [ByteScan.run_of_turn hat, h.turn_eq hsmall hencode hbyte, addAll]
      cases hadd : a.add (Lexeme.next calls c rest).1 with
      | error e => rfl
      | ok b => exact ih ((htext ▸ h).add hadd)
    · have hlarge : ∀ b ∈ String.utf8EncodeChar c, ¬IsSmall (byteChar b) :=
        fun b hb => not_isSmall_of_mem_encode hsmall hb
      rw [Lexeme.next_of_large hsmall] at htext ih ⊢
      have hadd : a.add (.comment c) = .ok { a with position := a.position.advance c } := rfl
      rw [ByteScan.run_of_large h.drop_eq hlarge, addAll, hadd]
      have hrest := ih ((htext ▸ h).add hadd)
      simp only [← hrest]
      simp [scan, ByteScan.pass, offset_advance]

theorem ByteScan.ofSource_eq (calls : Bool) (source : String) :
    ofSource calls source =
      (Assembly.addAll {} (lexemes calls source.toList)).map Assembly.scan := by
  rw [ofSource, toUTF8_eq_bytesOf]
  exact (Assembly.aligned_start source).run_eq

end TapeMachine
