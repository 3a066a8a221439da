import TapeMachine.Proofs.Program.Bytes
import TapeMachine.Proofs.Program.Tokens

/-!
# Where a source calls

A call stands wherever the bytes of a source are a brace, letters and a brace (`CallStartsAt`);
nothing in front of it can take it away. A program has one call for each such place, in order, with
the name that stands there and the number that the digits behind it mean, and digits that mean too
large a number are reported with that place (`compile_calls_where_source_does`).

The lexemes give the places in order (`callSites`). They miss none, because an opening brace is
never inside another lexeme, and as a comment it has no call behind it (`Cut.mem_callSites`).
-/

namespace TapeMachine

/-! ## Places of calls -/

/-- A call as it stands in a source. -/
structure CallSite where
  /-- What stands between the braces. -/
  letters : List Char
  /-- The digits right behind the closing brace, as far as they go. -/
  digits : List Char
  /-- The place of the opening brace. -/
  position : Position
  deriving DecidableEq, Repr

namespace CallSite

def name (s : CallSite) : String := String.ofList ('\x7b' :: (s.letters ++ ['\x7d']))

def literal (s : CallSite) : String := String.ofList s.digits

/-- Whether the digits mean a number that is no signed 64-bit number. -/
def tooLarge (s : CallSite) : Bool := decide (maxArgument < decimalValue s.digits)

/-- The argument: what the digits mean, and 0 if that is too large. -/
def argument (s : CallSite) : Nat := if s.tooLarge then 0 else decimalValue s.digits

/-- What is reported about digits that mean too large a number. -/
def error (s : CallSite) : ArgumentError := ⟨s.name, s.literal, s.position⟩

/-- The call stands in a text, and no digit stands behind it. -/
def StandsIn (s : CallSite) (text : List Char) : Prop :=
  ∃ front behind, text = front ++ '\x7b' :: (s.letters ++ '\x7d' :: (s.digits ++ behind)) ∧
    s.position = .behind front ∧ s.letters ≠ [] ∧ (∀ c ∈ s.letters, c.isLower) ∧
    (∀ c ∈ s.digits, c.isDigit) ∧ ∀ c, behind.head? = some c → ¬c.isDigit

end CallSite

/-- The bytes from an offset on are a brace, one or more of the letters `a` to `z`, and a brace. -/
def CallStartsAt (bytes : List UInt8) (offset : Nat) : Prop :=
  ∃ letters more, bytes.drop offset = 0x7b :: (letters ++ 0x7d :: more) ∧ letters ≠ [] ∧
    ∀ b ∈ letters, 0x61 ≤ b ∧ b ≤ 0x7a

/-- The name and the argument of a call. -/
def Instruction.callee? : Instruction → Option (String × Int)
  | call name argument => some (name, argument.toInt)
  | _ => none

/-- The call that a lexeme at `p` is, if it is one. -/
def Lexeme.callSites (p : Position) : Lexeme → List CallSite
  | call letters digits => [⟨letters, digits, p⟩]
  | _ => []

/-- The calls among lexemes that start at `p`. -/
def callSites (p : Position) : List Lexeme → List CallSite
  | [] => []
  | l :: ls => l.callSites p ++ callSites (p.advanceAll l.text) ls

/-! ## Characters and bytes -/

theorem isLower_byteChar_iff (b : UInt8) : (byteChar b).isLower ↔ 0x61 ≤ b ∧ b ≤ 0x7a := by
  have hlow : ('a'.val ≤ (byteChar b).val) ↔ 0x61 ≤ b.toNat := by
    rw [← toNat_byteChar]
    exact Iff.rfl
  have hhigh : ((byteChar b).val ≤ 'z'.val) ↔ b.toNat ≤ 0x7a := by
    rw [← toNat_byteChar]
    exact Iff.rfl
  change (decide ('a'.val ≤ (byteChar b).val) && decide ((byteChar b).val ≤ 'z'.val)) = true ↔ _
  rw [Bool.and_eq_true, decide_eq_true_eq, decide_eq_true_eq, hlow, hhigh]
  exact Iff.rfl

/-- The bytes of a call start where the call starts in the text. -/
theorem callStartsAt_bytesOf_iff {text : List Char} {offset : Nat} :
    CallStartsAt (bytesOf text) offset ↔
      ∃ front rest, text = front ++ '\x7b' :: rest ∧ (Position.behind front).offset = offset ∧
        (Lexeme.call? rest).isSome := by
  constructor
  · rintro ⟨letters, more, hbytes, letters_ne, hlower⟩
    obtain ⟨front, rest, rfl, hfront, hrest⟩ := exists_front_of_drop hbytes (by decide)
    have hsmall : ∀ b ∈ letters, IsSmall (byteChar b) := by
      intro b hb
      exact isSmall_of_isLower _ ((isLower_byteChar_iff b).mpr (hlower b hb))
    obtain ⟨behind, rfl, hbehind⟩ := exists_of_bytesOf_append hrest hsmall
    obtain ⟨after, rfl, -⟩ := exists_of_bytesOf_cons hbehind (by decide)
    have hname : ∀ c ∈ letters.map byteChar, c.isLower := by
      intro c hc
      obtain ⟨b, hb, rfl⟩ := List.mem_map.mp hc
      exact (isLower_byteChar_iff b).mpr (hlower b hb)
    have hcall := Lexeme.call?_of_name (by simpa using letters_ne) hname after
    refine ⟨front, _, rfl, ?_, ?_⟩
    · rw [← length_bytesOf, hfront]
    · exact Option.isSome_of_mem hcall
  · rintro ⟨front, rest, rfl, rfl, hcall⟩
    obtain ⟨⟨name, digits, after⟩, hcall⟩ := Option.isSome_iff_exists.mp hcall
    obtain ⟨rfl, name_ne, lower, -, -⟩ := Lexeme.call?_eq_some_iff.mp hcall
    have hsmall : ∀ c ∈ name, IsSmall c := fun c hc => isSmall_of_isLower c (lower c hc)
    refine ⟨bytesOf name, bytesOf (digits ++ after), ?_, ?_, ?_⟩
    · rw [← length_bytesOf, bytesOf_append, List.drop_left, bytesOf_cons, bytesOf_append,
        bytesOf_cons]
      rfl
    · apply List.length_pos_iff.mp
      rw [length_bytesOf_of_isSmall hsmall]
      exact List.length_pos_iff.mpr name_ne
    · intro b hb
      have hchar : byteChar b ∈ name := by
        rw [← map_byteChar_bytesOf hsmall]
        exact List.mem_map_of_mem hb
      exact (isLower_byteChar_iff b).mp (lower _ hchar)

/-! ## The calls of cut lexemes -/

/-- Every call of the text is among those of its lexemes. -/
theorem Cut.mem_callSites {ls : List Lexeme} (h : Cut true ls) {p : Position}
    {front rest letters digits after : List Char} (htext : textOf ls = front ++ '\x7b' :: rest)
    (hcall : Lexeme.call? rest = some (letters, digits, after)) :
    ⟨letters, digits, p.advanceAll front⟩ ∈ callSites p ls := by
  induction ls generalizing p front with
  | nil => simp at htext
  | cons l ls ih =>
    obtain ⟨hends, htail⟩ := h
    rw [callSites]
    apply List.mem_append.mpr
    rw [textOf_cons] at htext
    rcases List.append_eq_append_iff.mp htext with ⟨front', rfl, hrest⟩ | ⟨tail, hl, hrest⟩
    · right
      rw [Position.advanceAll_append]
      exact ih htail hrest
    cases tail with
    | nil =>
      right
      rw [List.append_nil] at hl
      subst hl
      have hfront : textOf ls = [] ++ '\x7b' :: rest := hrest.symm
      exact ih htail hfront
    | cons c tail =>
      left
      obtain ⟨rfl, rfl⟩ := List.cons.inj hrest
      obtain ⟨rfl, ⟨rfl, rfl⟩ | ⟨name, ds, rfl, rfl⟩⟩ := hends.wellFormed.eq_of_brace hl
      · have hnone := hends.2.2.2 ⟨rfl, rfl⟩
        change Lexeme.call? (textOf ls) = _ at hcall
        rw [hnone] at hcall
        contradiction
      · have hsame := Lexeme.call?_eq_some_iff.mpr ⟨rfl, hends.2⟩
        change Lexeme.call? ((name ++ '\x7d' :: ds) ++ textOf ls) = _ at hcall
        rw [List.append_assoc, List.cons_append, hsame] at hcall
        simp only [Option.some.injEq, Prod.mk.injEq] at hcall
        obtain ⟨rfl, rfl, -⟩ := hcall
        exact List.mem_singleton.mpr rfl

/-- What the lexemes of a text call stands in the text. -/
theorem Cut.standsIn {calls : Bool} {ls : List Lexeme} (h : Cut calls ls) (front : List Char) :
    ∀ s ∈ callSites (.behind front) ls, s.StandsIn (front ++ textOf ls) := by
  induction ls generalizing front with
  | nil => nofun
  | cons l ls ih =>
    obtain ⟨hends, htail⟩ := h
    intro s hs
    rw [callSites] at hs
    rcases List.mem_append.mp hs with hs | hs
    · cases l with
      | call letters digits =>
        obtain rfl := List.mem_singleton.mp hs
        obtain ⟨-, letters_ne, lower, digit, stop⟩ := hends
        refine ⟨front, textOf ls, ?_, rfl, letters_ne, lower, digit, stop⟩
        simp [Lexeme.text, Lexeme.bracedName]
      | _ => contradiction
    · rw [Position.advanceAll_behind] at hs
      rw [textOf_cons, ← List.append_assoc]
      exact ih htail _ s hs

theorem Cut.offset_le_of_mem {calls : Bool} {ls : List Lexeme} (h : Cut calls ls) (p : Position) :
    ∀ s ∈ callSites p ls, p.offset ≤ s.position.offset := by
  induction ls generalizing p with
  | nil => nofun
  | cons l ls ih =>
    intro s hs
    rw [callSites] at hs
    rcases List.mem_append.mp hs with hs | hs
    · cases l with
      | call letters digits =>
        obtain rfl := List.mem_singleton.mp hs
        exact Nat.le_refl _
      | _ => contradiction
    · exact Nat.le_trans (p.offset_le_advanceAll l.text) (ih h.2 _ s hs)

/-- The calls come in the order of their places, no two at one place. -/
theorem Cut.pairwise_callSites {calls : Bool} {ls : List Lexeme} (h : Cut calls ls)
    (p : Position) :
    (callSites p ls).Pairwise fun s t => s.position.offset < t.position.offset := by
  induction ls generalizing p with
  | nil => exact .nil
  | cons l ls ih =>
    have hrest := ih h.2 (p.advanceAll l.text)
    rw [callSites]
    cases l with
    | call letters digits =>
      apply List.pairwise_cons.mpr
      refine ⟨?_, hrest⟩
      intro t ht
      have hlower : p.offset < (p.advanceAll (Lexeme.call letters digits).text).offset :=
        Nat.lt_of_lt_of_le (p.offset_lt_advance '\x7b') (Position.offset_le_advanceAll _ _)
      exact Nat.lt_of_lt_of_le hlower (h.2.offset_le_of_mem _ t ht)
    | _ => exact hrest

/-! ## Calls and reports of the program -/

theorem CallSite.argument?_of_tooLarge {s : CallSite} (h : s.tooLarge = true) :
    argument? s.digits = none :=
  if_neg (Nat.not_le.mpr (of_decide_eq_true h))

theorem CallSite.argument?_of_not_tooLarge {s : CallSite} (h : ¬s.tooLarge = true) :
    argument? s.digits = some (Int64.ofNat (decimalValue s.digits)) := by
  apply if_pos
  apply Nat.not_lt.mp
  intro hlarge
  exact h (decide_eq_true hlarge)

theorem CallSite.toInt_argument? (s : CallSite) :
    ((argument? s.digits).getD 0).toInt = s.argument := by
  unfold argument
  by_cases h : s.tooLarge = true
  · rw [if_pos h, argument?_of_tooLarge h]
    rfl
  · have hfits : decimalValue s.digits < 2 ^ 63 := by
      apply Nat.lt_of_not_le
      intro hlarge
      exact h (decide_eq_true hlarge)
    rw [if_neg h, argument?_of_not_tooLarge h]
    exact Int64.toInt_ofNat_of_lt hfits

theorem argumentErrors_eq (p : Position) (ls : List Lexeme) :
    argumentErrors p ls = ((callSites p ls).filter CallSite.tooLarge).map CallSite.error := by
  induction ls generalizing p with
  | nil => rfl
  | cons l ls ih =>
    rw [argumentErrors, callSites, List.filter_append, List.map_append, ih]
    congr 1
    cases l with
    | call letters digits =>
      rw [Lexeme.argumentErrors, Lexeme.callSites]
      by_cases h : CallSite.tooLarge ⟨letters, digits, p⟩ = true
      · have hnone : argument? digits = none := CallSite.argument?_of_tooLarge h
        rw [hnone, List.filter_cons_of_pos h]
        rfl
      · have hsome : argument? digits = some _ := CallSite.argument?_of_not_tooLarge h
        rw [hsome, List.filter_cons_of_neg h]
        rfl
    | _ => rfl

/-- Instructions call what the lexemes that they are made of call. -/
theorem MakeUp.callees_eq {ls : List Lexeme} {is : List Instruction} (h : MakeUp ls is)
    (p : Position) :
    is.filterMap Instruction.callee? =
      (callSites p ls).map fun s => (s.name, (s.argument : Int)) := by
  induction h generalizing p with
  | nil => rfl
  | comment _ ih => exact ih _
  | @cons l x ls is hl _ ih =>
    rw [callSites, List.map_append, ← ih]
    cases hl with
    | opening close => rfl
    | closing start => rfl
    | single hl =>
      cases l with
      | run op n =>
        obtain rfl := Option.some.inj hl
        rfl
      | call letters digits =>
        obtain rfl := Option.some.inj hl
        have hargument := CallSite.toInt_argument? ⟨letters, digits, p⟩
        simp only [List.filterMap_cons, Instruction.callee?, hargument]
        rfl
      | opening => contradiction
      | closing => contradiction
      | comment c => contradiction

/-- A source whose brackets match is compiled to a program that calls where the source does.

There is one call, in order, for each byte offset at which the source has letters between braces. It
has the name that stands there, and its argument is the number that the longest run of digits behind
the name means, or 0 if that is no signed 64-bit number. What is reported are the runs of digits
that mean too large a number, in order, each with its name and with the place of its brace. -/
theorem compile_calls_where_source_does {source : String} (h : checkBrackets source = .ok ()) :
    ∃ (c : Compiled) (sites : List CallSite),
      compile { customInstructions := true } source = .ok c ∧
      sites.Pairwise (fun s t => s.position.offset < t.position.offset) ∧
      (∀ offset, (∃ s ∈ sites, s.position.offset = offset) ↔
        CallStartsAt source.toUTF8.data.toList offset) ∧
      (∀ s ∈ sites, s.StandsIn source.toList) ∧
      c.program.instructions.toList.filterMap Instruction.callee? =
        sites.map (fun s => (s.name, (s.argument : Int))) ∧
      c.diagnostics = (sites.filter CallSite.tooLarge).map CallSite.error ∧
      ∀ name argument, .call name argument ∈ c.program.instructions.toList →
        0 ≤ argument.toInt := by
  obtain ⟨is, hcode, hcompile⟩ := compile_of_checkBrackets h { customInstructions := true }
  have hcut := cut_lexemes true source.toList
  have htext : textOf (lexemes true source.toList) = source.toList := textOf_lexemes _ _
  have hstands := hcut.standsIn []
  have hcallees := hcode.makeUp.callees_eq .start
  rw [List.nil_append, htext] at hstands
  refine ⟨_, callSites .start (lexemes true source.toList), hcompile, hcut.pairwise_callSites _, ?_,
    hstands, hcallees, argumentErrors_eq _ _, ?_⟩
  · intro offset
    rw [toUTF8_eq_bytesOf, callStartsAt_bytesOf_iff]
    constructor
    · rintro ⟨s, hs, rfl⟩
      obtain ⟨front, behind, hsource, hposition, letters_ne, lower, -⟩ := hstands s hs
      refine ⟨front, _, hsource, by rw [hposition], ?_⟩
      rw [Lexeme.call?_of_name letters_ne lower]
      rfl
    · rintro ⟨front, rest, hsource, rfl, hcall⟩
      obtain ⟨⟨letters, digits, after⟩, hcall⟩ := Option.isSome_iff_exists.mp hcall
      have hmem := hcut.mem_callSites (p := .start) (htext.trans hsource) hcall
      rw [Position.advanceAll_start] at hmem
      exact ⟨_, hmem, rfl⟩
  · intro name argument hmem
    have hcallee : (name, argument.toInt) ∈ is.filterMap Instruction.callee? :=
      List.mem_filterMap.mpr ⟨_, hmem, rfl⟩
    rw [hcallees] at hcallee
    obtain ⟨s, -, hs⟩ := List.mem_map.mp hcallee
    obtain ⟨-, hargument⟩ := Prod.mk.inj hs
    rw [← hargument]
    exact Int.natCast_nonneg _

/-- The first two braces start no call, and the first of them does not take the call behind it away.
The number of the second call is the least that is too large. -/
theorem compile_calls_where_source_does_broken_braces :
    checkBrackets "é\x7ba\x7bb\x7d05\x7b\x7d\n\x7bc\x7d9223372036854775808" = .ok () ∧
    ∃ (c : Compiled) (sites : List CallSite),
      compile { customInstructions := true }
        "é\x7ba\x7bb\x7d05\x7b\x7d\n\x7bc\x7d9223372036854775808" = .ok c ∧
      (∀ offset, (∃ s ∈ sites, s.position.offset = offset) ↔
        CallStartsAt
          "é\x7ba\x7bb\x7d05\x7b\x7d\n\x7bc\x7d9223372036854775808".toUTF8.data.toList offset) ∧
      sites.map (fun s => (s.name, (s.argument : Int))) = [("\x7bb\x7d", 5), ("\x7bc\x7d", 0)] ∧
      (sites.filter CallSite.tooLarge).map CallSite.error =
        [⟨"\x7bc\x7d", "9223372036854775808", ⟨2, 1, 12⟩⟩] := by
  have hbrackets :
      checkBrackets "é\x7ba\x7bb\x7d05\x7b\x7d\n\x7bc\x7d9223372036854775808" = .ok () := by
    with_unfolding_all rfl
  have hconcrete : compile { customInstructions := true }
      "é\x7ba\x7bb\x7d05\x7b\x7d\n\x7bc\x7d9223372036854775808" =
      .ok ⟨⟨#[.call "\x7bb\x7d" 5, .call "\x7bc\x7d" 0]⟩,
        [⟨"\x7bc\x7d", "9223372036854775808", ⟨2, 1, 12⟩⟩]⟩ := by
    with_unfolding_all rfl
  obtain ⟨c, sites, hcompile, -, hoffsets, -, hcallees, hreports, -⟩ :=
    compile_calls_where_source_does hbrackets
  obtain rfl := Except.ok.inj (hconcrete.symm.trans hcompile)
  exact ⟨hbrackets, _, sites, hcompile, hoffsets, hcallees.symm, hreports.symm⟩

end TapeMachine
