import TapeMachine.Program.Dump
import TapeMachine.Proofs.Json.RoundTrip
import TapeMachine.Proofs.Program.Tokens
import TapeMachine.Proofs.Source.Lines

/-!
# Renderings tell the whole program

A listing and a JSON dump are made for readers, and yet no two programs have the same one
(`renderings_determine_program`). A listing is read line by line: all indices are as wide as the
program's size, the kind of an instruction ends at the first blank, and so does the name of a call,
since the compiler gives only names without blanks. A dump is read by the fields of its objects, and
its text by reading it as JSON.
-/

namespace TapeMachine

/-! ## Instructions of one kind -/

theorem Operator.name_inj {op op' : Operator} (h : op.name = op'.name) : op = op' := by
  cases op <;> cases op' <;> first | rfl | contradiction

/-- The kinds of the other instructions. -/
theorem Operator.name_ne {kind : String} (h : kind ∈ ["LoopOpen", "LoopClose", "Custom"])
    (op : Operator) : op.name ≠ kind := by
  rintro rfl
  revert h
  cases op <;> decide

namespace Instruction

/-- Two instructions that differ in their operands at most. -/
inductive SameKind : Instruction → Instruction → Prop
  | run (op : Operator) (m n : Nat) : SameKind (run op m) (run op n)
  | loopOpen (m n : Nat) : SameKind (loopOpen m) (loopOpen n)
  | loopClose (m n : Nat) : SameKind (loopClose m) (loopClose n)
  | call (a b : String) (x y : Cell) : SameKind (call a x) (call b y)

theorem sameKind_of_kind_eq {x y : Instruction} (h : x.kind = y.kind) : SameKind x y := by
  cases x <;> cases y
  case run.run op m op' n =>
    obtain rfl := Operator.name_inj h
    exact .run op m n
  case loopOpen.loopOpen m n => exact .loopOpen m n
  case loopClose.loopClose m n => exact .loopClose m n
  case call.call a x b y => exact .call a b x y
  case run.loopOpen op _ _ => exact absurd h (op.name_ne (by simp [kind]))
  case run.loopClose op _ _ => exact absurd h (op.name_ne (by simp [kind]))
  case run.call op _ _ _ => exact absurd h (op.name_ne (by simp [kind]))
  case loopOpen.run _ op _ => exact absurd h.symm (op.name_ne (by simp [kind]))
  case loopClose.run _ op _ => exact absurd h.symm (op.name_ne (by simp [kind]))
  case call.run _ _ op _ => exact absurd h.symm (op.name_ne (by simp [kind]))
  all_goals simp [kind] at h

theorem notMem_kind {c : Char} (hc : c ∈ [' ', '\n', '\r']) (x : Instruction) :
    c ∉ x.kind.toList := by
  simp only [List.mem_cons, List.not_mem_nil, or_false] at hc
  cases x with
  | run op n => rcases hc with rfl | rfl | rfl <;> cases op <;> simp [kind, Operator.name]
  | _ => rcases hc with rfl | rfl | rfl <;> simp [kind]

/-! ## The text of an instruction -/

/-- What the text of an instruction says behind its kind. -/
def operands : Instruction → String
  | run _ n => "x" ++ toString n
  | loopOpen j | loopClose j => "-> " ++ toString j
  | call name argument => name ++ " " ++ toString argument.toInt

theorem text_eq (x : Instruction) : x.text = padRight 10 x.kind ++ " " ++ x.operands := by
  cases x <;> rfl

/-- A call whose name can be told from what is around it in a listing, or no call. -/
def PlainName (x : Instruction) : Prop :=
  ∀ name argument, x = call name argument → ∀ c ∈ [' ', '\n', '\r'], c ∉ name.toList

theorem operands_inj {x y : Instruction} (hx : x.PlainName) (hy : y.PlainName) (h : SameKind x y)
    (hoperands : x.operands = y.operands) : x = y := by
  cases h with
  | run op m n => rw [toString_nat_inj ((String.append_right_inj "x").mp hoperands)]
  | loopOpen m n => rw [toString_nat_inj ((String.append_right_inj "-> ").mp hoperands)]
  | loopClose m n => rw [toString_nat_inj ((String.append_right_inj "-> ").mp hoperands)]
  | call a b x y =>
    have hlists := congrArg String.toList hoperands
    simp only [operands, String.toList_append, List.append_assoc] at hlists
    have ha := hx a x rfl ' ' (by simp)
    have hb := hy b y rfl ' ' (by simp)
    obtain ⟨hname, hargument⟩ := append_cons_inj ha hb hlists
    rw [String.toList_injective hname,
      Int64.toInt_inj.mp (toString_int_inj (String.toList_injective hargument))]

/-- The kind ends at the first blank. -/
theorem toList_text (x : Instruction) :
    x.text.toList = x.kind.toList ++
      ' ' :: (List.replicate (10 - x.kind.length) ' ' ++ x.operands.toList) := by
  have hblanks : ∀ n, List.replicate n ' ' ++ (' ' :: x.operands.toList) =
      ' ' :: (List.replicate n ' ' ++ x.operands.toList) := by
    intro n
    rw [List.append_cons, ← List.replicate_succ', List.replicate_succ, List.cons_append]
  rw [text_eq, padRight]
  simp only [String.toList_append, String.toList_ofList, List.append_assoc]
  exact congrArg (x.kind.toList ++ ·) (hblanks _)

/-- The text of an instruction tells all of it. -/
theorem text_inj {x y : Instruction} (hx : x.PlainName) (hy : y.PlainName)
    (h : x.text.toList = y.text.toList) : x = y := by
  rw [toList_text, toList_text] at h
  obtain ⟨hkind, hrest⟩ := append_cons_inj (x.notMem_kind (by simp)) (y.notMem_kind (by simp)) h
  have hkind : x.kind = y.kind := String.toList_injective hkind
  rw [hkind] at hrest
  exact operands_inj hx hy (sameKind_of_kind_eq hkind)
    (String.toList_injective (List.append_cancel_left hrest))

/-- The text of an instruction stays on its line. -/
theorem notMem_text {x : Instruction} (h : x.PlainName) {c : Char} (hc : c = '\n' ∨ c = '\r') :
    c ∉ x.text.toList := by
  have hlayout : c ∈ [' ', '\n', '\r'] := by rcases hc with rfl | rfl <;> simp
  have hsmall : ∀ s ∈ ["x", "-> ", " "], c ∉ s.toList := by
    rcases hc with rfl | rfl <;> simp
  have hnat : ∀ n : Nat, c ∉ (toString n).toList := by
    intro n hmem
    have hdigit : c.isDigit :=
      Nat.isDigit_of_mem_toDigits (by decide) (by decide) (Nat.toList_repr ▸ hmem)
    rcases hc with rfl | rfl <;> contradiction
  have hint : ∀ n : Int, c ∉ (toString n).toList := by
    intro n hmem
    have hdigit := eq_minus_or_isDigit_of_mem_toString hmem
    rcases hc with rfl | rfl <;> simp at hdigit
  have hoperands : c ∉ x.operands.toList := by
    cases x with
    | run op n =>
      simp only [operands, String.toList_append, List.mem_append, not_or]
      exact ⟨hsmall "x" (by simp), hnat n⟩
    | loopOpen j | loopClose j =>
      simp only [operands, String.toList_append, List.mem_append, not_or]
      exact ⟨hsmall "-> " (by simp), hnat j⟩
    | call name argument =>
      simp only [operands, String.toList_append, List.mem_append, not_or]
      exact ⟨⟨h name argument rfl c hlayout, hsmall " " (by simp)⟩, hint _⟩
  have hblanks : ∀ n, c ∉ ' ' :: List.replicate n ' ' := by
    intro n hmem
    rw [← List.replicate_succ] at hmem
    obtain rfl := List.eq_of_mem_replicate hmem
    rcases hc with hc | hc <;> contradiction
  rw [toList_text, ← List.cons_append]
  simp only [List.mem_append, not_or]
  exact ⟨x.notMem_kind hlayout, hblanks _, hoperands⟩

end Instruction

/-- The calls of a compiled program have plain names. -/
theorem plainName_of_compile {settings : CompilerSettings} {source : String} {c : Compiled}
    (h : compile settings source = .ok c) {x : Instruction}
    (hx : x ∈ c.program.instructions.toList) : x.PlainName := by
  rintro name argument rfl
  obtain ⟨xs, ys, his⟩ := List.append_of_mem hx
  have hmade := (code_of_compile h).makeUp
  rw [his] at hmade
  obtain ⟨pre, l, post, hls, -, hl, -⟩ := hmade.split
  have hmem : l ∈ lexemes settings.customInstructions source.toList := by simp [hls]
  have hwf : l.WellFormed := wellFormed_of_mem_lexemes hmem
  cases hl with
  | single hl =>
    cases hwf with
    | @call letters digits _ lower _ =>
      obtain ⟨rfl, -⟩ := Instruction.call.inj (Option.some.inj hl)
      intro c hc hmem
      rw [String.toList_ofList, Lexeme.bracedName] at hmem
      simp only [List.mem_cons, List.mem_append, List.not_mem_nil, or_false] at hc hmem
      have hlower : c = '\x7b' ∨ c.isLower ∨ c = '\x7d' :=
        hmem.imp_right (Or.imp_left (lower c))
      rcases hc with rfl | rfl | rfl <;> simp at hlower
    | opening | closing | comment | run => cases hl

namespace Program

/-! ## Listings -/

/-- The width of the indices in a listing. -/
def indexWidth (p : Program) : Nat := decimalWidth (max p.size 1)

/-- An index as a listing shows it. -/
def index (p : Program) (k : Nat) : List Char := (padLeft '0' p.indexWidth (toString k)).toList

/-- The first line of a listing. -/
def header (title : String) : List Char := ("== " ++ title ++ " ==").toList

/-- The other lines of a listing. -/
def rows (p : Program) : List (List Char) :=
  p.instructions.toList.zipIdx.map fun (x, k) => p.index k ++ ' ' :: x.text.toList

variable {p q : Program}

theorem length_index {k : Nat} (h : k < p.size) : (p.index k).length = p.indexWidth := by
  rw [index, String.length_toList, indexWidth]
  exact length_padLeft_toString '0' (Nat.le_trans (Nat.le_of_lt h) (Nat.le_max_left ..))

theorem length_rows (p : Program) : p.rows.length = p.size := by
  simp [rows, size]

theorem getElem?_rows (p : Program) (k : Nat) :
    p.rows[k]? = p.instructions[k]?.map fun x => p.index k ++ ' ' :: x.text.toList := by
  simp [rows, Function.comp_def]

theorem toList_listing (p : Program) (title : String) :
    (p.listing title).toList = header title ++ '\n' :: p.rows.flatMap (· ++ ['\n']) := by
  have hrow : ∀ x : Instruction × Nat,
      (padLeft '0' p.indexWidth (toString x.2) ++ " " ++ x.1.text ++ "\n").toList =
        p.index x.2 ++ ' ' :: x.1.text.toList ++ ['\n'] := by
    intro x
    simp [index]
  have hlisting : p.listing title = "== " ++ title ++ " ==\n" ++
      String.join (p.instructions.toList.zipIdx.map fun x =>
        padLeft '0' p.indexWidth (toString x.2) ++ " " ++ x.1.text ++ "\n") := rfl
  rw [hlisting, String.toList_append, String.toList_join, rows, List.flatMap_map, List.flatMap_map]
  simp only [hrow]
  simp [header]

/-- A program whose calls can be told from what is around them in a listing. -/
def PlainNames (p : Program) : Prop := ∀ x ∈ p.instructions.toList, x.PlainName

theorem notMem_index (p : Program) (k : Nat) {c : Char} (hc : ¬c.isDigit) : c ∉ p.index k := by
  intro hmem
  rw [index, padLeft, String.toList_append, String.toList_ofList] at hmem
  rcases List.mem_append.mp hmem with hmem | hmem
  · exact hc (List.eq_of_mem_replicate hmem ▸ by decide)
  · exact hc (Nat.isDigit_of_mem_toDigits (by decide) (by decide) (Nat.toList_repr ▸ hmem))

theorem sourceLines_rows (h : p.PlainNames) :
    sourceLines (p.rows.flatMap (· ++ ['\n'])) = p.rows := by
  apply sourceLines_flatMap
  intro row hrow
  simp only [rows, List.mem_map, Prod.exists] at hrow
  obtain ⟨x, k, hx, rfl⟩ := hrow
  have hplain := h x (List.fst_mem_of_mem_zipIdx hx)
  have hnotMem : ∀ c, c = '\n' ∨ c = '\r' → c ∉ p.index k ++ ' ' :: x.text.toList := by
    intro c hc
    have hdigit : ¬c.isDigit := by rcases hc with rfl | rfl <;> decide
    have hblank : c ≠ ' ' := by rcases hc with rfl | rfl <;> decide
    rw [List.mem_append, List.mem_cons, not_or, not_or]
    exact ⟨p.notMem_index k hdigit, hblank, Instruction.notMem_text hplain hc⟩
  exact ⟨hnotMem _ (.inl rfl), fun hlast => hnotMem _ (.inr rfl) (List.mem_of_getLast? hlast)⟩

theorem newline_notMem_header {title : String} (h : '\n' ∉ title.toList) :
    '\n' ∉ header title := by
  simp [header, h]

theorem sourceLines_listing (h : p.PlainNames) {title : String} (htitle : '\n' ∉ title.toList) :
    sourceLines (p.listing title).toList = header title :: p.rows := by
  have hend : withoutReturn (header title) = header title := by
    rw [withoutReturn, if_neg]
    simp [header, List.getLast?_cons, List.getLast?_append]
  rw [toList_listing, sourceLines_append_newline (newline_notMem_header htitle), hend,
    sourceLines_rows h]

/-- A listing tells all of the program. -/
theorem listing_inj (hp : p.PlainNames) (hq : q.PlainNames) (title : String) :
    p.listing title = q.listing title ↔ p = q := by
  refine ⟨fun h => ?_, fun h => h ▸ rfl⟩
  have hlists := congrArg String.toList h
  rw [toList_listing, toList_listing] at hlists
  have hrows : p.rows = q.rows := by
    have hlines := congrArg sourceLines (List.cons.inj (List.append_cancel_left hlists)).2
    rwa [sourceLines_rows hp, sourceLines_rows hq] at hlines
  have hsize : p.size = q.size := by rw [← length_rows, hrows, length_rows]
  have hindex : ∀ k, p.index k = q.index k := by
    intro k
    rw [index, index, indexWidth, indexWidth, hsize]
  have hinstructions : p.instructions = q.instructions := by
    apply Array.ext hsize
    intro k hk hk'
    have hrow : p.rows[k]? = q.rows[k]? := congrArg (·[k]?) hrows
    rw [getElem?_rows, getElem?_rows, Array.getElem?_eq_getElem hk, Array.getElem?_eq_getElem hk',
      hindex] at hrow
    have htext := List.append_cancel_left (Option.some.inj hrow)
    exact Instruction.text_inj (hp _ (by simp)) (hq _ (by simp)) (List.cons.inj htext).2
  exact congrArg Program.mk hinstructions

end Program

/-! ## Dumps -/

/-- The opcode of an object that stands for an instruction. -/
def Json.opcode? : Json → Option Json
  | object fields => fields.lookup "opcode"
  | _ => none

theorem Instruction.opcode?_json (x : Instruction) (k : Nat) :
    (x.json k).opcode? = some (.string x.kind) := by
  cases x <;> rfl

/-- The object of an instruction tells all of it. -/
theorem Instruction.json_inj {x y : Instruction} {k : Nat} (h : x.json k = y.json k) : x = y := by
  have hkind : x.kind = y.kind := by
    have hopcode := congrArg Json.opcode? h
    rw [opcode?_json, opcode?_json] at hopcode
    exact Json.string.inj (Option.some.inj hopcode)
  cases sameKind_of_kind_eq hkind with
  | run op m n | loopOpen m n | loopClose m n =>
    simp only [json, kind, Json.object.injEq, List.cons.injEq, Prod.mk.injEq, Json.int.injEq] at h
    obtain rfl : m = n := by omega
    rfl
  | call a b x y =>
    simp only [json, kind, Json.object.injEq, List.cons.injEq, Prod.mk.injEq, Json.int.injEq,
      Json.string.injEq] at h
    obtain ⟨⟨-, hargument⟩, -, ⟨-, rfl⟩, -⟩ := h
    rw [Int64.toInt_inj.mp hargument]

theorem Instruction.plain_json (x : Instruction) (k : Nat) : (x.json k).Plain := by
  cases x <;> exact .object (by simp [Json.Plain.int, Json.Plain.string])

namespace Program

variable {p q : Program}

theorem json_inj (name : String) : p.json name = q.json name ↔ p = q := by
  refine ⟨fun h => ?_, fun h => h ▸ rfl⟩
  have hitems : p.instructions.toList.zipIdx.map (fun (x, k) => x.json k) =
      q.instructions.toList.zipIdx.map (fun (x, k) => x.json k) := by
    simpa [json] using h
  have hsize : p.instructions.size = q.instructions.size := by
    simpa using congrArg List.length hitems
  have hinstructions : p.instructions = q.instructions := by
    apply Array.ext hsize
    intro k hk hk'
    have hitem := congrArg (·[k]?) hitems
    simp [hk, hk'] at hitem
    exact Instruction.json_inj hitem
  exact congrArg Program.mk hinstructions

theorem plain_json (p : Program) (name : String) : (p.json name).Plain := by
  have hitems : ∀ item ∈ p.instructions.toList.zipIdx.map (fun (x, k) => x.json k),
      item.Plain := by
    intro item hitem
    obtain ⟨⟨x, k⟩, -, rfl⟩ := List.mem_map.mp hitem
    exact x.plain_json k
  refine .object ?_
  simp only [List.forall_mem_cons]
  exact ⟨.array hitems, .string name, nofun⟩

end Program

/-- Two compiled programs have the same listing under a title, or the same dump, only if they are
the same. A title without newlines is one line, and each instruction is another, which starts with
its index, filled up with zeros to one width. -/
theorem renderings_determine_program {settings settings' : CompilerSettings}
    {source source' : String} {c d : Compiled} (hc : compile settings source = .ok c)
    (hd : compile settings' source' = .ok d) (name : String) :
    (c.program.listing name = d.program.listing name ↔ c.program = d.program) ∧
    (c.program.json name = d.program.json name ↔ c.program = d.program) ∧
    ((c.program.json name).pretty = (d.program.json name).pretty ↔ c.program = d.program) ∧
    ('\n' ∉ name.toList →
      (sourceLines (c.program.listing name).toList).length = c.program.size + 1 ∧
      (sourceLines (c.program.listing name).toList).head? = some (Program.header name) ∧
      ∀ k < c.program.size, (c.program.index k).length = c.program.indexWidth ∧
        ∃ text, (sourceLines (c.program.listing name).toList)[k + 1]? =
          some (c.program.index k ++ ' ' :: text)) := by
  have hcnames : c.program.PlainNames := fun _ => plainName_of_compile hc
  have hdnames : d.program.PlainNames := fun _ => plainName_of_compile hd
  refine ⟨Program.listing_inj hcnames hdnames name, Program.json_inj name, ?_, fun hname => ?_⟩
  · exact (Json.pretty_inj (c.program.plain_json name) (d.program.plain_json name)).trans
      (Program.json_inj name)
  · rw [Program.sourceLines_listing hcnames hname]
    refine ⟨?_, rfl, fun k hk => ⟨Program.length_index hk, ?_⟩⟩
    · rw [List.length_cons, Program.length_rows]
    · refine ⟨c.program.instructions[k].text.toList, ?_⟩
      rw [List.getElem?_cons_succ, Program.getElem?_rows, Array.getElem?_eq_getElem hk]
      rfl

theorem renderings_determine_program_counts :
    ∃ c d, compile {} "+[-]" = .ok c ∧ compile {} "+[--]" = .ok d ∧
      c.program.listing "main" ≠ d.program.listing "main" ∧
      c.program.json "main" ≠ d.program.json "main" ∧
      (c.program.json "main").pretty ≠ (d.program.json "main").pretty ∧
      (sourceLines (c.program.listing "main").toList).length = 5 ∧
      ∃ text, (sourceLines (c.program.listing "main").toList)[3]? =
        some ('2' :: ' ' :: text) := by
  have hc : compile {} "+[-]" = .ok ⟨⟨#[.run .increment 1, .loopOpen 3, .run .decrement 1,
      .loopClose 1]⟩, []⟩ := by
    with_unfolding_all rfl
  have hd : compile {} "+[--]" = .ok ⟨⟨#[.run .increment 1, .loopOpen 3, .run .decrement 2,
      .loopClose 1]⟩, []⟩ := by
    with_unfolding_all rfl
  obtain ⟨hlisting, hjson, hpretty, hlines⟩ := renderings_determine_program hc hd "main"
  obtain ⟨hlength, -, hindex⟩ := hlines (by decide)
  exact ⟨_, _, hc, hd, hlisting.not.mpr (by decide), hjson.not.mpr (by decide),
    hpretty.not.mpr (by decide), hlength, (hindex 2 (by decide)).2⟩

end TapeMachine
