import TapeMachine.Json.Reader
import TapeMachine.Proofs.Json.Scalars

/-!
# Values are read as they are written

`Json.pretty` and `Json.parse?` know nothing of each other, but a value that is written is read
again (`Json.parse?_pretty`), so its text tells all of it. The proof takes the two steps of reading
one by one: the text is cut into the tokens of the value (`Json.Plain.cutsAs`), and the value is put
together from its tokens (`Json.Plain.readsBack`).
-/

namespace TapeMachine.Json

/-! ## From text to tokens -/

/-- A text and the tokens that it is cut into. -/
inductive IsCut : List Char → List Token → Prop
  | nil : IsCut [] []
  | blank {c : Char} {rest : List Char} {ts : List Token} (hc : isBlank c) (h : IsCut rest ts) :
      IsCut (c :: rest) ts
  | mark {c : Char} {rest : List Char} {ts : List Token} (hc : isMark c) (h : IsCut rest ts) :
      IsCut (c :: rest) (.mark c :: ts)
  | scalar {text rest : List Char} {j : Json} {ts : List Token}
      (hread : scalar? text = some (j, rest)) (shorter : rest.length < text.length)
      (h : IsCut rest ts) : IsCut text (.scalar j :: ts)

theorem not_isBlank_of_isMark {c : Char} (h : isMark c) : ¬isBlank c := by
  simp only [isMark, decide_eq_true_eq, List.mem_cons, List.not_mem_nil, or_false] at h
  rcases h with rfl | rfl | rfl | rfl | rfl | rfl <;> decide

theorem IsCut.tokensWithin?_eq {text : List Char} {ts : List Token} (h : IsCut text ts) :
    ∀ limit, text.length ≤ limit → tokensWithin? limit text = some ts := by
  induction h with
  | nil =>
    intro limit _
    rw [tokensWithin?]
  | @blank c rest ts hc _ ih =>
    intro limit hlimit
    obtain ⟨limit, rfl⟩ := Nat.exists_eq_add_of_lt hlimit
    rw [tokensWithin?, if_pos hc]
    exact ih _ (by omega)
  | @mark c rest ts hc _ ih =>
    intro limit hlimit
    obtain ⟨limit, rfl⟩ := Nat.exists_eq_add_of_lt hlimit
    rw [tokensWithin?, if_neg (not_isBlank_of_isMark hc), if_pos hc, ih _ (by omega)]
    rfl
  | @scalar text rest j ts hread shorter _ ih =>
    intro limit hlimit
    obtain ⟨c, text, rfl⟩ := List.exists_cons_of_length_pos (Nat.zero_lt_of_lt shorter)
    rw [List.length_cons] at hlimit shorter
    obtain ⟨limit, rfl⟩ := Nat.exists_eq_add_of_lt hlimit
    have hstart : ¬(isBlank c ∨ isMark c) := by
      intro hc
      rw [scalar?_eq_none hc] at hread
      contradiction
    rw [tokensWithin?, if_neg (not_or.mp hstart).1, if_neg (not_or.mp hstart).2, hread]
    simp only [ih _ (show rest.length ≤ text.length + limit by omega), Option.map_some]

mutual

/-- The tokens of a value as it is written. -/
def tokens : Json → List Token
  | array [] => [.mark '[', .mark ']']
  | array (item :: items) => .mark '[' :: (tokens item ++ itemTokens items)
  | object [] => [.mark '\x7b', .mark '\x7d']
  | object ((name, value) :: fields) =>
    .mark '\x7b' :: .scalar (string name) :: .mark ':' :: (tokens value ++ fieldTokens fields)
  | j => [.scalar j]

/-- The tokens behind an item of an array, up to the closing bracket. -/
def itemTokens : List Json → List Token
  | [] => [.mark ']']
  | item :: items => .mark ',' :: (tokens item ++ itemTokens items)

/-- The tokens behind a field of an object, up to the closing brace. -/
def fieldTokens : List (String × Json) → List Token
  | [] => [.mark '\x7d']
  | (name, value) :: fields =>
    .mark ',' :: .scalar (string name) :: .mark ':' :: (tokens value ++ fieldTokens fields)

end

/-- A value that is written as what it is: its parts are values, and its numbers integers. -/
inductive Plain : Json → Prop
  | null : Plain null
  | bool (b : Bool) : Plain (bool b)
  | int (n : Int) : Plain (int n)
  | string (s : String) : Plain (string s)
  | array {items : List Json} (h : ∀ item ∈ items, Plain item) : Plain (array items)
  | object {fields : List (String × Json)} (h : ∀ field ∈ fields, Plain field.2) :
      Plain (object fields)

/-- A text that is cut into the given tokens whatever is behind it, if only a number ends there. -/
def CutsAs (text : List Char) (ts : List Token) : Prop :=
  ∀ (rest : List Char) (more : List Token),
    EndsNumber rest → IsCut rest more → IsCut (text ++ rest) (ts ++ more)

theorem endsNumber_cons {c : Char} (h : isBlank c ∨ isMark c) (rest : List Char) :
    EndsNumber (c :: rest) := by
  intro d hd
  obtain rfl := Option.some.inj hd
  simp only [isBlank, isMark, decide_eq_true_eq, List.mem_cons, List.not_mem_nil, or_false] at h
  rcases h with (rfl | rfl | rfl | rfl) | (rfl | rfl | rfl | rfl | rfl | rfl) <;> decide

theorem cutsAs_scalar {text : List Char} {j : Json} (hne : text ≠ [])
    (h : ∀ {rest}, EndsNumber rest → scalar? (text ++ rest) = some (j, rest)) :
    CutsAs text [.scalar j] := by
  intro rest more hends hmore
  have hpos := List.length_pos_iff.mpr hne
  exact .scalar (h hends) (by rw [List.length_append]; omega) hmore

theorem cutsAs_quote (s : String) : CutsAs (quote s).toList [.scalar (string s)] := by
  refine cutsAs_scalar ?_ fun _ => scalar?_quote s _
  rw [toList_quote]
  exact List.cons_ne_nil _ _

section Lines

variable {rest : List Char} {ts : List Token}

theorem endsNumber_newline (depth : Nat) : EndsNumber ((newline depth).toList ++ rest) := by
  rw [newline, String.toList_ofList]
  exact endsNumber_cons (.inl rfl) _

theorem isCut_newline (depth : Nat) (h : IsCut rest ts) :
    IsCut ((newline depth).toList ++ rest) ts := by
  have hblanks : ∀ n, IsCut (List.replicate n ' ' ++ rest) ts := by
    intro n
    induction n with
    | zero => exact h
    | succ n ih => exact .blank rfl ih
  rw [newline, String.toList_ofList]
  exact .blank rfl (hblanks _)

/-- A name and its value are cut as each of them is. -/
theorem isCut_field (name : String) {value : List Char} {tokens : List Token}
    (hvalue : CutsAs value tokens) (hends : EndsNumber rest) (h : IsCut rest ts) :
    IsCut ((quote name).toList ++ (": ".toList ++ (value ++ rest)))
      (.scalar (string name) :: .mark ':' :: (tokens ++ ts)) :=
  cutsAs_quote name _ _ (endsNumber_cons (.inr rfl) _) (.mark rfl (.blank rfl (hvalue _ _ hends h)))

theorem isCut_prettyItems {items : List Json} {depth : Nat}
    (ih : ∀ item ∈ items, CutsAs (prettyAt depth item).toList item.tokens) (outer : Nat)
    (h : IsCut rest ts) :
    EndsNumber ((prettyItems depth items).toList ++ ((newline outer).toList ++ ']' :: rest)) ∧
      IsCut ((prettyItems depth items).toList ++ ((newline outer).toList ++ ']' :: rest))
        (itemTokens items ++ ts) := by
  induction items with
  | nil => exact ⟨endsNumber_newline outer, isCut_newline outer (.mark rfl h)⟩
  | cons item items ihitems =>
    obtain ⟨hitem, hitems⟩ := List.forall_mem_cons.mp ih
    obtain ⟨hends, hrest⟩ := ihitems hitems
    simp only [prettyItems, itemTokens, String.toList_append, List.append_assoc, List.cons_append]
    exact ⟨endsNumber_cons (.inr rfl) _,
      .mark rfl (isCut_newline depth (hitem _ _ hends hrest))⟩

theorem isCut_prettyFields {fields : List (String × Json)} {depth : Nat}
    (ih : ∀ field ∈ fields, CutsAs (prettyAt depth field.2).toList field.2.tokens) (outer : Nat)
    (h : IsCut rest ts) :
    EndsNumber ((prettyFields depth fields).toList ++
        ((newline outer).toList ++ '\x7d' :: rest)) ∧
      IsCut ((prettyFields depth fields).toList ++ ((newline outer).toList ++ '\x7d' :: rest))
        (fieldTokens fields ++ ts) := by
  induction fields with
  | nil => exact ⟨endsNumber_newline outer, isCut_newline outer (.mark rfl h)⟩
  | cons field fields ihfields =>
    obtain ⟨name, value⟩ := field
    obtain ⟨hvalue, hfields⟩ := List.forall_mem_cons.mp ih
    obtain ⟨hends, hrest⟩ := ihfields hfields
    simp only [prettyFields, fieldTokens, String.toList_append, List.append_assoc,
      List.cons_append]
    exact ⟨endsNumber_cons (.inr rfl) _,
      .mark rfl (isCut_newline depth (isCut_field name hvalue hends hrest))⟩

end Lines

/-- The text of a value is cut into its tokens. -/
theorem Plain.cutsAs {j : Json} (h : Plain j) (depth : Nat) :
    CutsAs (prettyAt depth j).toList j.tokens := by
  induction h generalizing depth with
  | null =>
    simp only [prettyAt, tokens]
    exact cutsAs_scalar (List.cons_ne_nil _ _) fun _ => rfl
  | bool b =>
    simp only [prettyAt, tokens]
    cases b <;> exact cutsAs_scalar (List.cons_ne_nil _ _) fun _ => rfl
  | int n =>
    simp only [prettyAt, tokens]
    exact cutsAs_scalar (toList_toString_int_ne_nil n) (scalar?_toString n)
  | string s =>
    simp only [prettyAt, tokens]
    exact cutsAs_quote s
  | @array items _ ih =>
    intro rest more hends hmore
    cases items with
    | nil =>
      rw [prettyAt, tokens]
      exact IsCut.mark (c := '[') rfl (.mark (c := ']') rfl hmore)
    | cons item items =>
      obtain ⟨hitem, hitems⟩ := List.forall_mem_cons.mp ih
      obtain ⟨hitemsEnd, hitemsCut⟩ :=
        isCut_prettyItems (fun item hi => hitems item hi (depth + 1)) depth hmore
      simp only [prettyAt, tokens, String.toList_append, List.append_assoc, List.cons_append]
      exact .mark rfl (isCut_newline _ (hitem _ _ _ hitemsEnd hitemsCut))
  | @object fields _ ih =>
    intro rest more hends hmore
    cases fields with
    | nil =>
      rw [prettyAt, tokens]
      exact IsCut.mark (c := '\x7b') rfl (.mark (c := '\x7d') rfl hmore)
    | cons field fields =>
      obtain ⟨name, value⟩ := field
      obtain ⟨hvalue, hfields⟩ := List.forall_mem_cons.mp ih
      obtain ⟨hfieldsEnd, hfieldsCut⟩ :=
        isCut_prettyFields (fun field hf => hfields field hf (depth + 1)) depth hmore
      simp only [prettyAt, tokens, String.toList_append, List.append_assoc, List.cons_append]
      exact .mark rfl (isCut_newline _ (isCut_field name (hvalue _) hfieldsEnd hfieldsCut))

/-! ## From tokens to values -/

/-- A value does not start with the end of another one. -/
theorem tokens_append_ne_mark (j : Json) {c : Char} (h : c = ']' ∨ c = '\x7d')
    (more rest : List Token) : j.tokens ++ more ≠ .mark c :: rest := by
  intro heq
  rcases h with rfl | rfl <;> cases j with
  | array items => cases items <;> simp [tokens] at heq
  | object fields => cases fields <;> simp [tokens] at heq
  | _ => simp [tokens] at heq

/-- A value is put together from its tokens, whatever is behind them. -/
def ReadsBack (j : Json) : Prop :=
  ∀ (depth : Nat) (rest : List Token),
    j.tokens.length ≤ depth → value? depth (j.tokens ++ rest) = some (j, rest)

theorem items?_eq {item : Json} {items : List Json} (hitem : ReadsBack item)
    (hitems : ∀ item ∈ items, ReadsBack item) {depth : Nat} (rest : List Token)
    (hdepth : item.tokens.length + (itemTokens items).length ≤ depth) :
    items? depth (item.tokens ++ (itemTokens items ++ rest)) = some (item :: items, rest) := by
  induction items generalizing item depth with
  | nil =>
    rw [itemTokens, List.length_singleton] at hdepth
    obtain ⟨depth, rfl⟩ := Nat.exists_eq_add_of_lt hdepth
    rw [items?, hitem _ _ (by omega)]
    rfl
  | cons next items ih =>
    obtain ⟨hnext, hitems⟩ := List.forall_mem_cons.mp hitems
    rw [itemTokens, List.length_cons, List.length_append] at hdepth
    obtain ⟨depth, rfl⟩ : ∃ d, depth = d + 1 := ⟨depth - 1, by omega⟩
    rw [items?, hitem _ _ (by omega), itemTokens]
    simp only [List.cons_append, List.append_assoc]
    rw [ih hnext hitems (by omega)]
    rfl

theorem fields?_eq {name : String} {value : Json} {fields : List (String × Json)}
    (hvalue : ReadsBack value) (hfields : ∀ field ∈ fields, ReadsBack field.2) {depth : Nat}
    (rest : List Token) (hdepth : value.tokens.length + (fieldTokens fields).length ≤ depth) :
    fields? depth (.scalar (string name) :: .mark ':' ::
        (value.tokens ++ (fieldTokens fields ++ rest))) =
      some (((name, value) :: fields).map fun field => (string field.1, field.2), rest) := by
  induction fields generalizing name value depth with
  | nil =>
    rw [fieldTokens, List.length_singleton] at hdepth
    obtain ⟨depth, rfl⟩ := Nat.exists_eq_add_of_lt hdepth
    rw [fields?, hvalue _ _ (by omega)]
    rfl
  | cons next fields ih =>
    obtain ⟨nextName, nextValue⟩ := next
    obtain ⟨hnext, hfields⟩ := List.forall_mem_cons.mp hfields
    have hnext : ReadsBack nextValue := hnext
    simp only [fieldTokens, List.length_cons, List.length_append] at hdepth
    obtain ⟨depth, rfl⟩ : ∃ d, depth = d + 1 := ⟨depth - 1, by omega⟩
    rw [fields?, hvalue _ _ (by omega), fieldTokens]
    simp only [List.cons_append, List.append_assoc]
    rw [ih hnext hfields (by omega)]
    rfl

theorem ofFields_map (fields : List (String × Json)) :
    ofFields (fields.map fun field => (string field.1, field.2)) = object fields := by
  have hnames : (fields.map fun field => (string field.1, field.2)).mapM
      (fun field => field.1.string?.map (·, field.2)) = some fields := by
    induction fields with
    | nil => rfl
    | cons field fields ih =>
      rw [List.map_cons, List.mapM_cons, ih]
      rfl
  exact congrArg (fun named => (Option.map object named).getD broken) hnames

theorem readsBack_scalar {j : Json} (h : j.tokens = [.scalar j]) : ReadsBack j := by
  intro depth rest hdepth
  rw [h, List.length_singleton] at hdepth
  obtain ⟨depth, rfl⟩ := Nat.exists_eq_add_of_lt hdepth
  rw [h, List.singleton_append, value?]

theorem Plain.readsBack {j : Json} (h : Plain j) : ReadsBack j := by
  induction h with
  | null => exact readsBack_scalar (by simp [tokens])
  | bool b => exact readsBack_scalar (by simp [tokens])
  | int n => exact readsBack_scalar (by simp [tokens])
  | string s => exact readsBack_scalar (by simp [tokens])
  | @array items _ ih =>
    intro depth rest hdepth
    cases items with
    | nil =>
      rw [tokens, List.length_cons] at hdepth
      obtain ⟨depth, rfl⟩ := Nat.exists_eq_add_of_lt (Nat.lt_of_succ_le hdepth)
      rw [tokens]
      rfl
    | cons item items =>
      obtain ⟨hitem, hitems⟩ := List.forall_mem_cons.mp ih
      rw [tokens, List.length_cons, List.length_append] at hdepth
      obtain ⟨depth, rfl⟩ : ∃ d, depth = d + 1 := ⟨depth - 1, by omega⟩
      rw [tokens, List.cons_append, List.append_assoc, value?, if_pos rfl,
        items?_eq hitem hitems rest (by omega)]
      · rfl
      · exact tokens_append_ne_mark item (.inl rfl) _
      · exact tokens_append_ne_mark item (.inr rfl) _
  | @object fields _ ih =>
    intro depth rest hdepth
    cases fields with
    | nil =>
      rw [tokens, List.length_cons] at hdepth
      obtain ⟨depth, rfl⟩ := Nat.exists_eq_add_of_lt (Nat.lt_of_succ_le hdepth)
      rw [tokens]
      rfl
    | cons field fields =>
      obtain ⟨name, value⟩ := field
      obtain ⟨hvalue, hfields⟩ := List.forall_mem_cons.mp ih
      have hvalue : ReadsBack value := hvalue
      simp only [tokens, List.length_cons, List.length_append] at hdepth
      obtain ⟨depth, rfl⟩ : ∃ d, depth = d + 1 := ⟨depth - 1, by omega⟩
      simp only [tokens, List.cons_append, List.append_assoc]
      rw [value?, if_neg (by decide), if_pos rfl, fields?_eq hvalue hfields rest (by omega),
        Option.map_some, ← ofFields_map]
      · exact nofun
      · exact nofun

/-- What is written is read as the value that it was written for. -/
theorem parse?_pretty {j : Json} (h : Plain j) : parse? j.pretty = some j := by
  have hcut : IsCut j.pretty.toList j.tokens := by
    have := h.cutsAs 0 [] [] nofun .nil
    rwa [List.append_nil, List.append_nil] at this
  have htokens : tokens? j.pretty.toList = some j.tokens := hcut.tokensWithin?_eq _ (Nat.le_refl _)
  have hvalue := h.readsBack (2 * j.tokens.length) [] (by omega)
  rw [List.append_nil] at hvalue
  simp only [parse?, htokens, Option.bind_eq_bind, Option.bind_some, hvalue]

/-- The text of a value tells all of it. -/
theorem pretty_inj {i j : Json} (hi : Plain i) (hj : Plain j) : i.pretty = j.pretty ↔ i = j := by
  refine ⟨fun h => ?_, congrArg pretty⟩
  have hread := parse?_pretty hi
  rw [h, parse?_pretty hj] at hread
  exact (Option.some.inj hread).symm

end TapeMachine.Json
