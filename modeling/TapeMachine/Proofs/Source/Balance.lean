import TapeMachine.Proofs.Source.Position
import TapeMachine.Source.Brackets

/-!
# Brackets, by counting

Whether the brackets of a text match can be said without a stack: no prefix closes more than it
opens, and all of the text closes as many as it opens. Every text is balanced, or closes too much
behind a balanced text, or opens a bracket that a balanced text follows to the end
(`balanced_or_unmatched`). The check of the brackets finds out which, and blames the bracket at
that very place (`checkBrackets_iff_balanced`).
-/

namespace TapeMachine

/-- Text that closes none but its own brackets, and all of these. -/
structure Balanced (s : List Char) : Prop where
  enough : ∀ q, q <+: s → q.count ']' ≤ q.count '['
  settled : s.count '[' = s.count ']'

/-- Text that closes at most `depth` brackets besides its own. -/
def ClosesAtMost (depth : Nat) (s : List Char) : Prop :=
  ∀ q, q <+: s → q.count ']' ≤ q.count '[' + depth

/-! ## Texts that close at most so many brackets -/

theorem closesAtMost_opening_iff {depth : Nat} {s : List Char} :
    ClosesAtMost depth ('[' :: s) ↔ ClosesAtMost (depth + 1) s := by
  constructor
  · intro h q hq
    have hprefix : '[' :: q <+: '[' :: s := List.cons_prefix_cons.mpr ⟨rfl, hq⟩
    have := h _ hprefix
    simp at this
    omega
  · intro h q hq
    rcases List.prefix_cons_iff.mp hq with rfl | ⟨t, rfl, ht⟩
    · simp
    · have := h t ht
      simp
      omega

theorem closesAtMost_closing_iff {depth : Nat} {s : List Char} :
    ClosesAtMost depth (']' :: s) ↔ ∃ outer, depth = outer + 1 ∧ ClosesAtMost outer s := by
  constructor
  · intro h
    have hone : [']'] <+: ']' :: s := List.cons_prefix_cons.mpr ⟨rfl, List.nil_prefix⟩
    have hpos := h _ hone
    obtain ⟨outer, rfl⟩ : ∃ outer, depth = outer + 1 := ⟨depth - 1, by simp at hpos; omega⟩
    refine ⟨outer, rfl, ?_⟩
    intro q hq
    have hprefix : ']' :: q <+: ']' :: s := List.cons_prefix_cons.mpr ⟨rfl, hq⟩
    have := h _ hprefix
    simp at this
    omega
  · rintro ⟨outer, rfl, h⟩ q hq
    rcases List.prefix_cons_iff.mp hq with rfl | ⟨t, rfl, ht⟩
    · simp
    · have := h t ht
      simp
      omega

theorem closesAtMost_other_iff {depth : Nat} {c : Char} {s : List Char} (hopen : c ≠ '[')
    (hclose : c ≠ ']') : ClosesAtMost depth (c :: s) ↔ ClosesAtMost depth s := by
  constructor
  · intro h q hq
    have hprefix : c :: q <+: c :: s := List.cons_prefix_cons.mpr ⟨rfl, hq⟩
    have := h _ hprefix
    simpa [List.count_cons, hopen, hclose] using this
  · intro h q hq
    rcases List.prefix_cons_iff.mp hq with rfl | ⟨t, rfl, ht⟩
    · simp
    · simpa [List.count_cons, hopen, hclose] using h t ht

theorem ClosesAtMost.of_append {depth : Nat} {a b : List Char} (h : ClosesAtMost depth (a ++ b)) :
    ClosesAtMost depth a := by
  intro q hq
  exact h q (hq.trans (List.prefix_append a b))

theorem Balanced.closesAtMost {s : List Char} (h : Balanced s) : ClosesAtMost 0 s := h.enough

/-! ## The three kinds of texts -/

/-- A text that closes a bracket too many does so for the first time behind a balanced text. -/
theorem closesAtMost_or_unmatched (s : List Char) :
    ClosesAtMost 0 s ∨ ∃ front rest, s = front ++ ']' :: rest ∧ Balanced front := by
  -- The induction is on how much of the text has been read, as only its front tells.
  suffices h : ∀ rest front, s = front ++ rest → ClosesAtMost 0 front →
      ClosesAtMost 0 s ∨ ∃ front rest, s = front ++ ']' :: rest ∧ Balanced front by
    refine h s [] rfl ?_
    intro q hq
    rw [List.prefix_nil.mp hq]
    simp
  intro rest
  induction rest with
  | nil =>
    intro front hs hfront
    rw [List.append_nil] at hs
    exact .inl (hs ▸ hfront)
  | cons c rest ih =>
    intro front hs hfront
    by_cases hmore : (front ++ [c]).count ']' ≤ (front ++ [c]).count '['
    · apply ih (front ++ [c]) (by rw [hs, List.append_assoc]; rfl)
      intro q hq
      rcases List.prefix_concat_iff.mp hq with rfl | hq
      · exact hmore
      · exact hfront q hq
    · have hle : front.count ']' ≤ front.count '[' := hfront front (List.prefix_refl front)
      simp only [List.count_append, List.count_singleton] at hmore
      obtain rfl : c = ']' := by
        refine Decidable.byContradiction fun hne => hmore ?_
        simp only [beq_iff_eq, hne, if_false]
        omega
      refine .inr ⟨front, rest, hs, hfront, ?_⟩
      simp at hmore
      omega

/-- A text opens a bracket that a balanced text follows, unless what is behind each of its places
closes as much as it opens. -/
theorem unmatched_or_suffix_le (s : List Char) :
    (∃ front rest, s = front ++ '[' :: rest ∧ Balanced rest) ∨
      ∀ u, u <:+ s → u.count '[' ≤ u.count ']' := by
  induction s with
  | nil =>
    refine .inr ?_
    intro u hu
    rw [List.suffix_nil.mp hu]
    simp
  | cons c s ih =>
    rcases ih with ⟨front, rest, rfl, hrest⟩ | hle
    · exact .inl ⟨c :: front, rest, rfl, hrest⟩
    have hall : s.count '[' ≤ s.count ']' := hle s (List.suffix_refl s)
    by_cases hopen : c = '[' ∧ s.count '[' = s.count ']'
    · obtain ⟨rfl, hsettled⟩ := hopen
      refine .inl ⟨[], s, rfl, ?_, hsettled⟩
      rintro q ⟨u, rfl⟩
      have := hle u (List.suffix_append q u)
      simp only [List.count_append] at hsettled
      omega
    · refine .inr ?_
      intro u hu
      rcases List.suffix_cons_iff.mp hu with rfl | hu
      · by_cases hc : c = '['
        · subst hc
          simp only [true_and] at hopen
          simp
          omega
        · simp only [List.count_cons, beq_iff_eq, hc, if_false]
          omega
      · exact hle u hu

/-- The brackets of a text match, or there is a first one that closes too much, or there is a last
one that is left open. -/
theorem balanced_or_unmatched (s : List Char) :
    Balanced s ∨ (∃ front rest, s = front ++ ']' :: rest ∧ Balanced front) ∨
      ClosesAtMost 0 s ∧ ∃ front rest, s = front ++ '[' :: rest ∧ Balanced rest := by
  rcases closesAtMost_or_unmatched s with henough | hclose
  · rcases unmatched_or_suffix_le s with hopen | hle
    · exact .inr (.inr ⟨henough, hopen⟩)
    · have hopens := hle s (List.suffix_refl s)
      have hcloses := henough s (List.prefix_refl s)
      exact .inl ⟨henough, Nat.le_antisymm hopens hcloses⟩
  · exact .inr (.inl hclose)

/-- Behind a balanced text a closing bracket makes the shortest prefix that closes too much. -/
theorem Balanced.shortest_unmatched {front : List Char} (h : Balanced front) (rest : List Char) :
    (front ++ [']']).count '[' < (front ++ [']']).count ']' ∧
      ∀ q, q <+: front ++ ']' :: rest → q.count '[' < q.count ']' →
        (front ++ [']']).length ≤ q.length := by
  constructor
  · have := h.settled
    simp
    omega
  · intro q hq hmore
    apply Nat.le_of_not_lt
    intro hshort
    have hfront : q <+: front := by
      refine List.prefix_of_prefix_length_le hq (List.prefix_append front _) ?_
      simp at hshort
      omega
    have := h.enough q hfront
    omega

/-- A balanced text has no bracket behind which all is balanced. -/
theorem Balanced.not_balanced_behind {t rest : List Char} (h : Balanced (t ++ '[' :: rest)) :
    ¬Balanced rest := by
  intro hrest
  have henough := h.enough t (List.prefix_append t _)
  have hsettled := h.settled
  have := hrest.settled
  simp at hsettled
  omega

/-- There is at most one bracket behind which all is balanced. -/
theorem front_eq_of_balanced_behind {front rest front' rest' : List Char}
    (heq : front ++ '[' :: rest = front' ++ '[' :: rest') (hrest : Balanced rest)
    (hrest' : Balanced rest') : front' = front := by
  rcases List.append_eq_append_iff.mp heq with ⟨t, rfl, ht⟩ | ⟨t, rfl, ht⟩
  · cases t with
    | nil => rw [List.append_nil]
    | cons c t =>
      obtain ⟨rfl, rfl⟩ := List.cons.inj ht
      exact absurd hrest' hrest.not_balanced_behind
  · cases t with
    | nil => rw [List.append_nil]
    | cons c t =>
      obtain ⟨rfl, rfl⟩ := List.cons.inj ht
      exact absurd hrest hrest'.not_balanced_behind

/-! ## What the check does -/

/-- A scan that has `inner` opened may read text that closes no more than these, and then the
brackets around them are still open. -/
theorem scanBrackets_of_closesAtMost {front : List Char} (p : Position)
    {inner : Stack Position} (outer : Stack Position) (rest : List Char)
    (h : ClosesAtMost inner.length front) :
    ∃ inner' : Stack Position,
      inner'.length + front.count ']' = inner.length + front.count '[' ∧
      scanBrackets p (inner ++ outer) (front ++ rest) =
        scanBrackets (p.advanceAll front) (inner' ++ outer) rest := by
  induction front generalizing p inner with
  | nil => exact ⟨inner, rfl, rfl⟩
  | cons c front ih =>
    by_cases hopen : c = '['
    · subst hopen
      have hinner : ClosesAtMost (inner.push p).length front := closesAtMost_opening_iff.mp h
      obtain ⟨inner', hlength, hscan⟩ := ih (p.advance '[') hinner
      refine ⟨inner', ?_, hscan⟩
      simp only [Stack.length_push] at hlength
      simp
      omega
    by_cases hclose : c = ']'
    · subst hclose
      obtain ⟨n, hn, hinner⟩ := closesAtMost_closing_iff.mp h
      cases inner with
      | nil => contradiction
      | cons q inner =>
        obtain rfl := Nat.succ.inj hn
        obtain ⟨inner', hlength, hscan⟩ := ih (p.advance ']') hinner
        refine ⟨inner', ?_, hscan⟩
        simp
        omega
    · have hinner := (closesAtMost_other_iff hopen hclose).mp h
      obtain ⟨inner', hlength, hscan⟩ := ih (p.advance c) hinner
      refine ⟨inner', ?_, ?_⟩
      · simpa [List.count_cons, hopen, hclose] using hlength
      · simpa [scanBrackets, hopen, hclose] using hscan

/-- Balanced text leaves the open brackets as they were. -/
theorem scanBrackets_of_balanced {s : List Char} (h : Balanced s) (p : Position)
    (opened : Stack Position) (rest : List Char) :
    scanBrackets p opened (s ++ rest) = scanBrackets (p.advanceAll s) opened rest := by
  have hinner : ClosesAtMost ([] : Stack Position).length s := h.closesAtMost
  obtain ⟨inner', hlength, hscan⟩ := scanBrackets_of_closesAtMost p opened rest hinner
  have hnil : inner' = [] := by
    apply List.length_eq_zero_iff.mp
    have := h.settled
    simp only [List.length_nil] at hlength
    omega
  rwa [hnil] at hscan

variable {source : String}

theorem checkBrackets_of_balanced (h : Balanced source.toList) : checkBrackets source = .ok () := by
  have hscan := scanBrackets_of_balanced h .start [] []
  rwa [List.append_nil] at hscan

theorem checkBrackets_of_unmatched_close {front rest : List Char}
    (hs : source.toList = front ++ ']' :: rest) (hfront : Balanced front) :
    checkBrackets source = .error (.unmatchedClose (.behind front)) := by
  rw [checkBrackets, hs, scanBrackets_of_balanced hfront, ← Position.advanceAll_start]
  rfl

theorem checkBrackets_of_unmatched_open {front rest : List Char}
    (hs : source.toList = front ++ '[' :: rest) (henough : ClosesAtMost 0 source.toList)
    (hrest : Balanced rest) :
    checkBrackets source = .error (.unmatchedOpen (.behind front)) := by
  have hfront : ClosesAtMost ([] : Stack Position).length front := (hs ▸ henough).of_append
  obtain ⟨opened, -, hscan⟩ := scanBrackets_of_closesAtMost .start [] ('[' :: rest) hfront
  have hbehind := scanBrackets_of_balanced hrest ((Position.behind front).advance '[')
    (Position.behind front :: opened) []
  rw [List.append_nil] at hbehind
  rw [checkBrackets, hs]
  apply hscan.trans
  rw [Position.advanceAll_start, List.append_nil]
  exact hbehind

/-- The check blames a closing bracket behind balanced text, or an opening one in front of it, at
its place. -/
theorem blamed_of_checkBrackets_error {e : BracketError} (h : checkBrackets source = .error e) :
    (∃ front rest, source.toList = front ++ ']' :: rest ∧ Balanced front ∧
      e = .unmatchedClose (.behind front)) ∨
    ∃ front rest, source.toList = front ++ '[' :: rest ∧ Balanced rest ∧
      e = .unmatchedOpen (.behind front) := by
  rcases balanced_or_unmatched source.toList with
    hbalanced | ⟨front, rest, hs, hfront⟩ | ⟨henough, front, rest, hs, hrest⟩
  · rw [checkBrackets_of_balanced hbalanced] at h
    contradiction
  · rw [checkBrackets_of_unmatched_close hs hfront] at h
    exact .inl ⟨front, rest, hs, hfront, (Except.error.inj h).symm⟩
  · rw [checkBrackets_of_unmatched_open hs henough hrest] at h
    exact .inr ⟨front, rest, hs, hrest, (Except.error.inj h).symm⟩

/-- The check accepts the balanced texts. It blames a closing bracket if and only if some prefix
closes more than it opens, and then the last one of the shortest such prefix. It blames an opening
bracket otherwise, and then the only one behind which the text is balanced. -/
theorem checkBrackets_iff_balanced (source : String) :
    (checkBrackets source = .ok () ↔ Balanced source.toList) ∧
    ((∃ p, checkBrackets source = .error (.unmatchedClose p)) ↔
      ∃ q, q <+: source.toList ∧ q.count '[' < q.count ']') ∧
    ((∃ p, checkBrackets source = .error (.unmatchedOpen p)) ↔
      (∀ q, q <+: source.toList → q.count ']' ≤ q.count '[') ∧
        source.toList.count ']' < source.toList.count '[') ∧
    (∀ p, checkBrackets source = .error (.unmatchedClose p) →
      ∃ front rest, source.toList = front ++ ']' :: rest ∧ p = .behind front ∧
        (front ++ [']']).count '[' < (front ++ [']']).count ']' ∧
        ∀ q, q <+: source.toList → q.count '[' < q.count ']' →
          (front ++ [']']).length ≤ q.length) ∧
    ∀ p, checkBrackets source = .error (.unmatchedOpen p) →
      ∃ front rest, source.toList = front ++ '[' :: rest ∧ p = .behind front ∧ Balanced rest ∧
        ∀ front' rest', source.toList = front' ++ '[' :: rest' → Balanced rest' →
          front' = front := by
  rcases balanced_or_unmatched source.toList with
    hbalanced | ⟨front, rest, hs, hfront⟩ | ⟨henough, front, rest, hs, hrest⟩
  · have henough := hbalanced.enough
    have hsettled := hbalanced.settled
    rw [checkBrackets_of_balanced hbalanced]
    refine ⟨by simpa using hbalanced, ?_, ?_, nofun, nofun⟩
    · simpa using henough
    · simp [hsettled]
  · obtain ⟨hmore, hshortest⟩ := hfront.shortest_unmatched rest
    rw [← hs] at hshortest
    have hprefix : front ++ [']'] <+: source.toList := ⟨rest, by simp [hs]⟩
    have hnot : ¬∀ q, q <+: source.toList → q.count ']' ≤ q.count '[' := by
      intro henough
      exact absurd (henough _ hprefix) (Nat.not_le.mpr hmore)
    rw [checkBrackets_of_unmatched_close hs hfront]
    refine ⟨⟨nofun, fun hbalanced => absurd hbalanced.enough hnot⟩,
      ⟨fun _ => ⟨_, hprefix, hmore⟩, fun _ => ⟨_, rfl⟩⟩,
      ⟨fun ⟨_, hp⟩ => (nomatch hp), fun h => absurd h.1 hnot⟩, ?_, nofun⟩
    intro p hp
    obtain rfl : .behind front = p := by simpa using hp
    exact ⟨front, rest, hs, rfl, hmore, hshortest⟩
  · have hless : source.toList.count ']' < source.toList.count '[' := by
      have := henough front ⟨_, hs.symm⟩
      have := hrest.settled
      rw [hs]
      simp
      omega
    have hnone : ¬∃ q, q <+: source.toList ∧ q.count '[' < q.count ']' := by
      rintro ⟨q, hq, hmore⟩
      exact absurd (henough q hq) (Nat.not_le.mpr hmore)
    rw [checkBrackets_of_unmatched_open hs henough hrest]
    refine ⟨⟨nofun, fun hbalanced => absurd hbalanced.settled (by omega)⟩,
      ⟨fun ⟨_, hp⟩ => (nomatch hp), fun h => absurd h hnone⟩,
      ⟨fun _ => ⟨henough, hless⟩, fun _ => ⟨_, rfl⟩⟩, nofun, ?_⟩
    intro p hp
    obtain rfl : .behind front = p := by simpa using hp
    refine ⟨front, rest, hs, rfl, hrest, ?_⟩
    intro front' rest' hs' hrest'
    exact front_eq_of_balanced_behind (hs.symm.trans hs') hrest hrest'

end TapeMachine
