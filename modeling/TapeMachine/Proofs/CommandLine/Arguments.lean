import TapeMachine.CommandLine.Options

/-!
# Arguments that name a source

The source is the one argument that is no option, and the options do not depend on whether it has
been named. So arguments without a source can be given one in front, and then they ask for the same
with that source (`NamesSource.cons`).
-/

namespace TapeMachine.CommandLine

/-- `args` names no source, and `args'` asks for the same with the source at `path`. -/
structure NamesSource (path : String) (args args' : List String) : Prop where
  unnamed : ∀ o, Options.parse args = .ok o → o.file = none
  parse : Options.parse args' = (Options.parse args).map fun o => { o with file := some path }

theorem Options.file_of_setFile? {o o' : Options} {arg : String} (h : o.setFile? arg = some o') :
    o'.file.isSome := by
  unfold setFile? at h
  split at h
  · contradiction
  · obtain ⟨path, -, rfl⟩ := Option.map_eq_some_iff.mp h
    rfl

theorem Options.file_of_setValue? {o o' : Options} {name : OptionName} {value : String}
    (h : o.setValue? name value = some o') : o'.file = o.file := by
  unfold setValue? at h
  split at h
  all_goals first
    | contradiction
    | obtain ⟨v, -, rfl⟩ := Option.map_eq_some_iff.mp h; rfl
    | obtain rfl := Option.some.inj h; rfl

theorem Options.file_of_setFlag (o : Options) (name : OptionName) :
    (o.setFlag name).file = o.file := by
  unfold setFlag
  split <;> rfl

theorem Options.file_of_readFiles {o o' : Options} {args : List String}
    (h : o.readFiles args = .ok o') (hfile : o.file.isSome) : o'.file.isSome := by
  induction args generalizing o with
  | nil => exact Except.ok.inj h ▸ hfile
  | cons arg rest ih =>
    rw [readFiles] at h
    split at h
    · next hset => exact ih h (file_of_setFile? hset)
    · contradiction

theorem file_of_readArguments {seen : List OptionName} {o o' : Options} {args : List String}
    (h : readArguments seen o args = .ok o') (hfile : o.file.isSome) : o'.file.isSome := by
  fun_induction readArguments seen o args with
  | case1 => exact Except.ok.inj h ▸ hfile
  | case2 => exact Options.file_of_readFiles h hfile
  | case6 seen o arg rest long hlong harg word value? hsplit name hname hseen hflag hvalue ih =>
    exact ih h (by rwa [Options.file_of_setFlag])
  | case7 seen o arg long hlong harg word name hname hseen hflag value rest o₁ hset hsplit ih =>
    exact ih h (by rwa [Options.file_of_setValue? hset])
  | case10 seen o arg long hlong harg word name hname hseen hflag value rest hlooks o₁ hset hsplit
      ih =>
    exact ih h (by rwa [Options.file_of_setValue? hset])
  | case14 seen o arg rest o₁ hset harg hlong hshort ih =>
    exact ih h (Options.file_of_setFile? hset)
  | _ => contradiction

/-! ## Options do not depend on the source -/

theorem Options.setFlag_withFile (o : Options) (name : OptionName) (file : Option String) :
    { o with file }.setFlag name = { o.setFlag name with file } := by
  unfold setFlag
  split <;> rfl

theorem Options.setValue?_withFile (o : Options) (name : OptionName) (value : String)
    (file : Option String) :
    { o with file }.setValue? name value = (o.setValue? name value).map ({ · with file }) := by
  unfold setValue?
  split <;> simp only [Option.map_map, Option.map_some, Option.map_none] <;> rfl

/-- Options among which no source is named say the same if it has been named before. -/
theorem readArguments_withFile {seen : List OptionName} {o o' : Options} {args : List String}
    {path : String} (h : readArguments seen o args = .ok o') (hnone : o'.file = none) :
    readArguments seen { o with file := some path } args =
      .ok { o' with file := some path } := by
  fun_induction readArguments seen o args with
  | case1 =>
    obtain rfl := Except.ok.inj h
    rfl
  | case2 seen o arg rest harg =>
    cases rest with
    | nil =>
      obtain rfl := Except.ok.inj h
      rw [readArguments]
      simp only [harg]
      rfl
    | cons file rest =>
      rw [Options.readFiles] at h
      split at h
      · next hset =>
        have hsome := Options.file_of_readFiles h (Options.file_of_setFile? hset)
        simp [hnone] at hsome
      · contradiction
  | case6 seen o arg rest long hlong harg word value? hsplit name hname hseen hflag hvalue ih =>
    rw [readArguments]
    simp only [harg, hsplit, hname, hseen, hflag, hvalue, if_false, if_true]
    rw [Options.setFlag_withFile]
    exact ih h
  | case7 seen o arg long hlong harg word name hname hseen hflag value rest o₁ hset hsplit ih =>
    rw [readArguments]
    simp only [harg, hsplit, hname, hseen, hflag, if_false, Bool.false_eq_true]
    rw [Options.setValue?_withFile, hset]
    exact ih h
  | case10 seen o arg long hlong harg word name hname hseen hflag value rest hlooks o₁ hset hsplit
      ih =>
    rw [readArguments]
    simp only [harg, hsplit, hname, hseen, hflag, hlooks, if_false, Bool.false_eq_true]
    rw [Options.setValue?_withFile, hset]
    exact ih h
  | case14 seen o arg rest o₁ hset harg hlong hshort ih =>
    have hsome := file_of_readArguments h (Options.file_of_setFile? hset)
    simp [hnone] at hsome
  | _ => contradiction

/-- A source in front of arguments that name none. -/
theorem NamesSource.cons {o : Options} {args : List String} {path : String}
    (h : Options.parse args = .ok o) (hnone : o.file = none) (hpath : path ≠ "")
    (hoption : ¬looksLikeOption path) : NamesSource path args (path :: args) := by
  have hset : Options.setFile? {} path = some { file := some path } := by
    simp [Options.setFile?, path?, hpath]
  have hparse : Options.parse (path :: args) = .ok { o with file := some path } := by
    unfold Options.parse
    rw [readArguments]
    split
    · next hdash => simp [looksLikeOption, hdash] at hoption
    · next hdash => simp [looksLikeOption, hdash] at hoption
    · next hdash => simp [looksLikeOption, hdash] at hoption
    · rw [hset]
      exact readArguments_withFile h hnone
  constructor
  · intro o' ho'
    obtain rfl := Except.ok.inj (h.symm.trans ho')
    exact hnone
  · rw [hparse, h]
    rfl

end TapeMachine.CommandLine
