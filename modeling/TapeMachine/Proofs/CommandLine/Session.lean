import TapeMachine.CommandLine.Session
import TapeMachine.Proofs.Files

/-!
# Sessions in a tree of files

In a tree of files a session is a function of the tree, the arguments and the input (`sessionIn`).
It has two parts: `prepare` settles all that the options and the project file say, and fails if
something is wrong with them; only then the source is looked for, in `entryIn` (`sessionIn_eq`). The
first part knows neither the input nor the path of the source. The words of the readers of arguments
and of project files are the same ones throughout, and may be any.
-/

namespace TapeMachine.CommandLine

variable {words : Wording} {t t' : FileTree} {path : String}

/-! ## Notices -/

/-- The text of a notice that is shown, in the compact layout. -/
def Notice.whole : Notice → String
  | event e => e.line
  | text s => s

theorem decodeText_eq_ok_iff {bytes : ByteArray} {text : String} :
    decodeText bytes = .ok text ↔ bytes = text.toUTF8 := by
  unfold decodeText String.fromUTF8?
  constructor
  · intro h
    by_cases hvalid : bytes.IsValidUTF8
    · rw [dif_pos hvalid] at h
      exact congrArg String.toByteArray (Except.ok.inj h)
    · rw [dif_neg hvalid] at h
      contradiction
  · rintro rfl
    have hvalid : text.toUTF8.IsValidUTF8 := text.isValidUTF8
    rw [dif_pos hvalid]
    rfl

/-- The text of the file at a path. -/
def textAt (t : FileTree) (path : String) : Except String String :=
  ((t.read path).mapError FileError.message).bind decodeText

theorem textAt_of_read {text : String} (h : t.read path = .ok text.toUTF8) :
    textAt t path = .ok text := by
  unfold textAt
  rw [h]
  exact decodeText_eq_ok_iff.mpr rfl

/-- The project of the file at a path. -/
def projectAt (words : Wording) (t : FileTree) (path : String) : Except String Project :=
  match t.locate path with
  | .error _ => .error s!"project file '{path}' not found"
  | .ok _ =>
    match textAt t path with
    | .error e => .error s!"cannot read '{path}': {e}"
    | .ok text =>
      match Project.parse? text with
      | some project => .ok project
      | none =>
        let details := words.malformed text
        .error s!"failed to parse '{path}': {details}"

theorem projectAt_of_textAt {text : String} {project : Project} (h : textAt t path = .ok text)
    (hproject : Project.parse? text = some project) : projectAt words t path = .ok project := by
  unfold projectAt
  cases hlocate : t.locate path with
  | error e =>
    have hread : t.read path = .error e := by
      unfold FileTree.read
      rw [hlocate]
      rfl
    unfold textAt at h
    rw [hread] at h
    contradiction
  | ok spot => simp only [h, hproject]

theorem run_isPresent (t : FileTree) (path : String) :
    (FileTree.access.isPresent path).run t =
      pure (match t.locate path with | .ok _ => true | .error _ => false, t) := by
  simp only [FileTree.access, StateT.run_bind, StateT.run_get, pure_bind]
  cases t.locate path <;> rfl

theorem run_read (t : FileTree) (path : String) :
    (FileTree.access.read path).run t = pure ((t.read path).mapError FileError.message, t) := rfl

theorem run_readProject (words : Wording) (t : FileTree) (path : String) :
    (readProject words FileTree.access path).run t = (projectAt words t path, t) := by
  unfold readProject projectAt textAt
  rw [StateT.run_bind, run_isPresent, pure_bind]
  cases t.locate path with
  | error e => rfl
  | ok spot =>
    dsimp only
    rw [if_neg (by simp), StateT.run_bind, run_read, pure_bind]
    dsimp only
    cases ((t.read path).mapError FileError.message).bind decodeText with
    | error e => rfl
    | ok text =>
      dsimp only
      cases Project.parse? text <;> rfl

/-- The text of a file stays when a log file is opened. -/
theorem textAt_touch {log source : String} (h : t.touch log = .ok t')
    (htext : textAt t path = .ok source) : textAt t' path = .ok source := by
  unfold textAt at htext ⊢
  cases hread : t.read path with
  | error e =>
    rw [hread] at htext
    contradiction
  | ok content =>
    rw [hread] at htext
    rwa [FileTree.read_touch h hread]

/-! ## The two parts of a session -/

/-- What is settled when the source is looked for. -/
structure Prepared where
  project : Project
  filter : Log.Filter
  /-- The tree of files, in which there is the log file if there is to be one. -/
  files : FileTree

/-- The tree in which the log file has been opened, if there is to be one. -/
def logOpened (t : FileTree) : Option String → Except String FileTree
  | none => .ok t
  | some path => (t.touch path).mapError fun e => s!"cannot open log file: {e.message}"

theorem textAt_logOpened {log : Option String} {source : String} (h : logOpened t log = .ok t')
    (htext : textAt t path = .ok source) : textAt t' path = .ok source := by
  cases log with
  | none =>
    obtain rfl := Except.ok.inj h
    exact htext
  | some log =>
    change (t.touch log).mapError _ = .ok t' at h
    cases htouch : t.touch log with
    | error e =>
      rw [htouch] at h
      contradiction
    | ok opened =>
      rw [htouch] at h
      obtain rfl := Except.ok.inj h
      exact textAt_touch htouch htext

/-- Settles what the options and the project file say, or tells what is wrong with them. -/
def prepare (words : Wording) (t : FileTree) (options : Options) : Except String Prepared :=
  match options.config.elim (.ok {}) (projectAt words t) with
  | .error e => .error e
  | .ok project =>
    match options.logFilter project with
    | .error e => .error e
    | .ok filter =>
      match logOpened t options.logFile with
      | .error e => .error e
      | .ok files => .ok ⟨project, filter, files⟩

theorem prepare_eq_ok_iff {options : Options} {ready : Prepared} :
    prepare words t options = .ok ready ↔
      options.config.elim (.ok {}) (projectAt words t) = .ok ready.project ∧
        options.logFilter ready.project = .ok ready.filter ∧
        logOpened t options.logFile = .ok ready.files := by
  unfold prepare
  constructor
  · intro h
    split at h
    · contradiction
    next project hproject =>
    split at h
    · contradiction
    next filter hfilter =>
    split at h
    · contradiction
    next files hfiles =>
    obtain rfl := Except.ok.inj h
    exact ⟨hproject, hfilter, hfiles⟩
  · rintro ⟨hproject, hfilter, hfiles⟩
    simp only [hproject, hfilter, hfiles]

/-- Finds the source and runs it. -/
def entryIn (t : FileTree) (options : Options) (project : Project) (stdin : List UInt8)
    (fuel : Nat) : Option Transcript :=
  let settings := options.runSettings project
  match options.entryPath? project with
  | none => runPrompted options.compileOnly settings stdin fuel
  | some path =>
    match textAt t path with
    | .error e => some (.failed s!"Cannot read source file '{path}': {e}")
    | .ok source => runSource options.compileOnly settings path source stdin fuel

/-- What can be seen of a call apart from the standard error: the exit code and the bytes on the
standard output. -/
def Transcript.outcome (r : Transcript) : Nat × List UInt8 := (r.exitCode, r.output)

/-- A session in a tree of files, if a run in it ends in fewer than `fuel` steps. -/
def sessionIn (words : Wording) (t : FileTree) (args : List String) (stdin : List UInt8)
    (fuel : Nat) : Log.Settings × Option Transcript :=
  ((session words FileTree.access args stdin fuel).run t).1

theorem run_runEntry (t : FileTree) (options : Options) (project : Project) (stdin : List UInt8)
    (fuel : Nat) :
    (runEntry FileTree.access options project stdin fuel).run t =
      pure (entryIn t options project stdin fuel, t) := by
  unfold runEntry entryIn textAt
  cases options.entryPath? project with
  | none => rfl
  | some path =>
    dsimp only
    rw [StateT.run_bind, run_read, pure_bind]
    dsimp only
    cases ((t.read path).mapError FileError.message).bind decodeText with
    | error e => rfl
    | ok source => rfl

theorem run_openLog (t : FileTree) (log : Option String) :
    (openLog FileTree.access log).run t =
      pure (match logOpened t log with
        | .error e => (.error e, t)
        | .ok t' => (.ok (), t')) := by
  cases log with
  | none => rfl
  | some path =>
    unfold openLog logOpened
    simp only [FileTree.access, StateT.run_bind, StateT.run_get, pure_bind]
    cases t.touch path <;> rfl

theorem run_runOptions (words : Wording) (t : FileTree) (options : Options) (stdin : List UInt8)
    (fuel : Nat) :
    ((runOptions words FileTree.access options stdin fuel).run t).1 =
      match prepare words t options with
      | .error e => ({}, some (.failed e))
      | .ok ready => (options.logSettings ready.filter,
          entryIn ready.files options ready.project stdin fuel) := by
  unfold runOptions prepare
  extract_lets goOn
  have hproject : ∀ config : Option String,
      StateT.run (match config with
        | none => pure (.ok {}) >>= goOn
        | some path => readProject words FileTree.access path >>= goOn) t =
      (goOn (config.elim (.ok {}) (projectAt words t))).run t := by
    intro config
    cases config with
    | none => rfl
    | some path =>
      rw [StateT.run_bind, run_readProject]
      rfl
  refine (congrArg Prod.fst (hproject options.config)).trans ?_
  dsimp only [goOn]
  cases options.config.elim (.ok {}) (projectAt words t) with
  | error e => rfl
  | ok project =>
    dsimp only
    cases options.logFilter project with
    | error e => rfl
    | ok filter =>
      dsimp only
      rw [StateT.run_bind, run_openLog, pure_bind]
      cases logOpened t options.logFile with
      | error e => rfl
      | ok files =>
        dsimp only
        rw [StateT.run_bind, run_runEntry, pure_bind]
        rfl

/-- A session settles what is to be done, and does it if nothing is wrong. -/
theorem sessionIn_eq (words : Wording) (t : FileTree) (args : List String) (stdin : List UInt8)
    (fuel : Nat) :
    sessionIn words t args stdin fuel =
      match Options.parse args with
      | .error exit => ({}, some (exit.transcript words args))
      | .ok options =>
        match prepare words t options with
        | .error e => ({}, some (.failed e))
        | .ok ready => (options.logSettings ready.filter,
            entryIn ready.files options ready.project stdin fuel) := by
  unfold sessionIn session
  cases Options.parse args with
  | error exit => rfl
  | ok options => exact run_runOptions words t options stdin fuel

section

variable {args : List String} {options : Options} {ready : Prepared} {source : String}
  (stdin : List UInt8) (fuel : Nat)

theorem sessionIn_of_prepared (hparse : Options.parse args = .ok options)
    (hready : prepare words t options = .ok ready) :
    sessionIn words t args stdin fuel =
      (options.logSettings ready.filter, entryIn ready.files options ready.project stdin fuel) := by
  rw [sessionIn_eq]
  simp only [hparse, hready]

/-- The file that is named is the one that is run, also if a log file was opened before it is
read. -/
theorem sessionIn_of_entry (hparse : Options.parse args = .ok options)
    (hready : prepare words t options = .ok ready)
    (hentry : options.entryPath? ready.project = some path) (htext : textAt t path = .ok source) :
    sessionIn words t args stdin fuel =
      (options.logSettings ready.filter, runSource options.compileOnly
        (options.runSettings ready.project) path source stdin fuel) := by
  obtain ⟨-, -, hlog⟩ := prepare_eq_ok_iff.mp hready
  have htext' := textAt_logOpened hlog htext
  rw [sessionIn_of_prepared stdin fuel hparse hready]
  simp only [entryIn, hentry, htext']

end

end TapeMachine.CommandLine
