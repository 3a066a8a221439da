import TapeMachine.Files

/-!
# What a log file does to the files

To open a log file may create it, and then the tree of files is another one. All that could be found
in the tree before can still be found: a file is only created where there was nothing
(`keeps_touch`), so every file that could be read still has its content (`read_touch`).
-/

namespace TapeMachine.FileTree

variable {t t' : FileTree} {path outer : List String} {name : String} {spot : Spot}

/-- What a name leads to in `t` it also leads to in `t'`. -/
def Keeps (t t' : FileTree) : Prop :=
  ∀ path name spot, t.child? path name = some spot → t'.child? path name = some spot

theorem Keeps.refl (t : FileTree) : Keeps t t := fun _ _ _ h => h

theorem Keeps.walk (h : Keeps t t') {start : Spot} {parts : List String}
    (hwalk : t.walk start parts = .ok spot) : t'.walk start parts = .ok spot := by
  induction parts generalizing start with
  | nil => exact hwalk
  | cons part rest ih =>
    cases start with
    | file content => contradiction
    | above =>
      simp only [FileTree.walk] at hwalk ⊢
      split at hwalk
      · next hpart =>
        rw [if_pos hpart]
        exact ih hwalk
      · contradiction
    | directory path =>
      simp only [FileTree.walk] at hwalk ⊢
      split at hwalk
      · next hvoid =>
        rw [if_pos hvoid]
        exact ih hwalk
      next hvoid =>
      rw [if_neg hvoid]
      split at hwalk
      · next hback =>
        rw [if_pos hback]
        exact ih hwalk
      next hback =>
      rw [if_neg hback]
      split at hwalk
      · contradiction
      next hlong =>
      rw [if_neg hlong]
      cases hchild : t.child? path part with
      | none => simp [hchild] at hwalk
      | some next =>
        rw [hchild] at hwalk
        rw [h path part next hchild]
        exact ih hwalk

theorem Keeps.read (h : Keeps t t') {path : String} {content : ByteArray}
    (hread : t.read path = .ok content) : t'.read path = .ok content := by
  unfold FileTree.read FileTree.locate at hread ⊢
  cases hcheck : checkPath path with
  | error e => simp [hcheck, bind, Except.bind] at hread
  | ok _ =>
    cases hwalk : t.walk (origin path) (Path.parts path) with
    | error e => simp [hcheck, hwalk, bind, Except.bind] at hread
    | ok spot =>
      simp only [hcheck, hwalk, h.walk hwalk, bind, Except.bind] at hread ⊢
      exact hread

/-! ## Where new files are put -/

/-- All directories that a path is in are there, and so is its own. -/
def HasWay (t : FileTree) (path : List String) : Prop :=
  ∀ front, front <+: path → front ≠ [] → front ∈ t.directories

theorem hasWay_top (t : FileTree) : t.HasWay [] := by
  intro front hfront hne
  exact absurd (List.prefix_nil.mp hfront) hne

theorem HasWay.dropLast (h : t.HasWay path) : t.HasWay path.dropLast := by
  intro front hfront
  apply h
  exact hfront.trans (List.dropLast_prefix path)

theorem HasWay.child (h : t.HasWay path) (hchild : t.child? path name = some (.directory outer)) :
    t.HasWay outer := by
  unfold child? at hchild
  split at hchild
  · next hmem =>
    obtain rfl := Spot.directory.inj (Option.some.inj hchild)
    intro front hfront hne
    rcases List.prefix_concat_iff.mp hfront with rfl | hfront
    · exact List.contains_iff_mem.mp hmem
    · exact h front hfront hne
  · cases hfile : t.files.lookup (path ++ [name]) <;> simp [hfile] at hchild

/-- A walk that comes to a directory has a way to it. -/
theorem hasWay_of_walk {start : Spot} {parts : List String}
    (hstart : ∀ p, start = .directory p → t.HasWay p)
    (h : t.walk start parts = .ok (.directory outer)) : t.HasWay outer := by
  induction parts generalizing start with
  | nil => exact hstart outer (Except.ok.inj h)
  | cons part rest ih =>
    cases start with
    | file content => contradiction
    | above =>
      simp only [FileTree.walk] at h
      split at h
      · exact ih hstart h
      · contradiction
    | directory path =>
      have hpath := hstart path rfl
      simp only [FileTree.walk] at h
      split at h
      · exact ih hstart h
      split at h
      · refine ih ?_ h
        intro p hp
        split at hp
        · contradiction
        · obtain rfl := Spot.directory.inj hp
          exact hpath.dropLast
      split at h
      · contradiction
      cases hchild : t.child? path part with
      | none => simp [hchild] at h
      | some next =>
        rw [hchild] at h
        refine ih ?_ h
        rintro p rfl
        exact hpath.child hchild

/-- A new file in a directory that is there hides nothing. -/
theorem keeps_addFile (hway : t.HasWay outer) (name : String) (content : ByteArray) :
    Keeps t (t.addFile (outer ++ [name]) content) := by
  intro path other spot h
  -- No directory is new but the top, which no name leads to.
  have hdirectories : (t.addFile (outer ++ [name]) content).directories.contains (path ++ [other]) =
      t.directories.contains (path ++ [other]) := by
    rw [Bool.eq_iff_iff, List.contains_iff_mem, List.contains_iff_mem]
    simp only [addFile, addDirectory, List.dropLast_concat, List.mem_append, List.mem_filter]
    constructor
    · rintro (hold | ⟨hnew, -⟩)
      · exact hold
      · obtain ⟨k, -, hk⟩ := List.mem_map.mp hnew
        apply hway
        · rw [← hk]
          exact List.take_prefix k outer
        · simp
    · exact .inl
  unfold child? at h ⊢
  rw [hdirectories]
  split at h
  · next hmem => rw [if_pos hmem]; exact h
  · next hmem =>
    rw [if_neg hmem]
    cases hfile : t.files.lookup (path ++ [other]) with
    | none => simp [hfile] at h
    | some old =>
      rw [hfile] at h
      simp only [addFile, addDirectory, List.lookup_append, hfile, Option.some_or]
      exact h

theorem keeps_touchIn (hway : ∀ p, spot = .directory p → t.HasWay p)
    (h : t.touchIn spot name = .ok t') : Keeps t t' := by
  cases spot with
  | file content => contradiction
  | above =>
    simp only [touchIn] at h
    split at h
    · contradiction
    · obtain rfl := Except.ok.inj h
      exact .refl t
  | directory outer =>
    simp only [touchIn] at h
    split at h
    · contradiction
    split at h
    · obtain rfl := Except.ok.inj h
      exact .refl t
    · contradiction
    · obtain rfl := Except.ok.inj h
      exact keeps_addFile (hway outer rfl) name _

theorem hasWay_origin (t : FileTree) (path : String) :
    ∀ p, origin path = .directory p → t.HasWay p := by
  intro p hp
  unfold origin at hp
  split at hp
  · contradiction
  · obtain rfl := Spot.directory.inj hp
    exact t.hasWay_top

theorem keeps_touch {log : String} (h : t.touch log = .ok t') : Keeps t t' := by
  unfold touch at h
  cases hcheck : checkPath log with
  | error e => simp [hcheck, bind, Except.bind] at h
  | ok _ =>
    simp only [hcheck, bind, Except.bind] at h
    split at h
    · contradiction
    split at h
    · cases hlocate : t.locate log with
      | error e => simp [hlocate] at h
      | ok spot =>
        cases spot with
        | file content =>
          simp only [hlocate] at h
          obtain rfl := Except.ok.inj h
          exact .refl t
        | _ => simp [hlocate] at h
    · next before _ _ =>
      cases hwalk : t.walk (origin log) before.reverse with
      | error e => simp [hwalk] at h
      | ok spot =>
        have hway : ∀ p, spot = .directory p → t.HasWay p := by
          rintro p rfl
          exact hasWay_of_walk (t.hasWay_origin log) hwalk
        simp only [hwalk] at h
        split at h
        · contradiction
        split at h
        · contradiction
        · exact keeps_touchIn hway h

/-- A file that could be read before a log file was opened has the same content after it. -/
theorem read_touch {log path : String} {content : ByteArray} (h : t.touch log = .ok t')
    (hread : t.read path = .ok content) : t'.read path = .ok content :=
  (keeps_touch h).read hread

end TapeMachine.FileTree
