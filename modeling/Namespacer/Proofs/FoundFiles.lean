import Namespacer.Proofs.IgnoredFiles
import Namespacer.Proofs.AutoloadLookup
import Mathlib.Data.Char
import Mathlib.Data.List.Lex

/-!
# Which files are found

A walk that enters some directories and takes some of their files finds a file exactly if it
takes it and enters all directories above it. What is left out by a directory and what is left out
file by file come together in `IsMigratable`, which speaks of one location of the disk and of no
walk. The patterns of the project and of the user are looked at only through what they match.

* `sortBy_pairwise`, `Path.leParts_iff`: the order in which files are listed.
* `Selection.mem_paths_iff`, `Selection.pairwise_paths`: a walk as a filter, and its order.
* `Job.mem_of_returns_discover`: the files that are found, and their order.
-/

namespace Namespacer

variable {tools : Tools}

/-! ## The order of paths -/

theorem insertSorted_pairwise {α : Type} {le : α → α → Bool}
    (htotal : ∀ a b, le a b = true ∨ le b a = true)
    (htrans : ∀ a b c, le a b = true → le b c = true → le a c = true) (a : α) {rest : List α}
    (h : rest.Pairwise fun x y => le x y = true) :
    (insertSorted le a rest).Pairwise fun x y => le x y = true := by
  induction rest with
  | nil => exact List.pairwise_singleton _ _
  | cons b rest ih =>
    obtain ⟨hfirst, hrest⟩ := List.pairwise_cons.mp h
    rw [insertSorted]
    split
    · rename_i hle
      refine List.pairwise_cons.mpr ⟨fun other hother => ?_, h⟩
      rcases List.mem_cons.mp hother with rfl | hother
      · exact hle
      · exact htrans _ _ _ hle (hfirst other hother)
    · rename_i hle
      refine List.pairwise_cons.mpr ⟨fun other hother => ?_, ih hrest⟩
      rcases List.mem_cons.mp ((insertSorted_perm _ _ _).mem_iff.mp hother) with rfl | hother
      · exact (htotal _ _).resolve_left hle
      · exact hfirst other hother

/-- Sorting by a total order puts the elements in this order. -/
theorem sortBy_pairwise {α : Type} {le : α → α → Bool}
    (htotal : ∀ a b, le a b = true ∨ le b a = true)
    (htrans : ∀ a b c, le a b = true → le b c = true → le a c = true) (elements : List α) :
    (sortBy le elements).Pairwise fun x y => le x y = true := by
  induction elements with
  | nil => exact List.Pairwise.nil
  | cons a rest ih => exact insertSorted_pairwise htotal htrans a ih

/-- Texts are compared character by character. -/
theorem Text.le_iff {a b : Text} : Text.le a b = true ↔ a < b ∨ a = b := by
  induction a generalizing b with
  | nil => cases b <;> simp [Text.le]
  | cons c a ih =>
    cases b with
    | nil => simp [Text.le]
    | cons d b =>
      rw [Text.le, List.cons_lt_cons_iff, List.cons.injEq]
      by_cases h : c = d
      · simp [h, ih]
      · simp only [h, if_false, decide_eq_true_eq, false_and, or_false, Char.lt_def]
        rfl

/-- Paths are compared part by part. -/
theorem Path.leParts_iff {a b : List Text} : Path.leParts a b = true ↔ a < b ∨ a = b := by
  induction a generalizing b with
  | nil => cases b <;> simp [Path.leParts]
  | cons name a ih =>
    cases b with
    | nil => simp [Path.leParts]
    | cons other b =>
      rw [Path.leParts, List.cons_lt_cons_iff, List.cons.injEq]
      by_cases h : name = other
      · simp [h, ih]
      · simp [h, Text.le_iff]

theorem Path.le_total (a b : Path) : Path.le a b = true ∨ Path.le b a = true := by
  rw [Path.le, Path.le, Path.leParts_iff, Path.leParts_iff]
  rcases lt_trichotomy a.parts b.parts with h | h | h
  · exact .inl (.inl h)
  · exact .inl (.inr h)
  · exact .inr (.inl h)

theorem Path.le_trans (a b c : Path) (hab : Path.le a b = true) (hbc : Path.le b c = true) :
    Path.le a c = true := by
  rw [Path.le, Path.leParts_iff] at hab hbc ⊢
  rcases hab with hab | hab
  · rcases hbc with hbc | hbc
    · exact .inl (lt_trans hab hbc)
    · exact .inl (hbc ▸ hab)
  · rwa [hab]

/-! ## Walks as filters -/

/-- A location has no more names than there are entries, since each directory above is one. -/
theorem Disk.IsTree.length_le_of_get? {disk : Disk} (tree : disk.IsTree) {location : Location}
    {entry : Entry} (h : disk.get? location = some entry) :
    location.length ≤ disk.entries.length := by
  have htake : ∀ n < location.length,
      location.take (n + 1) ∈ disk.entries.map (·.1) := by
    intro n hn
    have hne : location.take (n + 1) ≠ [] := by
      rw [← List.length_pos_iff, List.length_take]
      omega
    obtain ⟨found, hfound⟩ : ∃ found, disk.get? (location.take (n + 1)) = some found := by
      by_cases hrest : location.drop (n + 1) = []
      · rw [List.drop_eq_nil_iff] at hrest
        exact ⟨entry, by rwa [List.take_of_length_le hrest]⟩
      · rw [← List.take_append_drop (n + 1) location] at h
        exact ⟨_, tree.get?_above hrest h⟩
    exact List.mem_map_of_mem (mem_of_get? hne hfound)
  have hnodup : ((List.range location.length).map fun n => location.take (n + 1)).Nodup := by
    refine List.nodup_range.map_on fun a ha b hb heq => ?_
    have hlength := congrArg List.length heq
    rw [List.mem_range] at ha hb
    rw [List.length_take, List.length_take] at hlength
    omega
  have hsubset : ((List.range location.length).map fun n => location.take (n + 1)) ⊆
      disk.entries.map (·.1) := by
    intro above habove
    obtain ⟨n, hn, rfl⟩ := List.mem_map.mp habove
    exact htake n (List.mem_range.mp hn)
  simpa using hnodup.length_le_of_subset hsubset

namespace Selection

variable {selection : Selection} {disk : Disk}

/-- A file that is taken is found if all directories on the way to it are entered. -/
theorem mem_search_of_enters (tree : disk.IsTree) {depth : Nat} {directory rest : Location}
    {bytes : Bytes} (hrest : rest ≠ []) (hdepth : rest.length ≤ depth)
    (htakes : selection.takes (directory ++ rest) = true)
    (hfile : disk.get? (directory ++ rest) = some (.file bytes))
    (henters : ∀ above below, above ≠ [] → below ≠ [] → rest = above ++ below →
      selection.enters (directory ++ above) = true) :
    directory ++ rest ∈ selection.search disk depth directory := by
  induction depth generalizing directory rest with
  | zero => exact absurd (List.length_eq_zero_iff.mp (Nat.le_zero.mp hdepth)) hrest
  | succ depth ih =>
    obtain ⟨name, rest, rfl⟩ := List.exists_cons_of_ne_nil hrest
    rw [search, List.mem_flatMap]
    by_cases hlast : rest = []
    · subst hlast
      refine ⟨(name, .file bytes), Disk.mem_children.mpr (Disk.mem_of_get? (by simp) hfile), ?_⟩
      simp only [htakes, if_true]
      exact List.mem_singleton_self _
    · have hsplit : directory ++ name :: rest = directory ++ [name] ++ rest := by simp
      rw [hsplit] at htakes hfile ⊢
      have hname := tree.get?_above hlast hfile
      refine ⟨(name, .directory), Disk.mem_children.mpr (Disk.mem_of_get? (by simp) hname), ?_⟩
      simp only [henters [name] rest (by simp) hlast rfl, if_true]
      refine ih hlast (by simpa using hdepth) htakes hfile fun above below _ hbelow heq => ?_
      rw [List.append_assoc, List.singleton_append]
      exact henters (name :: above) below (by simp) hbelow (by rw [heq, List.cons_append])

/-- A walk finds the files that it takes below directories that it enters. -/
theorem mem_paths_iff (tree : disk.IsTree) {path : Path} :
    path ∈ selection.paths disk ↔
      path.anchor = [] ∧ (∃ bytes, disk.get? path.names = some (.file bytes)) ∧
        selection.takes path.names = true ∧
        ∀ above below, above ≠ [] → below ≠ [] → path.names = above ++ below →
          selection.enters above = true := by
  constructor
  · intro h
    obtain ⟨hanchor, htakes, hfile⟩ := mem_paths tree h
    exact ⟨hanchor, hfile, htakes,
      fun above below habove hbelow heq => enters_of_mem_paths tree h habove hbelow heq⟩
  · rintro ⟨hanchor, ⟨bytes, hfile⟩, htakes, henters⟩
    rw [paths, (sortBy_perm _ _).mem_iff, List.mem_map]
    have hnamed : disk.NamesFile path := ⟨hanchor, bytes, hfile⟩
    refine ⟨path.names, ?_, hnamed.toPath_names⟩
    have hdepth := Nat.le_succ_of_le (tree.length_le_of_get? hfile)
    have hfile : disk.get? ([] ++ path.names) = some (.file bytes) := hfile
    exact mem_search_of_enters tree hnamed.ne_nil hdepth htakes hfile henters

/-- The files that are found are in the strict order of their parts. -/
theorem pairwise_paths (tree : disk.IsTree) (selection : Selection) :
    (selection.paths disk).Pairwise fun a b => a.parts < b.parts := by
  have hsorted : (selection.paths disk).Pairwise fun a b => Path.le a b = true :=
    sortBy_pairwise Path.le_total Path.le_trans _
  have hnodup := nodup_paths tree selection
  refine (hsorted.and hnodup).imp_of_mem fun {a b} ha hb ⟨hle, hne⟩ => ?_
  rw [Path.le, Path.leParts_iff] at hle
  refine hle.resolve_right fun heq => hne ?_
  obtain ⟨hanchor, hfile, -⟩ := (mem_paths_iff tree).mp ha
  obtain ⟨hanchor', hfile', -⟩ := (mem_paths_iff tree).mp hb
  rw [Path.parts, Path.parts, hanchor, hanchor'] at heq
  exact Disk.NamesFile.eq_of_names ⟨hanchor, hfile⟩ ⟨hanchor', hfile'⟩ heq

end Selection

/-! ## The files of a project -/

/-- The files under version control, if the project has a version control system and this gives a
listing. -/
def Workspace.listing? (workspace : Workspace) : Option (List Text) :=
  if workspace.disk.holds (Path.ofText ".git") then
    match workspace.git with
    | .exited 0 printed => some (Text.lines printed)
    | _ => none
  else none

/-- The lines of the ignore file of a project; there are none if it has no such file. -/
def Disk.HasIgnoreLines (disk : Disk) (lines : List Text) : Prop :=
  if disk.holdsFile (Path.ofText ".gitignore") then
    ∃ bytes text, disk.read (Path.ofText ".gitignore") = .ok bytes ∧
      Encoding.utf8.decode bytes = .ok text ∧ lines = Text.lines (Text.unifyNewlines text)
  else lines = []

/-- A file that is to be worked on, where some suffixes are wanted, some paths are excluded, and
some paths are ignored unless there is a listing of the files under version control. -/
structure Disk.IsMigratable (disk : Disk) (wanted : List Text) (excludes ignores : Text → Bool)
    (listing? : Option (List Text)) (location : Location) : Prop where
  isFile : ∃ bytes, disk.get? location = some (.file bytes)
  /-- No link leads to it. -/
  reached : ∀ above below, below ≠ [] → location = above ++ below →
    disk.get? above = some .directory
  shown : ∀ name ∈ location, name.head? ≠ some '.'
  entered : ∀ above below, above ≠ [] → below ≠ [] → location = above ++ below →
    above.getLastD [] ∉ toolDirectories.map String.toList ∧
      excludes (directoryText above) = false
  included : excludes location.toPath.toText = false
  kept : match listing? with
    | some listed => location.toPath.toText ∈ listed
    | none => ignores location.toPath.toText = false
  typed : Text.lower location.toPath.suffix ∈ wanted.map Text.lower ∧
    (languageFor? (Text.lower location.toPath.suffix)).isSome = true

theorem isHidden_eq_false_iff {name : Text} : isHidden name = false ↔ name.head? ≠ some '.' := by
  rw [isHidden, beq_eq_false_iff_ne]

theorem isToolDirectory_eq_false_iff {name : Text} :
    isToolDirectory name = false ↔ name ∉ toolDirectories.map String.toList := by
  simp [isToolDirectory, List.mem_map]

/-- A walk finds the files that are to be worked on. -/
theorem Selection.mem_paths_iff_isMigratable {disk : Disk} (tree : disk.IsTree)
    {wanted : List Text} {excludes ignores keeps : Text → Bool} {listing? : Option (List Text)}
    (hkeeps : ∀ text, keeps text = true ↔ match listing? with
      | some listed => text ∈ listed
      | none => ignores text = false) {path : Path} :
    path ∈ Selection.paths ⟨excludes, keeps, wanted.map Text.lower⟩ disk ↔
      path.anchor = [] ∧ disk.IsMigratable wanted excludes ignores listing? path.names := by
  rw [mem_paths_iff tree]
  simp only [takes, enters, Bool.and_eq_true, Bool.not_eq_true', List.contains_iff_mem,
    isToolDirectory_eq_false_iff, hkeeps]
  constructor
  · rintro ⟨hanchor, hfile, ⟨⟨⟨⟨hhidden, hkept⟩, hincluded⟩, hwanted⟩, hlanguage⟩, henters⟩
    refine ⟨hanchor, hfile, ?_, ?_, ?_, hincluded, hkept, hwanted, hlanguage⟩
    · rintro above below hbelow heq
      obtain ⟨bytes, hfile⟩ := hfile
      exact tree.get?_above hbelow (heq ▸ hfile)
    · -- A name is the last one, or the last one of a directory above.
      intro name hname
      rw [← isHidden_eq_false_iff]
      obtain ⟨above, below, hnames⟩ := List.append_of_mem hname
      by_cases hbelow : below = []
      · rwa [Path.name, Location.toPath, hnames, hbelow, List.getLastD_concat] at hhidden
      · have hentered := henters (above ++ [name]) below (by simp) hbelow (by simpa using hnames)
        rw [List.getLastD_concat] at hentered
        exact hentered.1.2
    · intro above below habove hbelow heq
      have hentered := henters above below habove hbelow heq
      exact ⟨hentered.1.1, hentered.2⟩
  · rintro ⟨hanchor, h⟩
    have hlast : ∀ location : Location, location ≠ [] → (∀ name ∈ location, name ∈ path.names) →
        isHidden (location.getLastD []) = false := by
      intro location hne hmem
      refine isHidden_eq_false_iff.mpr (h.shown _ (hmem _ ?_))
      rw [List.getLastD_eq_getLast?, List.getLast?_eq_some_getLast hne, Option.getD_some]
      exact List.getLast_mem hne
    have hne : path.names ≠ [] := by
      intro hnil
      obtain ⟨bytes, hfile⟩ := h.isFile
      rw [hnil] at hfile
      cases hfile
    refine ⟨hanchor, h.isFile, ⟨⟨⟨⟨?_, h.kept⟩, h.included⟩, h.typed.1⟩, h.typed.2⟩, ?_⟩
    · exact hlast path.names hne fun _ => id
    · intro above below habove hbelow heq
      obtain ⟨htool, hexcluded⟩ := h.entered above below habove hbelow heq
      refine ⟨⟨htool, hlast above habove fun name hname => ?_⟩, hexcluded⟩
      rw [heq]
      exact List.mem_append_left _ hname

namespace Job

variable {before after : Workspace}

theorem listing?_of_returns_versionedFiles {listed : Option (List Text)}
    (h : versionedFiles.Returns before listed after) : listed = before.listing? := by
  rw [versionedFiles, returns_bind] at h
  obtain ⟨found, middle, hfound, h⟩ := h
  obtain ⟨rfl, rfl⟩ := returns_disk.mp hfound
  rw [Workspace.listing?]
  split at h
  · rename_i hholds
    rw [if_pos hholds]
    simp only [recordCall, returns_bind, returns_modify, returns_get] at h
    obtain ⟨_, _, rfl, state, _, ⟨rfl, rfl⟩, h⟩ := h
    dsimp only at h ⊢
    generalize middle.git = outcome at h ⊢
    -- Both sides match on the outcome, so it is taken apart by its constructors.
    rcases outcome with _ | _ | ⟨(_ | _) | _, printed⟩ <;> exact (returns_pure.mp h).1
  · rename_i hholds
    rw [if_neg hholds]
    exact (returns_pure.mp h).1

theorem hasIgnoreLines_of_returns_ignoreLines {lines : List Text}
    (h : ignoreLines.Returns before lines after) : before.disk.HasIgnoreLines lines := by
  rw [ignoreLines, returns_bind] at h
  obtain ⟨found, middle, hfound, h⟩ := h
  obtain ⟨rfl, rfl⟩ := returns_disk.mp hfound
  rw [Disk.HasIgnoreLines]
  split at h
  · rename_i hfile
    rw [if_pos hfile]
    rw [returns_bind] at h
    obtain ⟨text, last, htext, h⟩ := h
    obtain ⟨rfl, -⟩ := returns_pure.mp h
    obtain ⟨-, bytes, decoded, hread, hdecode, rfl⟩ := returns_readUtf8.mp htext
    exact ⟨bytes, decoded, hread, hdecode, rfl⟩
  · rename_i hfile
    rw [if_neg hfile]
    exact (returns_pure.mp h).1

/-- What is kept is what is listed or else what the lines of the ignore file do not match. -/
theorem returns_keptPaths {keeps : Text → Bool}
    (h : (keptPaths tools).Returns before keeps after) :
    ∃ ignores : Text → Bool,
      (before.listing? = none →
        ∃ lines, before.disk.HasIgnoreLines lines ∧ tools.patterns lines = .ok ignores) ∧
      ∀ text, keeps text = true ↔ match before.listing? with
        | some listed => text ∈ listed
        | none => ignores text = false := by
  rw [keptPaths, returns_bind] at h
  obtain ⟨listed, middle, hlisted, h⟩ := h
  rw [← listing?_of_returns_versionedFiles hlisted]
  cases listed with
  | some listed =>
    obtain ⟨rfl, -⟩ := returns_pure.mp h
    exact ⟨fun _ => false, fun hnone => (by cases hnone), fun text => List.contains_iff_mem⟩
  | none =>
    simp only [projectRules, returns_bind] at h
    obtain ⟨ignores, w₂, ⟨lines, w₁, hlines, hignores⟩, h⟩ := h
    obtain ⟨rfl, -⟩ := returns_pure.mp h
    have hdisk := hlisted.disk_eq keepsDisk_versionedFiles
    refine ⟨ignores, fun _ => ⟨lines, ?_, (returns_ignoreRules.mp hignores).1⟩, fun text => ?_⟩
    · rw [← hdisk]
      exact hasIgnoreLines_of_returns_ignoreLines hlines
    · rw [Bool.not_eq_true']

/-- The files that are found, whatever patterns match: exactly those that are to be worked on, in
the strict order of their parts. -/
theorem mem_of_returns_discover {extensions excluded : List Text} {paths : List Path}
    (tree : before.disk.IsTree)
    (h : (discover tools extensions excluded).Returns before paths after) :
    ∃ excludes ignores : Text → Bool,
      tools.patterns.excluding excluded = .ok excludes ∧
      (before.listing? = none →
        ∃ lines, before.disk.HasIgnoreLines lines ∧ tools.patterns lines = .ok ignores) ∧
      (∀ path, path ∈ paths ↔ path.anchor = [] ∧
        before.disk.IsMigratable (if extensions.isEmpty then defaultExtensions else extensions)
          excludes ignores before.listing? path.names) ∧
      paths.Pairwise fun a b => a.parts < b.parts := by
  obtain ⟨keeps, excludes, w₁, w₂, hkeeps, hexcludes, rfl⟩ := returns_discover h
  obtain ⟨ignores, hlines, hmem⟩ := returns_keptPaths hkeeps
  exact ⟨excludes, ignores, (returns_ignoreRules.mp hexcludes).1, hlines,
    fun path => Selection.mem_paths_iff_isMigratable tree hmem, Selection.pairwise_paths tree _⟩

/-- A project with files that are hidden, ignored, excluded, linked, of a tool or of another type,
and with a suffix in upper case. -/
def shelfProject : Workspace where
  root := ⟨[], []⟩
  disk.entries := [([".gitignore".toList], .file "old.php\n".toUTF8.toList),
    (["z-a.php".toList], .file []), (["z.php".toList], .file []), (["z".toList], .directory),
    (["z".toList, "b.PHTML".toList], .file []), (["z".toList, "a.php".toList], .file []),
    (["z".toList, "old.php".toList], .file []), (["z".toList, "a.txt".toList], .file []),
    (["out".toList], .directory), (["out".toList, "a.php".toList], .file []),
    (["vendor".toList], .directory), (["vendor".toList, "a.php".toList], .file []),
    ([".a".toList], .directory), ([".a".toList, "a.php".toList], .file []),
    (["a.php".toList], .link "z.php"), (["link".toList], .link "z")]

/-- The paths of its files that are to be worked on. -/
def shelfPaths : List Path :=
  [⟨[], ["z".toList, "a.php".toList]⟩, ⟨[], ["z".toList, "b.PHTML".toList]⟩,
    ⟨[], ["z-a.php".toList]⟩, ⟨[], ["z.php".toList]⟩]

theorem mem_of_returns_discover_shelf :
    shelfProject.disk.IsTree ∧ shelfProject.listing? = none ∧
      ∃ after, (discover .standard [] ["out/".toList]).Returns shelfProject shelfPaths after ∧
        ∃ excludes ignores : Text → Bool,
          (∀ path, path ∈ shelfPaths ↔ path.anchor = [] ∧
            shelfProject.disk.IsMigratable defaultExtensions excludes ignores none path.names) ∧
          shelfPaths.Pairwise fun a b => a.parts < b.parts := by
  have tree : shelfProject.disk.IsTree := by decide +kernel
  have hlisting : shelfProject.listing? = none := by decide +kernel
  have hreturns : (discover .standard [] ["out/".toList]).Returns shelfProject shelfPaths
      ((discover .standard [] ["out/".toList]).outcome shelfProject).2 :=
    returns_of_toOption (by decide +kernel)
  obtain ⟨excludes, ignores, -, -, hmem, hsorted⟩ :=
    mem_of_returns_discover tree hreturns
  rw [hlisting] at hmem
  exact ⟨tree, hlisting, _, hreturns, excludes, ignores, hmem, hsorted⟩

end Job

end Namespacer
