import Namespacer.Proofs.DiskTree
import Namespacer.Proofs.JobRun
import Namespacer.Proofs.PathNames

/-!
# Files on their way through a migration

The registry of a migration and the disk change together: files are found and read,
renamed, and written. `Disk.Stores` says that a path names a regular file with a text in
`latin1`; the lemmas follow it through the steps.

* `Job.returns_loadProject`: loaded files are regular files at distinct paths, and
  `Job.stores_of_returns_loadProject` says that they are stored with their contents.
* `FileRename.sibling_of_ofPath?`: what is planned for a file of the language.
* `carryOut_cons`, `run_renameFiles`: how plans are carried out, as equations.
-/

namespace Namespacer

variable {tools : Tools}

/-! ## Single bytes -/

namespace Encoding

theorem latin1_decodeFrom (position : Nat) (bytes : Bytes) :
    latin1.decodeSingleFrom position bytes = .ok (bytes.map fun byte => Char.ofNat byte.toNat) := by
  induction bytes generalizing position with
  | nil => rfl
  | cons byte rest ih =>
    rw [decodeSingleFrom]
    simp only [code?, ih]
    rfl

theorem latin1_decode (bytes : Bytes) :
    latin1.decode bytes = .ok (bytes.map fun byte => Char.ofNat byte.toNat) :=
  latin1_decodeFrom 0 bytes

theorem toNat_ofNat_byte (byte : UInt8) : (Char.ofNat byte.toNat).toNat = byte.toNat := by
  have hlt : byte.toNat < 256 := byte.toNat_lt
  have hvalid : byte.toNat.isValidChar := .inl (by omega)
  rw [Char.ofNat, dif_pos hvalid]
  rfl

theorem latin1_canWrite (code : Nat) : latin1.canWrite code = decide (code < 256) := by
  by_cases h : code < 256
  · simp [canWrite, byte?, h]
  · simp [canWrite, byte?, h]

theorem latin1_bytesOf {code : Nat} (h : code < 256) :
    latin1.bytesOf code = [UInt8.ofNat code] := by
  simp [bytesOf, byte?, h]

theorem ofNat_toNat_byte {c : Char} (h : c.toNat < 256) :
    Char.ofNat (UInt8.ofNat c.toNat).toNat = c := by
  rw [UInt8.toNat_ofNat', Nat.mod_eq_of_lt h, Char.ofNat_toNat]

/-- Writing in `latin1` undoes reading. -/
theorem latin1_encode_eq_ok_iff {text : Text} {bytes : Bytes} :
    latin1.encode text = .ok bytes ↔ latin1.decode bytes = .ok text := by
  rw [latin1_decode, Except.ok.injEq, encode, encodeCodes]
  constructor
  · intro h
    split at h
    · rename_i hwritable
      rw [List.dropWhile_eq_nil_iff] at hwritable
      have hbyte : ∀ c ∈ text, c.toNat < 256 := by
        intro c hc
        simpa [latin1_canWrite] using hwritable c.toNat (List.mem_map_of_mem hc)
      cases h
      clear hwritable
      induction text with
      | nil => rfl
      | cons c text ih =>
        have hc := hbyte c List.mem_cons_self
        have hrest := ih fun d hd => hbyte d (List.mem_cons_of_mem c hd)
        simp only [reduceCtorEq, if_false, List.nil_append] at hrest
        rw [List.map_cons, List.flatMap_cons, latin1_bytesOf hc]
        simp only [reduceCtorEq, if_false, List.nil_append, List.cons_append, List.map_cons,
          hrest, ofNat_toNat_byte hc]
    · cases h
  · rintro rfl
    have hcodes : (bytes.map fun byte => Char.ofNat byte.toNat).map Char.toNat =
        bytes.map UInt8.toNat := by
      simp [Function.comp_def, toNat_ofNat_byte]
    have hwritable : (bytes.map UInt8.toNat).dropWhile latin1.canWrite = [] := by
      rw [List.dropWhile_eq_nil_iff]
      intro code hcode
      obtain ⟨byte, -, rfl⟩ := List.mem_map.mp hcode
      simpa [latin1_canWrite] using byte.toNat_lt
    have hbytes : (bytes.map UInt8.toNat).flatMap latin1.bytesOf = bytes := by
      clear hcodes hwritable
      induction bytes with
      | nil => rfl
      | cons byte rest ih =>
        rw [List.map_cons, List.flatMap_cons, ih, latin1_bytesOf byte.toNat_lt]
        simp
    rw [hcodes, hwritable]
    simp [hbytes]

end Encoding

/-! ## What is stored -/

namespace Disk

/-- Whether a path names a regular file. -/
def NamesFile (disk : Disk) (path : Path) : Prop :=
  path.anchor = [] ∧ ∃ bytes, disk.get? path.names = some (.file bytes)

namespace NamesFile

variable {disk : Disk} {path : Path}

theorem ne_nil (h : disk.NamesFile path) : path.names ≠ [] := by
  intro hnil
  obtain ⟨-, bytes, hget⟩ := h
  rw [hnil] at hget
  cases hget

theorem toPath_names (h : disk.NamesFile path) : Location.toPath path.names = path := by
  rw [Location.toPath, ← h.1]

/-- Two paths of files are the same if their locations are. -/
theorem eq_of_names {other : Path} (h : disk.NamesFile path) (hother : disk.NamesFile other)
    (hnames : path.names = other.names) : path = other := by
  rw [← h.toPath_names, ← hother.toPath_names, hnames]

theorem locate (h : disk.NamesFile path) (tree : disk.IsTree) (followsLast : Bool) :
    disk.locate followsLast path = .ok (.inside path.names) := by
  obtain ⟨-, bytes, hget⟩ := id h
  have hlocate := tree.locate_file hget followsLast
  rwa [← Location.toPath, h.toPath_names] at hlocate

theorem write_eq (h : disk.NamesFile path) (tree : disk.IsTree) (bytes : Bytes) :
    disk.write path bytes = .ok (disk.set path.names (.file bytes)) := by
  obtain ⟨-, held, hheld⟩ := id h
  simp only [Disk.write, h.locate tree, bind, Except.bind, at?_inside, hheld]
  rfl

theorem isTree_set (h : disk.NamesFile path) (tree : disk.IsTree) (bytes : Bytes) :
    (disk.set path.names (.file bytes)).IsTree := by
  obtain ⟨-, held, hheld⟩ := h
  exact tree.set (tree.isPlace hheld) (by simp [hheld]) bytes

/-- Writing another file leaves a regular file one. -/
theorem set (h : disk.NamesFile path) {location : Location} (hne : path.names ≠ location)
    (bytes : Bytes) : (disk.set location (.file bytes)).NamesFile path := by
  obtain ⟨hanchor, held, hheld⟩ := h
  exact ⟨hanchor, held, by rwa [get?_set_of_ne _ hne]⟩

end NamesFile

/-- The path names a regular file that holds a text in `latin1`. -/
def Stores (disk : Disk) (path : Path) (text : Text) : Prop :=
  path.anchor = [] ∧ ∃ bytes, disk.get? path.names = some (.file bytes) ∧
    Encoding.latin1.decode bytes = .ok text

/-- The path leads to a file that holds a text in `latin1`. -/
def HoldsText (disk : Disk) (path : Path) (text : Text) : Prop :=
  ∃ bytes, Encoding.latin1.encode text = .ok bytes ∧ disk.read path = .ok bytes

theorem HoldsText.unique {disk : Disk} {path : Path} {text other : Text}
    (h : disk.HoldsText path text) (hother : disk.HoldsText path other) : text = other := by
  obtain ⟨bytes, hencode, hread⟩ := h
  obtain ⟨bytes', hencode', hread'⟩ := hother
  rw [hread, Except.ok.injEq] at hread'
  rw [Encoding.latin1_encode_eq_ok_iff] at hencode hencode'
  rw [← hread', hencode, Except.ok.injEq] at hencode'
  exact hencode'

theorem Stores.holdsText {disk : Disk} (tree : disk.IsTree) {path : Path} {text : Text}
    (h : disk.Stores path text) : disk.HoldsText path text := by
  obtain ⟨hanchor, bytes, hget, hdecode⟩ := h
  obtain ⟨anchor, names⟩ := path
  cases hanchor
  exact ⟨bytes, Encoding.latin1_encode_eq_ok_iff.mpr hdecode, tree.read_file hget⟩

theorem Stores.namesFile {disk : Disk} {path : Path} {text : Text} (h : disk.Stores path text) :
    disk.NamesFile path := by
  obtain ⟨hanchor, bytes, hget, -⟩ := h
  exact ⟨hanchor, bytes, hget⟩

end Disk

/-! ## Finding and reading -/

namespace Selection

/-- A search finds files that it takes, below its directory. -/
theorem mem_search {selection : Selection} {disk : Disk} (tree : disk.IsTree) {depth : Nat}
    {directory location : Location} (h : location ∈ selection.search disk depth directory) :
    selection.takes location = true ∧ (∃ bytes, disk.get? location = some (.file bytes)) ∧
      ∃ name rest, location = directory ++ name :: rest ∧
        name ∈ (disk.children directory).map (·.1) := by
  induction depth generalizing directory with
  | zero => simp [search] at h
  | succ depth ih =>
    rw [search, List.mem_flatMap] at h
    obtain ⟨⟨name, entry⟩, hchild, h⟩ := h
    have hname : name ∈ (disk.children directory).map (·.1) := List.mem_map_of_mem hchild
    have hget := tree.get?_of_mem (Disk.mem_children.mp hchild)
    cases entry with
    | file bytes =>
      simp only at h
      split at h
      · rename_i htakes
        rw [List.mem_singleton] at h
        rw [h]
        exact ⟨htakes, ⟨bytes, hget⟩, name, [], rfl, hname⟩
      · cases h
    | directory =>
      simp only at h
      split at h
      · obtain ⟨htakes, hfile, inner, rest, rfl, -⟩ := ih h
        exact ⟨htakes, hfile, name, inner :: rest, by simp, hname⟩
      · cases h
    | link target => cases h

/-- What is found under different names of a directory is found once. -/
theorem nodup_flatMap_children (directory : Location) {children : List (Text × Entry)}
    {found : Text × Entry → List Location} (hnames : (children.map (·.1)).Nodup)
    (hbelow : ∀ child ∈ children, ∀ location ∈ found child,
      ∃ rest, location = directory ++ child.1 :: rest)
    (hnodup : ∀ child ∈ children, (found child).Nodup) : (children.flatMap found).Nodup := by
  rw [List.Nodup, List.pairwise_map] at hnames
  refine List.nodup_flatMap.mpr ⟨hnodup, hnames.imp_of_mem ?_⟩
  intro a b ha hb hne location hA hB
  obtain ⟨restA, hA⟩ := hbelow a ha location hA
  obtain ⟨restB, hB⟩ := hbelow b hb location hB
  rw [hA, List.append_cancel_left_eq, List.cons.injEq] at hB
  exact hne hB.1

/-- A search finds no file twice. -/
theorem nodup_search {disk : Disk} (tree : disk.IsTree) (selection : Selection) (depth : Nat)
    (directory : Location) : (selection.search disk depth directory).Nodup := by
  induction depth generalizing directory with
  | zero => exact List.nodup_nil
  | succ depth ih =>
    rw [search]
    refine nodup_flatMap_children directory (tree.nodup_children directory) ?_ ?_
    · rintro ⟨name, entry⟩ - location h
      cases entry with
      | file bytes =>
        simp only at h
        split at h
        · exact ⟨[], List.mem_singleton.mp h⟩
        · cases h
      | directory =>
        simp only at h
        split at h
        · obtain ⟨-, -, inner, rest, rfl, -⟩ := mem_search tree h
          exact ⟨inner :: rest, by simp⟩
        · cases h
      | link target => cases h
    · rintro ⟨name, entry⟩ -
      cases entry with
      | file bytes =>
        simp only
        split
        · exact List.nodup_singleton _
        · exact List.nodup_nil
      | directory =>
        simp only
        split
        · exact ih _
        · exact List.nodup_nil
      | link target => exact List.nodup_nil

theorem nodup_paths {disk : Disk} (tree : disk.IsTree) (selection : Selection) :
    (selection.paths disk).Nodup := by
  rw [paths, (sortBy_perm _ _).nodup_iff]
  refine (nodup_search tree selection _ []).map ?_
  intro a b h
  exact congrArg Path.names h

theorem mem_paths {selection : Selection} {disk : Disk} (tree : disk.IsTree) {path : Path}
    (h : path ∈ selection.paths disk) :
    path.anchor = [] ∧ selection.takes path.names = true ∧
      ∃ bytes, disk.get? path.names = some (.file bytes) := by
  rw [paths, (sortBy_perm _ _).mem_iff] at h
  obtain ⟨location, hlocation, rfl⟩ := List.mem_map.mp h
  obtain ⟨htakes, hfile, -⟩ := mem_search tree hlocation
  exact ⟨rfl, htakes, hfile⟩

end Selection

namespace Job

/-- A file that is loaded is the one at its path, with the text that is read there. -/
theorem returns_load? {encoding : Text} {path : Path} {file : SourceFile}
    {before after : Workspace} (h : (load? tools encoding path).Returns before (some file) after) :
    ∃ text, (readText tools path encoding).Returns before text after ∧
      file = SourceFile.ofPath path text := by
  rw [load?, Returns, outcome_tryCatch] at h
  rcases hinner : outcome (do pure (some (SourceFile.ofPath path (← readText tools path encoding))))
    before with ⟨failure | found, middle⟩
  · rw [hinner] at h
    change Returns _ middle (some file) after at h
    split at h
    · rw [returns_bind] at h
      obtain ⟨_, _, -, h⟩ := h
      simp at h
    · rw [returns_bind] at h
      obtain ⟨_, _, -, h⟩ := h
      simp at h
    · exact absurd h not_returns_throw
  · rw [hinner] at h
    cases h
    obtain ⟨text, last, hread, h⟩ := returns_bind.mp hinner
    obtain ⟨heq, rfl⟩ := returns_pure.mp h
    exact ⟨text, hread, Option.some.inj heq⟩

/-- Loaded files are files at some of the paths, in their order, each with the text that is
read there. -/
theorem returns_loadAll {encoding : Text} {paths : List Path} {files : List SourceFile}
    {before after : Workspace} (h : (loadAll tools encoding paths).Returns before files after) :
    (files.map (·.path)).Sublist paths ∧ ∀ file ∈ files, ∃ text start stop,
      start.disk = before.disk ∧ (readText tools file.path encoding).Returns start text stop ∧
        file = SourceFile.ofPath file.path text := by
  induction paths generalizing files before with
  | nil =>
    obtain ⟨rfl, -⟩ := returns_pure.mp h
    simp
  | cons path paths ih =>
    rw [loadAll, returns_bind] at h
    obtain ⟨file?, middle, hfile, h⟩ := h
    rw [returns_bind] at h
    obtain ⟨others, last, hothers, h⟩ := h
    obtain ⟨rfl, rfl⟩ := returns_pure.mp h
    obtain ⟨hpaths, hstored⟩ := ih hothers
    rw [hfile.disk_eq (keepsDisk_load? _ _)] at hstored
    cases file? with
    | none => exact ⟨hpaths.cons path, hstored⟩
    | some file =>
      obtain ⟨text, hread, rfl⟩ := returns_load? hfile
      refine ⟨hpaths.cons_cons path, ?_⟩
      intro other hother
      rcases List.mem_cons.mp hother with rfl | hother
      · exact ⟨text, before, middle, rfl, hread, rfl⟩
      · exact hstored other hother

/-- Files are found by a search that takes what the project keeps and leaves out what is
excluded. -/
theorem returns_discover {extensions excluded : List Text} {paths : List Path}
    {before after : Workspace}
    (h : (discover tools extensions excluded).Returns before paths after) :
    ∃ keeps excludes middle last, (keptPaths tools).Returns before keeps middle ∧
      (exclusion tools excluded).Returns middle excludes last ∧
        paths = Selection.paths ⟨excludes, keeps,
          (if extensions.isEmpty then defaultExtensions else extensions).map Text.lower⟩
            before.disk := by
  rw [discover, returns_bind] at h
  obtain ⟨keeps, w₁, hkeeps, h⟩ := h
  rw [returns_bind] at h
  obtain ⟨excludes, w₂, hexcludes, h⟩ := h
  rw [returns_bind] at h
  obtain ⟨disk, w₃, hfound, h⟩ := h
  obtain ⟨rfl, rfl⟩ := returns_disk.mp hfound
  obtain ⟨heq, -⟩ := returns_pure.mp h
  rw [hexcludes.disk_eq (keepsDisk_exclusion _), hkeeps.disk_eq keepsDisk_keptPaths] at heq
  exact ⟨keeps, excludes, w₁, _, hkeeps, hexcludes, heq⟩

/-- Loaded files are regular files at distinct paths, under suffixes of the language, each
with the text that is read there. -/
theorem returns_loadProject {settings : Settings} {files : List SourceFile}
    {before after : Workspace} (tree : before.disk.IsTree)
    (h : (loadProject tools settings).Returns before files after) :
    (files.map (·.path)).Nodup ∧ ∀ file ∈ files,
      file.path.anchor = [] ∧ (∃ bytes, before.disk.get? file.path.names = some (.file bytes)) ∧
        (languageFor? (Text.lower file.path.suffix)).isSome = true ∧
          ∃ text start stop, start.disk = before.disk ∧
            (readText tools file.path settings.encoding).Returns start text stop ∧
              file = SourceFile.ofPath file.path text := by
  rw [loadProject, returns_bind] at h
  obtain ⟨paths, middle, hpaths, h⟩ := h
  have hdisk := hpaths.disk_eq (keepsDisk_discover _ _)
  obtain ⟨hsublist, hread⟩ := returns_loadAll h
  rw [hdisk] at hread
  obtain ⟨keeps, excludes, _, _, -, -, rfl⟩ := returns_discover hpaths
  refine ⟨(Selection.nodup_paths tree _).sublist hsublist, ?_⟩
  intro file hfile
  obtain ⟨hanchor, htakes, hget⟩ :=
    Selection.mem_paths tree (hsublist.subset (List.mem_map_of_mem hfile))
  refine ⟨hanchor, hget, ?_, hread file hfile⟩
  simp only [Selection.takes, Bool.and_eq_true] at htakes
  have hsuffix : file.path.suffix = (Location.toPath file.path.names).suffix := rfl
  rw [hsuffix]
  exact htakes.2

theorem namesFile_of_returns_loadProject {settings : Settings} {files : List SourceFile}
    {before after : Workspace} (tree : before.disk.IsTree)
    (h : (loadProject tools settings).Returns before files after) {file : SourceFile}
    (hfile : file ∈ files) : before.disk.NamesFile file.path := by
  obtain ⟨hanchor, hget, -⟩ := (returns_loadProject tree h).2 file hfile
  exact ⟨hanchor, hget⟩

/-- Files that are loaded in `latin1` are stored with their contents, at distinct paths,
under suffixes of the language. -/
theorem stores_of_returns_loadProject {settings : Settings} {files : List SourceFile}
    {before after : Workspace} (tree : before.disk.IsTree)
    (hencoding : tools.codec? settings.encoding = some Encoding.latin1.codec)
    (h : (loadProject tools settings).Returns before files after) :
    (files.map (·.path)).Nodup ∧ ∀ file ∈ files,
      before.disk.Stores file.path file.contents ∧
        (languageFor? (Text.lower file.path.suffix)).isSome = true := by
  obtain ⟨hnodup, hloaded⟩ := returns_loadProject tree h
  refine ⟨hnodup, fun file hfile => ?_⟩
  obtain ⟨hanchor, ⟨bytes, hget⟩, hsuffix, text, start, stop, hdisk, hread, hfileEq⟩ :=
    hloaded file hfile
  obtain ⟨found, hfound, hdecode⟩ := returns_readText hencoding hread
  have hbytes : before.disk.read file.path = .ok bytes := by
    have hpath : file.path = ⟨[], file.path.names⟩ := by rw [← hanchor]
    rw [hpath]
    exact tree.read_file hget
  rw [hdisk, hbytes, Except.ok.injEq] at hfound
  have hcontents : file.contents = text := congrArg SourceFile.contents hfileEq
  rw [← hfound, ← hcontents] at hdecode
  exact ⟨⟨hanchor, bytes, hget, hdecode⟩, hsuffix⟩

end Job

/-! ## Renaming -/

theorem Disk.IsPlace.withName {disk : Disk} {path : Path} {name : Text}
    (h : disk.IsPlace path.names) (hname : Disk.IsEntryName name) :
    disk.IsPlace (path.withName name).names := by
  have hnames : (path.withName name).names = path.names.dropLast ++ [name] := rfl
  rw [hnames]
  refine ⟨?_, by rw [List.dropLast_concat, h.inDirectory]⟩
  intro other hother
  rcases List.mem_append.mp hother with hother | hother
  · exact h.names other (List.dropLast_subset _ hother)
  · rwa [List.mem_singleton.mp hother]

/-- A file of the language has a suffix that is more than a dot. -/
theorem suffix_of_language {path : Path}
    (h : (languageFor? (Text.lower path.suffix)).isSome = true) : 2 ≤ path.suffix.length := by
  rw [Path.suffix, Path.splitSuffix] at h ⊢
  split
  · rename_i hnone
    rw [if_pos hnone] at h
    have hempty : (languageFor? (Text.lower [])).isSome = false := by decide
    exact absurd (hempty ▸ h) Bool.false_ne_true
  · rename_i hsplit
    simp only [Bool.or_eq_true, List.isEmpty_iff, decide_eq_true_eq, not_or] at hsplit
    have hpositive := List.length_pos_iff.mpr hsplit.1.1
    simp only [List.length_cons]
    omega

/-- The plans for files at distinct paths are for distinct paths. -/
theorem FileRename.nodup_plan {files : List SourceFile} (hpaths : (files.map (·.path)).Nodup) :
    ((plan files).map (·.oldPath)).Nodup := by
  rw [plan, List.Nodup, List.pairwise_map, List.pairwise_filterMap]
  rw [List.Nodup, List.pairwise_map] at hpaths
  refine hpaths.imp fun hne planA hA planB hB => ?_
  rwa [oldPath_of_ofPath? hA, oldPath_of_ofPath? hB]

/-- The plan for a file of the language gives it a name next to its old one. -/
theorem FileRename.sibling_of_ofPath? {path : Path} {plan : FileRename}
    (h : ofPath? path = some plan)
    (hsuffix : (languageFor? (Text.lower path.suffix)).isSome = true) :
    plan.oldPath = path ∧ ∃ name, plan.newPath = path.withName name ∧ Disk.IsEntryName name := by
  obtain ⟨-, hnil, rfl⟩ := ofPath?_eq_some_iff.mp h
  refine ⟨rfl, _, rfl, ?_⟩
  -- The new name is longer than the names that no entry can have.
  have hlength : 3 ≤ (pascalCase path.stem ++ path.suffix).length := by
    have hstem := List.length_pos_iff.mpr hnil
    have := suffix_of_language hsuffix
    rw [List.length_append]
    omega
  constructor
  · rw [Path.isName, Bool.and_eq_true, bne_iff_ne, bne_iff_ne]
    constructor
    · intro heq
      rw [heq] at hlength
      simp at hlength
    · intro heq
      rw [heq] at hlength
      simp at hlength
  · intro heq
    rw [heq] at hlength
    exact absurd hlength (by decide)

namespace Registry

theorem updateLast_eq_map {registry : Registry} (hkeys : (registry.map (·.1)).Nodup) (path : Path)
    (change : SourceFile → SourceFile) :
    updateLast path change registry =
      registry.map fun entry => if entry.1 = path then (entry.1, change entry.2) else entry := by
  induction registry with
  | nil => rfl
  | cons entry rest ih =>
    obtain ⟨other, file⟩ := entry
    rw [List.map_cons, List.nodup_cons] at hkeys
    rw [updateLast, List.map_cons]
    by_cases hother : other = path
    · have hlast : ∀ entry ∈ rest, entry.1 ≠ path := by
        intro entry hentry heq
        apply hkeys.1
        rw [hother, ← heq]
        exact List.mem_map.mpr ⟨entry, hentry, rfl⟩
      have hrest : rest.map (fun entry =>
          if entry.1 = path then (entry.1, change entry.2) else entry) = rest := by
        rw [List.map_congr_left fun entry hentry => if_neg (hlast entry hentry), List.map_id']
      rw [if_pos ⟨hother, by simpa using hlast⟩, hrest, if_pos hother]
    · rw [if_neg fun h => hother h.1, ih hkeys.2, if_neg hother]

theorem keys_renamed (registry : Registry) (plan : FileRename) :
    (registry.renamed plan).map (·.1) = registry.map (·.1) := by
  rw [Registry.renamed]
  induction registry with
  | nil => rfl
  | cons entry rest ih =>
    obtain ⟨other, file⟩ := entry
    rw [updateLast]
    split
    · rfl
    · rw [List.map_cons, ih, List.map_cons]

/-- A change of one file that keeps some part of it keeps that part of all. -/
theorem map_files_updateLast {α : Type} {part : SourceFile → α}
    {change : SourceFile → SourceFile} (hchange : ∀ file, part (change file) = part file)
    (path : Path) (registry : Registry) :
    (updateLast path change registry).files.map part = registry.files.map part := by
  induction registry with
  | nil => rfl
  | cons entry rest ih =>
    obtain ⟨other, file⟩ := entry
    rw [updateLast]
    split
    · simp [files, hchange]
    · simpa [files] using ih

end Registry

theorem carryOut_cons (plan : FileRename) (plans : List FileRename) (registry : Registry)
    (before : Workspace) :
    (carryOut (plan :: plans) registry).run before =
      match (Job.renameFile plan).outcome before with
      | (.error failure, after) => (⟨registry.files, [], some failure⟩, after)
      | (.ok false, after) => (carryOut plans registry).run after
      | (.ok true, after) =>
        let (run, last) := (carryOut plans (registry.renamed plan)).run after
        ({ run with done := plan :: run.done }, last) := by
  rw [carryOut, StateT.run_bind]
  unfold Job.outcome
  rcases (Job.renameFile plan).run.run before with ⟨_ | _ | _, _⟩ <;> rfl

theorem run_renameFiles (files : List SourceFile) (before : Workspace) :
    (renameFiles files).run before =
      match (carryOut (FileRename.plan files) (Registry.ofFiles files)).run before with
      | (run, after) =>
        match run.failure with
        | some _ => (run, after)
        | none =>
          match carryIntoContents run.done run.files with
          | .ok files => ({ run with files }, after)
          | .error fault => ({ run with failure := some (.template fault) }, after) := by
  rw [renameFiles, StateT.run_bind]
  rcases (carryOut (FileRename.plan files) (Registry.ofFiles files)).run before with ⟨run, after⟩
  change StateT.run (match run.failure with
    | some _ => pure run
    | none =>
      match carryIntoContents run.done run.files with
      | .ok files => pure { run with files }
      | .error fault => pure { run with failure := some (.template fault) }) after = _
  dsimp only
  cases run.failure with
  | some failure => rfl
  | none => cases carryIntoContents run.done run.files <;> rfl

end Namespacer
