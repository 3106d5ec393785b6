import Namespacer.Autoload
import Namespacer.Proofs.DiskTree
import Namespacer.Proofs.PathNames

/-!
# Finding files by an autoload map

An autoload map is read backwards: from the qualified name of a type, a prefix is taken
off and the rest, as a path below the directory of the prefix, is where the type is
declared. Namespaces are given file by file and prefixes directory by directory, so that
the two have to meet.

* `SourceFile.qualifiedName_of_assigned`: the qualified name of a file is the root prefix
  and the names on its path.
* `AutoloadMap.mem_ofPaths?`, `AutoloadMap.sorted_ofPaths?`: a map holds the entries that
  cover its paths, each once and in the order of their prefixes.
* `AutoloadMap.finds_ofPaths?`: every prefix of the map that fits the name of a file leads
  to that file, and one does.
-/

namespace Namespacer

/-! ## The order of texts -/

namespace Text

theorem le_total (a b : Text) : le a b = true ∨ le b a = true := by
  induction a generalizing b with
  | nil => exact .inl rfl
  | cons c a ih =>
    cases b with
    | nil => exact .inr rfl
    | cons d b =>
      rw [le, le]
      by_cases h : c = d
      · simpa [h] using ih b
      · have hne : c.toNat ≠ d.toNat := fun heq => h (Char.toNat_inj.mp heq)
        simp only [h, Ne.symm h, if_false, decide_eq_true_eq]
        omega

theorem le_antisymm {a b : Text} (hab : le a b = true) (hba : le b a = true) : a = b := by
  induction a generalizing b with
  | nil =>
    cases b with
    | nil => rfl
    | cons d b => cases hba
  | cons c a ih =>
    cases b with
    | nil => cases hab
    | cons d b =>
      rw [le] at hab hba
      by_cases h : c = d
      · subst h
        rw [if_pos rfl] at hab hba
        rw [ih hab hba]
      · simp only [h, Ne.symm h, if_false, decide_eq_true_eq] at hab hba
        omega

theorem le_trans {a b c : Text} (hab : le a b = true) (hbc : le b c = true) : le a c = true := by
  induction a generalizing b c with
  | nil => rfl
  | cons x a ih =>
    cases b with
    | nil => cases hab
    | cons y b =>
      cases c with
      | nil => cases hbc
      | cons z c =>
        rw [le] at hab hbc ⊢
        by_cases hxy : x = y
        · subst hxy
          rw [if_pos rfl] at hab
          by_cases hxz : x = z
          · rw [if_pos hxz] at hbc ⊢
            exact ih hab hbc
          · rwa [if_neg hxz] at hbc ⊢
        · rw [if_neg hxy, decide_eq_true_eq] at hab
          by_cases hyz : y = z
          · subst hyz
            rw [if_neg hxy, decide_eq_true_eq]
            exact hab
          · rw [if_neg hyz, decide_eq_true_eq] at hbc
            have hxz : x ≠ z := by
              rintro rfl
              omega
            rw [if_neg hxz, decide_eq_true_eq]
            omega

/-! ## Joining and splitting -/

theorem join_cons (separator piece : Text) (pieces : List Text) :
    join separator (piece :: pieces) = piece ++ pieces.flatMap (separator ++ ·) := by
  induction pieces generalizing piece with
  | nil => simp [join]
  | cons next pieces ih =>
    rw [join]
    · rw [ih, List.flatMap_cons]
      simp
    · simp

theorem join_cons_of_ne_nil {pieces : List Text} (h : pieces ≠ []) (separator piece : Text) :
    join separator (piece :: pieces) = piece ++ separator ++ join separator pieces := by
  obtain ⟨next, pieces, rfl⟩ := List.exists_cons_of_ne_nil h
  rfl

theorem join_append {separator : Text} {first : List Text} (h : first ≠ []) (second : List Text) :
    join separator (first ++ second) = join separator first ++ second.flatMap (separator ++ ·) := by
  obtain ⟨piece, first, rfl⟩ := List.exists_cons_of_ne_nil h
  rw [List.cons_append, join_cons, join_cons, List.flatMap_append, List.append_assoc]

theorem splitOn_ne_nil (separator : Char) (text : Text) : splitOn separator text ≠ [] := by
  cases text with
  | nil => simp [splitOn]
  | cons c text =>
    rw [splitOn]
    split
    · simp
    · split <;> simp

theorem join_splitOn (separator : Char) (text : Text) :
    join [separator] (splitOn separator text) = text := by
  induction text with
  | nil => rfl
  | cons c text ih =>
    rw [splitOn]
    split
    · rename_i hc
      obtain ⟨piece, pieces, hpieces⟩ := List.exists_cons_of_ne_nil (splitOn_ne_nil separator text)
      rw [hpieces] at ih ⊢
      rw [join_cons] at ih ⊢
      simp [← ih, hc]
    · split
      · rename_i hnone
        exact absurd hnone (splitOn_ne_nil separator text)
      · rename_i piece pieces hpieces
        rw [hpieces, join_cons] at ih
        rw [join_cons, List.cons_append, ih]

theorem filter_of_nil_not_mem {pieces : List Text} (h : [] ∉ pieces) :
    pieces.filter (!·.isEmpty) = pieces := by
  rw [List.filter_eq_self]
  intro piece hpiece
  rw [Bool.not_eq_true', List.isEmpty_eq_false_iff]
  rintro rfl
  exact h hpiece

/-- What is before and after the first separator is determined by the text. -/
theorem eq_of_append_cons {c : Char} {a b r s : Text} (ha : c ∉ a) (hb : c ∉ b)
    (h : a ++ c :: r = b ++ c :: s) : a = b ∧ r = s := by
  induction a generalizing b with
  | nil =>
    cases b with
    | nil => simpa using h
    | cons d b =>
      rw [List.nil_append, List.cons_append, List.cons.injEq] at h
      exact absurd (h.1 ▸ List.mem_cons_self) hb
  | cons d a ih =>
    cases b with
    | nil =>
      rw [List.nil_append, List.cons_append, List.cons.injEq] at h
      exact absurd (h.1 ▸ List.mem_cons_self) ha
    | cons e b =>
      rw [List.cons_append, List.cons_append, List.cons.injEq] at h
      obtain ⟨rfl, h⟩ := h
      rw [List.mem_cons, not_or] at ha hb
      obtain ⟨rfl, rfl⟩ := ih ha.2 hb.2 h
      exact ⟨rfl, rfl⟩

end Text

/-- A text with slashes in the place of namespace separators. -/
def slashed (text : Text) : Text := text.map fun c => if c = namespaceSeparator then '/' else c

theorem slashed_of_not_mem {text : Text} (h : namespaceSeparator ∉ text) : slashed text = text := by
  have hsame : ∀ c ∈ text, (if c = namespaceSeparator then '/' else c) = id c := by
    intro c hc
    refine if_neg ?_
    rintro rfl
    exact h hc
  rw [slashed, List.map_congr_left hsame, List.map_id]

theorem slashed_join {names : List Text} (h : ∀ name ∈ names, namespaceSeparator ∉ name) :
    slashed (Text.join [namespaceSeparator] names) = Text.join ['/'] names := by
  cases names with
  | nil => rfl
  | cons name names =>
    rw [List.forall_mem_cons] at h
    have hrest : ∀ other ∈ names, slashed ([namespaceSeparator] ++ other) = ['/'] ++ other := by
      intro other hother
      rw [slashed, List.map_append, ← slashed, ← slashed, slashed_of_not_mem (h.2 other hother)]
      rfl
    rw [Text.join_cons, Text.join_cons, slashed, List.map_append, ← slashed, slashed_of_not_mem h.1,
      List.map_flatMap]
    exact congrArg (name ++ ·) (List.flatMap_congr hrest)

/-! ## Paths and qualified names -/

/-- Whether a path is relative and in its normal form, with at least one name. -/
structure Path.IsRelative (path : Path) : Prop where
  relative : path.anchor = []
  ne_nil : path.names ≠ []
  isName : ∀ name ∈ path.names, Path.isName name = true

instance (path : Path) : Decidable path.IsRelative :=
  decidable_of_iff
    (path.anchor = [] ∧ path.names ≠ [] ∧ ∀ name ∈ path.names, Path.isName name = true)
    ⟨fun h => ⟨h.1, h.2.1, h.2.2⟩, fun h => ⟨h.1, h.2, h.3⟩⟩

theorem Path.IsRelative.filter_parts_parent {path : Path} (h : path.IsRelative) :
    path.parent.parts.filter Path.isName = path.names.dropLast := by
  have hparts : path.parent.parts = path.names.dropLast := by
    simp [Path.parts, Path.parent, h.relative]
  rw [hparts, List.filter_eq_self]
  exact fun name hname => h.isName name (List.dropLast_subset _ hname)

/-- Whether a path is relative and in its normal form, with at least one name and no
namespace separator in any. -/
structure Path.IsPlain (path : Path) : Prop where
  relative : path.anchor = []
  ne_nil : path.names ≠ []
  isName : ∀ name ∈ path.names, Path.isName name = true
  not_separated : ∀ name ∈ path.names, namespaceSeparator ∉ name

instance (path : Path) : Decidable path.IsPlain :=
  decidable_of_iff
    (path.anchor = [] ∧ path.names ≠ [] ∧ (∀ name ∈ path.names, Path.isName name = true) ∧
      ∀ name ∈ path.names, namespaceSeparator ∉ name)
    ⟨fun h => ⟨h.1, h.2.1, h.2.2.1, h.2.2.2⟩, fun h => ⟨h.1, h.2, h.3, h.4⟩⟩

namespace Path.IsPlain

variable {path : Path} (h : path.IsPlain)
include h

theorem isRelative : path.IsRelative := ⟨h.relative, h.ne_nil, h.isName⟩

theorem names_eq : path.names = path.names.dropLast ++ [path.stem ++ path.suffix] := by
  rw [path.stem_append_suffix, Path.name, List.getLastD_eq_getLast?,
    List.getLast?_eq_some_getLast h.ne_nil]
  exact (List.dropLast_concat_getLast h.ne_nil).symm

theorem stem_not_separated : namespaceSeparator ∉ path.stem := by
  intro hmem
  refine h.not_separated (path.stem ++ path.suffix) ?_ (List.mem_append_left _ hmem)
  rw [h.names_eq]
  simp

theorem directory_not_separated : ∀ name ∈ path.names.dropLast, namespaceSeparator ∉ name :=
  fun name hname => h.not_separated name (List.dropLast_subset _ hname)

/-- The text of a path joins the names of its directories, its stem and its suffix. -/
theorem toText_eq :
    path.toText = Text.join ['/'] (path.names.dropLast ++ [path.stem]) ++ path.suffix := by
  have htext : path.toText = Text.join ['/'] path.names := by
    have hne := h.ne_nil
    rw [Path.toText, h.relative]
    cases hnames : path.names with
    | nil => exact absurd hnames hne
    | cons name names => rfl
  have hnames := h.names_eq
  generalize path.names.dropLast = directories at hnames ⊢
  rw [htext, hnames]
  cases directories with
  | nil => rfl
  | cons directory directories => simp [Text.join_cons]

end Path.IsPlain

/-- The namespace of a path under a root namespace without empty segments. -/
theorem namespaceFor_eq {path : Path} {root : Text} (h : path.IsRelative)
    (hroot : [] ∉ Text.splitOn namespaceSeparator (normalizeNamespace root)) :
    namespaceFor path root = normalizeNamespace root ++
      path.names.dropLast.flatMap ([namespaceSeparator] ++ ·) := by
  rw [namespaceFor, Text.filter_of_nil_not_mem hroot, h.filter_parts_parent,
    Text.join_append (Text.splitOn_ne_nil _ _),
    Text.join_splitOn]

/-- The qualified name of a file in its namespace is the root prefix and the names on its
path. -/
theorem SourceFile.qualifiedName_of_assigned {file : SourceFile} {root : Text}
    (h : file.path.IsPlain) (htype : file.typeName = file.path.stem)
    (hroot : [] ∉ Text.splitOn namespaceSeparator (normalizeNamespace root)) :
    { file with namespaceName := some (namespaceFor file.path root) }.qualifiedName =
      AutoloadMap.rootPrefix root ++
        Text.join [namespaceSeparator] (file.path.names.dropLast ++ [file.path.stem]) := by
  have hne : normalizeNamespace root ≠ [] := by
    intro hnil
    rw [hnil] at hroot
    exact hroot (List.mem_singleton.mpr rfl)
  have hproper : (some (namespaceFor file.path root)).filter (!·.isEmpty) =
      some (namespaceFor file.path root) := by
    rw [Option.filter_some, if_pos]
    rw [Bool.not_eq_true', List.isEmpty_eq_false_iff, namespaceFor_eq h.isRelative hroot]
    exact List.append_ne_nil_of_left_ne_nil hne _
  rw [SourceFile.qualifiedName, SourceFile.properNamespace?, hproper, htype]
  change namespaceFor file.path root ++ namespaceSeparator :: file.path.stem = _
  rw [namespaceFor_eq h.isRelative hroot, AutoloadMap.rootPrefix]
  cases file.path.names.dropLast with
  | nil => simp [Text.join]
  | cons directory directories => simp [Text.join_cons]

/-! ## Entries of a map -/

namespace AutoloadMap

/-- What covers a path: the root prefix, or that of its first directory. -/
theorem covering?_of_isRelative {path : Path} (h : path.IsRelative) (root : Text) :
    covering? root path = some (match path.names.dropLast with
      | [] => (rootPrefix root, [])
      | directory :: _ =>
        (rootPrefix root ++ directory ++ [namespaceSeparator], directory ++ ['/'])) := by
  have hparts : path.parts = path.names := by simp [Path.parts, h.relative]
  rw [covering?, hparts]
  match hnames : path.names with
  | [] => exact absurd hnames h.ne_nil
  | [_] => rfl
  | _ :: _ :: _ => rfl

theorem covering?_of_isPlain {path : Path} (h : path.IsPlain) (root : Text) :
    covering? root path = some (match path.names.dropLast with
      | [] => (rootPrefix root, [])
      | directory :: _ =>
        (rootPrefix root ++ directory ++ [namespaceSeparator], directory ++ ['/'])) :=
  covering?_of_isRelative h.isRelative root

/-- Prefixes determine their directories. -/
theorem covering?_inj {root : Text} {path other : Path} {a b : Text × Text}
    (ha : covering? root path = some a) (hb : covering? root other = some b) (h : a.1 = b.1) :
    a = b := by
  have hlonger (directory : Text) :
      rootPrefix root ≠ rootPrefix root ++ directory ++ [namespaceSeparator] := by
    intro heq
    have hlength := congrArg List.length heq
    rw [List.length_append, List.length_append, List.length_singleton] at hlength
    omega
  rw [covering?] at ha hb
  split at ha
  · cases ha
  · cases ha
    split at hb
    · cases hb
    · cases hb
      rfl
    · cases hb
      exact absurd h (hlonger _)
  · cases ha
    split at hb
    · cases hb
    · cases hb
      exact absurd h.symm (hlonger _)
    · cases hb
      rw [List.append_left_inj, List.append_right_inj] at h
      rw [h]

/-- Whether a map is in the strict order of its prefixes. -/
def IsSorted (map : AutoloadMap) : Prop :=
  List.Pairwise (fun a b => Text.le a.1 b.1 = true ∧ a.1 ≠ b.1) map

theorem IsSorted.nodup {map : AutoloadMap} (h : map.IsSorted) : (map.map (·.1)).Nodup := by
  rw [List.Nodup, List.pairwise_map]
  exact h.imp And.right

/-- A sorted map is determined by its entries. -/
theorem IsSorted.eq_of_mem_iff {map other : AutoloadMap} (h : map.IsSorted)
    (hother : other.IsSorted) (hmem : ∀ entry, entry ∈ map ↔ entry ∈ other) : map = other := by
  refine List.Perm.eq_of_pairwise ?_ h hother ?_
  · intro a b _ _ hab hba
    exact absurd (Text.le_antisymm hab.1 hba.1) hab.2
  · exact (List.perm_ext_iff_of_nodup h.nodup.of_map hother.nodup.of_map).mpr hmem

theorem IsSorted.insertSorted {map : AutoloadMap} (h : map.IsSorted) {entry : Text × Text}
    (hnew : ∀ known ∈ map, known.1 ≠ entry.1) :
    IsSorted (insertSorted (fun a b => Text.le a.1 b.1) entry map) := by
  induction map with
  | nil => exact List.pairwise_singleton _ _
  | cons first rest ih =>
    rw [List.forall_mem_cons] at hnew
    obtain ⟨hfirst, hrest⟩ := List.pairwise_cons.mp h
    rw [Namespacer.insertSorted]
    split
    · rename_i hle
      refine List.pairwise_cons.mpr ⟨fun other hother => ?_, h⟩
      rcases List.mem_cons.mp hother with rfl | hother
      · exact ⟨hle, Ne.symm hnew.1⟩
      · exact ⟨Text.le_trans hle (hfirst other hother).1, Ne.symm (hnew.2 other hother)⟩
    · rename_i hle
      refine List.pairwise_cons.mpr ⟨fun other hother => ?_, ih hrest hnew.2⟩
      rcases List.mem_cons.mp ((insertSorted_perm _ _ _).mem_iff.mp hother) with rfl | hother
      · exact ⟨(Text.le_total _ _).resolve_left hle, hnew.1⟩
      · exact hfirst other hother

theorem IsSorted.insert {map : AutoloadMap} (h : map.IsSorted) (entry : Text × Text) :
    (insert entry map).IsSorted := by
  rw [AutoloadMap.insert]
  split
  · exact h
  · rename_i hnew
    simp only [List.any_eq_true, beq_iff_eq, not_exists, not_and] at hnew
    exact h.insertSorted hnew

theorem mem_insert {map : AutoloadMap} {entry other : Text × Text}
    (h : ∀ known ∈ map, known.1 = entry.1 → known = entry) :
    other ∈ insert entry map ↔ other = entry ∨ other ∈ map := by
  rw [insert]
  split
  · rename_i hknown
    simp only [List.any_eq_true, beq_iff_eq] at hknown
    obtain ⟨known, hmem, hprefix⟩ := hknown
    rw [h known hmem hprefix] at hmem
    constructor
    · exact .inr
    · rintro (rfl | hother)
      · exact hmem
      · exact hother
  · rw [(insertSorted_perm _ _ _).mem_iff, List.mem_cons]

/-! ## The map of some paths -/

theorem ofPaths?_cons {root : Text} {path : Path} {paths : List Path} {map : AutoloadMap} :
    ofPaths? root (path :: paths) = some map ↔ ∃ entry rest, covering? root path = some entry ∧
      ofPaths? root paths = some rest ∧ insert entry rest = map := by
  rw [ofPaths?, ofPaths?, List.mapM_cons]
  cases covering? root path with
  | none => simp
  | some entry =>
    cases paths.mapM (covering? root) with
    | none => simp
    | some entries => simp

/-- A map holds the entries that cover its paths. -/
theorem mem_ofPaths? {root : Text} {paths : List Path} {map : AutoloadMap}
    (h : ofPaths? root paths = some map) {entry : Text × Text} :
    entry ∈ map ↔ ∃ path ∈ paths, covering? root path = some entry := by
  induction paths generalizing map entry with
  | nil =>
    cases h
    simp
  | cons path paths ih =>
    obtain ⟨first, rest, hfirst, hrest, rfl⟩ := ofPaths?_cons.mp h
    have hknown : ∀ known ∈ rest, known.1 = first.1 → known = first := by
      intro known hknown hprefix
      obtain ⟨other, -, hother⟩ := (ih hrest).mp hknown
      exact covering?_inj hother hfirst hprefix
    rw [mem_insert hknown, ih hrest, List.exists_mem_cons_iff, hfirst, Option.some.injEq, eq_comm]

/-- A map is sorted, with each prefix once. -/
theorem sorted_ofPaths? {root : Text} {paths : List Path} {map : AutoloadMap}
    (h : ofPaths? root paths = some map) : map.IsSorted := by
  induction paths generalizing map with
  | nil =>
    cases h
    exact List.Pairwise.nil
  | cons path paths ih =>
    obtain ⟨first, rest, -, hrest, rfl⟩ := ofPaths?_cons.mp h
    exact (ih hrest).insert first

/-- Relative paths have a map. -/
theorem exists_ofPaths?_of_isRelative {paths : List Path} (root : Text)
    (h : ∀ path ∈ paths, path.IsRelative) : ∃ map, ofPaths? root paths = some map := by
  induction paths with
  | nil => exact ⟨[], rfl⟩
  | cons path paths ih =>
    rw [List.forall_mem_cons] at h
    obtain ⟨rest, hrest⟩ := ih h.2
    exact ⟨_, ofPaths?_cons.mpr ⟨_, rest, covering?_of_isRelative h.1 root, hrest, rfl⟩⟩

theorem exists_ofPaths? {paths : List Path} (root : Text) (h : ∀ path ∈ paths, path.IsPlain) :
    ∃ map, ofPaths? root paths = some map :=
  exists_ofPaths?_of_isRelative root fun path hpath => (h path hpath).isRelative

/-- The prefix that covers a path begins the qualified name of its file. -/
theorem prefix_of_covering? {root : Text} {path : Path} {entry : Text × Text} (h : path.IsPlain)
    (hentry : covering? root path = some entry) :
    entry.1 <+: rootPrefix root ++
      Text.join [namespaceSeparator] (path.names.dropLast ++ [path.stem]) := by
  rw [covering?_of_isPlain h, Option.some.injEq] at hentry
  split at hentry
  · subst hentry
    exact List.prefix_append _ _
  · rename_i directory directories hdirectory
    subst hentry
    rw [hdirectory, List.cons_append, Text.join_cons_of_ne_nil (by simp)]
    exact ⟨Text.join [namespaceSeparator] (directories ++ [path.stem]), by simp⟩

/-- A prefix that fits the qualified name of a file leads to its path. -/
theorem toText_of_covering? {root : Text} {path other : Path} {entry : Text × Text} {rest : Text}
    (h : path.IsPlain) (hother : other.IsPlain) (hentry : covering? root other = some entry)
    (hrest : rootPrefix root ++
        Text.join [namespaceSeparator] (path.names.dropLast ++ [path.stem]) =
      entry.1 ++ rest) : entry.2 ++ slashed rest ++ path.suffix = path.toText := by
  have hnames : ∀ name ∈ path.names.dropLast ++ [path.stem], namespaceSeparator ∉ name := by
    intro name hname
    rcases List.mem_append.mp hname with hname | hname
    · exact h.directory_not_separated name hname
    · rw [List.mem_singleton.mp hname]
      exact h.stem_not_separated
  rw [h.toText_eq]
  rw [covering?_of_isPlain hother, Option.some.injEq] at hentry
  split at hentry
  · subst hentry
    rw [← List.append_cancel_left hrest, slashed_join hnames]
    rfl
  · rename_i directory directories hdirectory
    subst hentry
    have hnot : namespaceSeparator ∉ directory :=
      hother.directory_not_separated directory (by simp [hdirectory])
    rw [List.append_assoc, List.append_assoc] at hrest
    have hrest := List.append_cancel_left hrest
    -- The directory of the prefix has to be the first name on the path.
    generalize path.names.dropLast = names at hnames hrest ⊢
    cases names with
    | nil =>
      have hstem := hnames path.stem (by simp)
      rw [show Text.join [namespaceSeparator] ([] ++ [path.stem]) = path.stem from rfl] at hrest
      exact absurd (by simp [hrest]) hstem
    | cons first names =>
      have hfirst := hnames first (by simp)
      rw [List.cons_append, Text.join_cons_of_ne_nil (by simp), List.append_assoc,
        List.singleton_append, List.singleton_append] at hrest
      obtain ⟨rfl, rfl⟩ := Text.eq_of_append_cons hfirst hnot hrest
      rw [List.cons_append, List.forall_mem_cons] at hnames
      rw [slashed_join hnames.2, List.cons_append, Text.join_cons_of_ne_nil (by simp)]

/-- The map finds every class file. Some prefix of the map begins its qualified name, and
each that does leads to its path. The map has each prefix once, is the same in whatever
order the files come, and every entry covers one of them. -/
theorem finds_ofPaths? {root : Text} {files : List SourceFile}
    (hroot : [] ∉ Text.splitOn namespaceSeparator (normalizeNamespace root))
    (hfiles : ∀ file ∈ files, file.path.IsPlain ∧ file.typeName = file.path.stem) :
    ∃ map, ofPaths? root (files.map (·.path)) = some map ∧ (map.map (·.1)).Nodup ∧
      (∀ file ∈ assignNamespaces files root, file.path.suffix = ".php".toList →
        (∃ entry ∈ map, entry.1 <+: file.qualifiedName) ∧
          ∀ entry ∈ map, ∀ rest, file.qualifiedName = entry.1 ++ rest →
            entry.2 ++ slashed rest ++ ".php".toList = file.path.toText) ∧
      (∀ others : List SourceFile, others.Perm files →
        ofPaths? root (others.map (·.path)) = some map) ∧
      ∀ entry ∈ map, ∃ file ∈ files, covering? root file.path = some entry := by
  have hplain : ∀ path ∈ files.map (·.path), path.IsPlain := by
    intro path hpath
    obtain ⟨file, hfile, rfl⟩ := List.mem_map.mp hpath
    exact (hfiles file hfile).1
  obtain ⟨map, hmap⟩ := exists_ofPaths? root hplain
  refine ⟨map, hmap, (sorted_ofPaths? hmap).nodup, ?_, ?_, ?_⟩
  · intro assigned hassigned hsuffix
    obtain ⟨file, hfile, rfl⟩ := List.mem_map.mp hassigned
    obtain ⟨hpath, htype⟩ := hfiles file hfile
    rw [SourceFile.qualifiedName_of_assigned hpath htype hroot]
    constructor
    · have hcovers := covering?_of_isPlain hpath root
      exact ⟨_, (mem_ofPaths? hmap).mpr ⟨file.path, List.mem_map_of_mem hfile, hcovers⟩,
        prefix_of_covering? hpath hcovers⟩
    · intro entry hentry rest hrest
      obtain ⟨other, hother, hcovers⟩ := (mem_ofPaths? hmap).mp hentry
      rw [← hsuffix]
      exact toText_of_covering? hpath (hplain other hother) hcovers hrest
  · intro others hperm
    have hpaths := hperm.map (·.path)
    obtain ⟨found, hfound⟩ := exists_ofPaths? root fun path hpath =>
      hplain path (hpaths.mem_iff.mp hpath)
    rw [hfound, (sorted_ofPaths? hfound).eq_of_mem_iff (sorted_ofPaths? hmap)]
    intro entry
    simp only [mem_ofPaths? hfound, mem_ofPaths? hmap, hpaths.mem_iff]
  · intro entry hentry
    obtain ⟨path, hpath, hcovers⟩ := (mem_ofPaths? hmap).mp hentry
    obtain ⟨file, hfile, rfl⟩ := List.mem_map.mp hpath
    exact ⟨file, hfile, hcovers⟩

/-- Files at two depths, next to one that lies directly in the project. -/
theorem finds_ofPaths?_nested :
    let files := ["Run.php", "Http/Api/Row.php", "Http/page.phtml"].map fun text =>
      SourceFile.ofPath (Path.ofText text.toList) []
    let root := " \\Acme\\Shop\\ ".toList
    let map := [("Acme\\Shop\\".toList, []), ("Acme\\Shop\\Http\\".toList, "Http/".toList)]
    [] ∉ Text.splitOn namespaceSeparator (normalizeNamespace root) ∧
      (∀ file ∈ files, file.path.IsPlain ∧ file.typeName = file.path.stem) ∧
      ofPaths? root (files.map (·.path)) = some map ∧
      ∀ file ∈ assignNamespaces files root, file.path.suffix = ".php".toList →
        (∃ entry ∈ map, entry.1 <+: file.qualifiedName) ∧
          ∀ entry ∈ map, ∀ rest, file.qualifiedName = entry.1 ++ rest →
            entry.2 ++ slashed rest ++ ".php".toList = file.path.toText := by
  intro files root map
  have hroot : [] ∉ Text.splitOn namespaceSeparator (normalizeNamespace root) := by decide
  have hfiles : ∀ file ∈ files, file.path.IsPlain ∧ file.typeName = file.path.stem := by decide
  have hmap : ofPaths? root (files.map (·.path)) = some map := by decide
  obtain ⟨found, hfound, -, hfinds, -⟩ := finds_ofPaths? hroot hfiles
  obtain rfl : map = found := Option.some.inj (hmap.symm.trans hfound)
  exact ⟨hroot, hfiles, hmap, hfinds⟩

end AutoloadMap

end Namespacer
