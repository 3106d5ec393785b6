import Mathlib.Data.List.DropRight
import Namespacer.Proofs.AutoloadLookup
import Namespacer.Proofs.IndexFreshness

/-!
# Prefixes and namespaces

The prefixes of an autoload map begin with the root namespace as it is, up to blanks and
separators at its ends. The namespaces of files begin with its segments that are not empty. So
the two fit together as long as no segment is empty, and only then: after the first empty
segment a prefix has a second separator where a namespace has the next segment.

* `Text.exists_join_filter_splitOn`: where a text and its joined segments part.
* `AutoloadMap.agrees_iff`: for which root namespaces prefixes and namespaces agree.
* `AutoloadMap.not_forall_agrees`: a usable root namespace for which they do not.
-/

namespace Namespacer

/-! ## Segments -/

namespace Text

/-- Take a text with two separators in a row and none at its ends. Without its empty segments,
another character follows the first separator of the two. -/
theorem exists_join_filter_splitOn {c : Char} {text : Text} (hhead : text.head? ≠ some c)
    (hlast : text.getLast? ≠ some c) (hne : text ≠ []) (hempty : [] ∈ splitOn c text) :
    ∃ before rest d after, text = before ++ c :: c :: rest ∧
      (splitOn c text).filter (!·.isEmpty) ≠ [] ∧
      join [c] ((splitOn c text).filter (!·.isEmpty)) = before ++ c :: d :: after ∧ d ≠ c := by
  obtain ⟨first, rest, hsplit, hfirst⟩ := List.eq_append_cons_of_mem hempty
  have htext := join_splitOn c text
  rw [hsplit] at htext
  have hfirstNil : first ≠ [] := by
    rintro rfl
    cases rest with
    | nil => exact hne htext.symm
    | cons next rest =>
      rw [List.nil_append, join_cons_of_ne_nil (by simp)] at htext
      rw [← htext] at hhead
      exact hhead rfl
  rw [join_append hfirstNil, List.flatMap_cons, List.append_nil, List.singleton_append] at htext
  -- Not all segments that follow are empty, because the text does not end in a separator.
  have hsome : ∃ segment ∈ rest, segment ≠ [] := by
    by_contra hnone
    push Not at hnone
    have hall : ∀ d ∈ c :: rest.flatMap ([c] ++ ·), d = c := by
      intro d hd
      rcases List.mem_cons.mp hd with rfl | hd
      · rfl
      · obtain ⟨segment, hsegment, hd⟩ := List.mem_flatMap.mp hd
        rw [hnone segment hsegment, List.append_nil] at hd
        exact List.mem_singleton.mp hd
    refine hlast ?_
    rw [← htext, List.getLast?_append_of_ne_nil _ (by simp),
      List.getLast?_eq_some_getLast (by simp), hall _ (List.getLast_mem _)]
  obtain ⟨segment, hsegment, hsegmentNil⟩ := hsome
  obtain ⟨next, more, hfilter⟩ : ∃ next more, rest.filter (!·.isEmpty) = next :: more := by
    refine List.exists_cons_of_ne_nil (List.ne_nil_of_mem (a := segment) ?_)
    exact List.mem_filter.mpr ⟨hsegment, by simpa using hsegmentNil⟩
  have hnext : next ∈ rest.filter (!·.isEmpty) := hfilter ▸ List.mem_cons_self
  rw [List.mem_filter, Bool.not_eq_true', List.isEmpty_eq_false_iff] at hnext
  have hplain : c ∉ next := by
    have hmem : next ∈ splitOn c text := by
      rw [hsplit]
      exact List.mem_append_right _ (List.mem_cons_of_mem _ hnext.1)
    exact not_mem_of_mem_splitOn hmem
  obtain ⟨d, tail, rfl⟩ := List.exists_cons_of_ne_nil hnext.2
  obtain ⟨last, others, hrest⟩ := List.exists_cons_of_ne_nil (List.ne_nil_of_mem hsegment)
  have hsegments : (splitOn c text).filter (!·.isEmpty) = first ++ (d :: tail) :: more := by
    rw [hsplit, List.filter_append, filter_of_nil_not_mem hfirst,
      List.filter_cons_of_neg (by simp), hfilter]
  refine ⟨join [c] first, last ++ others.flatMap ([c] ++ ·), d,
    tail ++ more.flatMap ([c] ++ ·), ?_, ?_, ?_, ?_⟩
  · rw [← htext, hrest]
    simp
  · simp [hsegments]
  · rw [hsegments, join_append hfirstNil]
    simp
  · rintro rfl
    exact hplain List.mem_cons_self

end Text

theorem head?_normalizeNamespace (root : Text) :
    (normalizeNamespace root).head? ≠ some namespaceSeparator := by
  intro hhead
  have hle : normalizeNamespace root <+:
      (Text.strip root).dropWhile (· == namespaceSeparator) := List.rdropWhile_prefix _ _
  obtain ⟨rest, hrest⟩ := hle
  obtain ⟨tail, htail⟩ := List.head?_eq_some_iff.mp hhead
  have hnot := List.head?_dropWhile_not (· == namespaceSeparator) (Text.strip root)
  rw [← hrest, htail] at hnot
  simp at hnot

theorem getLast?_normalizeNamespace (root : Text) :
    (normalizeNamespace root).getLast? ≠ some namespaceSeparator := by
  intro hlast
  have hne : normalizeNamespace root ≠ [] := by
    intro hnil
    rw [hnil] at hlast
    cases hlast
  rw [List.getLast?_eq_some_getLast hne, Option.some.injEq] at hlast
  refine List.rdropWhile_last_not (· == namespaceSeparator)
    ((Text.strip root).dropWhile (· == namespaceSeparator)) hne ?_
  exact beq_iff_eq.mpr hlast

/-! ## Agreement -/

namespace AutoloadMap

variable {root : Text} {path : Path}

/-- Whether a map and the namespaces of some paths fit together: every prefix begins the
namespace of a path, with a separator at its end, and every such namespace begins with a
prefix. -/
def Agrees (map : AutoloadMap) (root : Text) (paths : List Path) : Prop :=
  (∀ entry ∈ map, ∃ path ∈ paths, entry.1 <+: namespaceFor path root ++ [namespaceSeparator]) ∧
    ∀ path ∈ paths, ∃ entry ∈ map, entry.1 <+: namespaceFor path root ++ [namespaceSeparator]

/-- Without empty segments the prefix that covers a path begins its namespace. -/
theorem prefix_namespaceFor_of_covering? {entry : Text × Text} (h : path.IsRelative)
    (hroot : [] ∉ Text.splitOn namespaceSeparator (normalizeNamespace root))
    (hentry : covering? root path = some entry) :
    entry.1 <+: namespaceFor path root ++ [namespaceSeparator] := by
  rw [namespaceFor_eq h hroot]
  rw [covering?_of_isRelative h, Option.some.injEq] at hentry
  split at hentry
  · rename_i hdirectory
    subst hentry
    simp [hdirectory, rootPrefix]
  · rename_i directory directories hdirectory
    subst hentry
    rw [hdirectory, rootPrefix, List.flatMap_cons]
    cases directories with
    | nil => simp
    | cons next directories =>
      exact ⟨next ++ directories.flatMap ([namespaceSeparator] ++ ·) ++ [namespaceSeparator],
        by simp⟩

theorem rootPrefix_prefix_of_covering? {entry : Text × Text}
    (hentry : covering? root path = some entry) : rootPrefix root <+: entry.1 := by
  rw [covering?] at hentry
  split at hentry
  · cases hentry
  · cases hentry
    exact List.prefix_rfl
  · cases hentry
    rw [List.append_assoc]
    exact List.prefix_append _ _

/-- With an empty segment the root prefix begins no namespace. -/
theorem not_rootPrefix_isPrefix (hne : normalizeNamespace root ≠ [])
    (hroot : [] ∈ Text.splitOn namespaceSeparator (normalizeNamespace root)) (path : Path) :
    ¬ rootPrefix root <+: namespaceFor path root ++ [namespaceSeparator] := by
  obtain ⟨before, rest, d, after, htext, hsegments, hjoin, hd⟩ :=
    Text.exists_join_filter_splitOn (head?_normalizeNamespace root)
      (getLast?_normalizeNamespace root) hne hroot
  rw [namespaceFor, Text.join_append hsegments, hjoin, rootPrefix, htext]
  rintro ⟨tail, htail⟩
  simp only [List.append_assoc, List.cons_append, List.append_cancel_left_eq,
    List.cons.injEq, true_and] at htail
  exact hd htail.1.symm

/-- Relative paths have a map, and for a usable root namespace its prefixes and the namespaces
of the paths agree if no segment of the root namespace is empty, and only then. -/
theorem agrees_iff {paths : List Path} (hroot : normalizeNamespace root ≠ [])
    (hne : paths ≠ []) (hpaths : ∀ path ∈ paths, path.IsRelative) :
    ∃ map, ofPaths? root paths = some map ∧
      (map.Agrees root paths ↔
        [] ∉ Text.splitOn namespaceSeparator (normalizeNamespace root)) := by
  obtain ⟨map, hmap⟩ := exists_ofPaths?_of_isRelative root hpaths
  refine ⟨map, hmap, fun hagrees hempty => ?_, fun hsegments => ⟨?_, ?_⟩⟩
  · obtain ⟨path, hpath⟩ := List.exists_mem_of_ne_nil paths hne
    obtain ⟨entry, hentry, hle⟩ := hagrees.2 path hpath
    obtain ⟨other, -, hcovers⟩ := (mem_ofPaths? hmap).mp hentry
    refine not_rootPrefix_isPrefix hroot hempty path ?_
    exact (rootPrefix_prefix_of_covering? hcovers).trans hle
  · intro entry hentry
    obtain ⟨path, hpath, hcovers⟩ := (mem_ofPaths? hmap).mp hentry
    exact ⟨path, hpath, prefix_namespaceFor_of_covering? (hpaths path hpath) hsegments hcovers⟩
  · intro path hpath
    have hcovers := covering?_of_isRelative (hpaths path hpath) root
    exact ⟨_, (mem_ofPaths? hmap).mpr ⟨path, hpath, hcovers⟩,
      prefix_namespaceFor_of_covering? (hpaths path hpath) hsegments hcovers⟩

/-- Files at two depths, next to one that lies directly in the project. -/
theorem agrees_iff_nested :
    let paths := ["Run.php", "Http/Api/Row.php", "Http/page.phtml"].map fun text =>
      Path.ofText text.toList
    let root := "\\ Acme\\Shop\\".toList
    let map := [(" Acme\\Shop\\".toList, []), (" Acme\\Shop\\Http\\".toList, "Http/".toList)]
    normalizeNamespace root ≠ [] ∧ paths ≠ [] ∧ (∀ path ∈ paths, path.IsRelative) ∧
      [] ∉ Text.splitOn namespaceSeparator (normalizeNamespace root) ∧
      ofPaths? root paths = some map ∧ AutoloadMap.Agrees map root paths := by
  intro paths root map
  have hroot : normalizeNamespace root ≠ [] := by decide
  have hpaths : ∀ path ∈ paths, path.IsRelative := by decide
  have hsegments : [] ∉ Text.splitOn namespaceSeparator (normalizeNamespace root) := by decide
  have hmap : ofPaths? root paths = some map := by decide
  obtain ⟨found, hfound, hagrees⟩ := agrees_iff hroot (by decide) hpaths
  obtain rfl : map = found := Option.some.inj (hmap.symm.trans hfound)
  exact ⟨hroot, by decide, hpaths, hsegments, hmap, hagrees.mpr hsegments⟩

/-- A root namespace can be usable and have an empty segment: the prefix of a file in the
project is then `A\\\\B\\`, and its namespace is `A\\B`. -/
theorem not_forall_agrees :
    ¬ ∀ (root : Text) (paths : List Path), normalizeNamespace root ≠ [] → paths ≠ [] →
      (∀ path ∈ paths, path.IsRelative) →
        ∃ map, ofPaths? root paths = some map ∧ AutoloadMap.Agrees map root paths := by
  intro h
  obtain ⟨map, hmap, hagrees⟩ := h "A\\\\B".toList [Path.ofText "Foo.php".toList] (by decide)
    (by decide) (by decide)
  obtain rfl : [("A\\\\B\\".toList, [])] = map := Option.some.inj (Eq.trans (by decide) hmap)
  have hnot : ¬ "A\\\\B\\".toList <+: "A\\B\\".toList := by decide
  obtain ⟨path, hpath, hle⟩ := hagrees.1 _ List.mem_cons_self
  rw [List.mem_singleton.mp hpath] at hle
  exact hnot hle

end AutoloadMap

end Namespacer
