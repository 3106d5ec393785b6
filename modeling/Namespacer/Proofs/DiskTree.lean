import Namespacer.Disk
import Mathlib.Data.List.Induction
import Mathlib.Data.List.Nodup

/-!
# Disks that are trees

A disk is a list of entries, and not every list of entries is the contents of a
directory. `Disk.IsTree` says that one is: no location is listed twice, names are
names that a directory can hold, and every entry lies in a directory; and so for
what surrounds it.

* `Disk.IsTree.get?_eq_some_iff`: on a tree, the entry at a location is the one
  that is listed there.
* `Disk.IsTree.set`, `Disk.IsTree.renameAt`: writing a file and renaming lead from
  trees to trees.
* `Disk.IsTree.rename_cases`: renaming does nothing or carries out a move that is
  possible; `Disk.IsTree.get?_erase_move_new` and `Disk.IsTree.get?_erase_move_other`
  tell what is found after a move.
* `Disk.WalkStep`, `Disk.walkFrom_cons_eq_ok_iff`: where one step of a walk along a path leads.
* `Disk.IsTree.locate_ok`: a path leads to a place where an entry is or could be.
* `Disk.IsTree.locate_file`: the path that names the location of a file leads there.
-/

namespace Namespacer

/-! ## Sorting -/

theorem insertSorted_perm {α : Type} (le : α → α → Bool) (a : α) (rest : List α) :
    (insertSorted le a rest).Perm (a :: rest) := by
  induction rest with
  | nil => exact .refl _
  | cons b rest ih =>
    rw [insertSorted]
    split
    · exact .refl _
    · exact (ih.cons b).trans (.swap a b rest)

/-- Sorting keeps all elements. -/
theorem sortBy_perm {α : Type} (le : α → α → Bool) (elements : List α) :
    (sortBy le elements).Perm elements := by
  induction elements with
  | nil => exact .refl _
  | cons a rest ih => exact (insertSorted_perm le a _).trans (ih.cons a)

/-! ## Look-ups -/

/-- In a list without a repeated key, every pair is found under its key. -/
theorem lookup_of_mem {α β : Type} [BEq α] [LawfulBEq α] {pairs : List (α × β)}
    (hnodup : (pairs.map (·.1)).Nodup) {key : α} {value : β} (h : (key, value) ∈ pairs) :
    pairs.lookup key = some value := by
  obtain ⟨before, after, rfl⟩ := List.append_of_mem h
  refine List.lookup_eq_some_iff.mpr ⟨before, after, rfl, ?_⟩
  intro other hother
  rw [List.map_append, List.nodup_append] at hnodup
  have hne := hnodup.2.2 other.1 (List.mem_map_of_mem hother) key (by simp)
  exact bne_iff_ne.mpr (Ne.symm hne)

theorem lookup_filter_ne {entries : List (Location × Entry)} {location other : Location}
    (h : other ≠ location) :
    (entries.filter fun entry => entry.1 != location).lookup other = entries.lookup other := by
  induction entries with
  | nil => rfl
  | cons entry entries ih =>
    by_cases hentry : entry.1 = location
    · have hne : (other == entry.1) = false := by simpa [hentry] using h
      rw [List.filter_cons_of_neg (by simpa using hentry), ih, List.lookup_cons, hne]
    · rw [List.filter_cons_of_pos (by simpa using hentry), List.lookup_cons, List.lookup_cons, ih]

/-! ## Replaced entries

Both a disk and its surroundings put an entry at a location by taking off what is listed there
and listing the entry at the end. -/

section Upsert

variable {entries : List (Location × Entry)} {location other : Location} {entry : Entry}

theorem lookup_filter_self :
    (entries.filter fun held => held.1 != location).lookup location = none := by
  rw [List.lookup_eq_none_iff]
  intro held hheld
  rw [List.mem_filter] at hheld
  simpa [bne_comm] using hheld.2

theorem lookup_upsert_self :
    ((entries.filter fun held => held.1 != location) ++ [(location, entry)]).lookup location =
      some entry := by
  rw [List.lookup_append, lookup_filter_self]
  simp

theorem lookup_upsert_of_ne (h : other ≠ location) :
    ((entries.filter fun held => held.1 != location) ++ [(location, entry)]).lookup other =
      entries.lookup other := by
  have hsingle : (other == location) = false := beq_eq_false_iff_ne.mpr h
  rw [List.lookup_append, lookup_filter_ne h, List.lookup_cons, hsingle]
  simp

theorem mem_upsert {held : Location × Entry}
    (h : held ∈ (entries.filter fun held => held.1 != location) ++ [(location, entry)]) :
    held ∈ entries ∧ held.1 ≠ location ∨ held = (location, entry) := by
  rw [List.mem_append, List.mem_filter, List.mem_singleton] at h
  exact h.imp_left fun h => ⟨h.1, bne_iff_ne.mp h.2⟩

theorem nodup_upsert (h : (entries.map (·.1)).Nodup) :
    (((entries.filter fun held => held.1 != location) ++ [(location, entry)]).map
      (·.1)).Nodup := by
  rw [List.map_append, List.nodup_append]
  refine ⟨h.sublist (List.filter_sublist.map _), by simp, ?_⟩
  intro a ha b hb
  obtain ⟨held, hheld, rfl⟩ := List.mem_map.mp ha
  rw [List.map_singleton, List.mem_singleton] at hb
  simpa [hb] using (List.mem_filter.mp hheld).2

end Upsert

/-! ## Locations -/

theorem Location.below?_eq_some_iff {above location rest : Location} :
    Location.below? above location = some rest ↔ location = above ++ rest := by
  induction above generalizing location with
  | nil => simp [Location.below?, eq_comm]
  | cons name above ih =>
    cases location with
    | nil => simp [Location.below?]
    | cons other location =>
      by_cases h : name = other
      · simp [Location.below?, h, ih]
      · simp [Location.below?, h, Ne.symm h]

theorem Location.below?_eq_none_iff {above location : Location} :
    Location.below? above location = none ↔ ¬ above <+: location := by
  rw [Option.eq_none_iff_forall_ne_some]
  refine forall_congr' (fun rest => ?_) |>.trans not_exists.symm
  rw [ne_eq, Location.below?_eq_some_iff, eq_comm]

theorem Location.inside?_eq_some_iff {above location rest : Location} :
    Location.inside? above location = some rest ↔ rest ≠ [] ∧ location = above ++ rest := by
  rw [Location.inside?, Option.filter_eq_some_iff, Location.below?_eq_some_iff, and_comm]
  simp

/-- Nothing below a location is at or above it. -/
theorem Location.eq_nil_of_append_isPrefix {location rest : Location}
    (h : location ++ rest <+: location) : rest = [] := by
  have hlength := h.length_le
  rw [List.length_append] at hlength
  exact List.length_eq_zero_iff.mp (by omega)

theorem Location.moved_append (old new rest : Location) :
    Location.moved old new (old ++ rest) = new ++ rest := by
  have h : Location.below? old (old ++ rest) = some rest := Location.below?_eq_some_iff.mpr rfl
  simp only [Location.moved, h]

theorem Location.moved_of_not_prefix {old location : Location} (new : Location)
    (h : ¬ old <+: location) : Location.moved old new location = location := by
  simp only [Location.moved, Location.below?_eq_none_iff.mpr h]

namespace Disk

/-! ## Entries -/

/-- Whether a directory can hold an entry with a name. -/
def IsEntryName (name : Text) : Prop := Path.isName name = true ∧ name ≠ "..".toList

instance (name : Text) : Decidable (IsEntryName name) := inferInstanceAs (Decidable (_ ∧ _))

end Disk

namespace Surroundings

open Disk

variable {around : Surroundings} {location : Location}

/-- Surroundings whose entries are those outside of a directory. -/
structure IsTree (around : Surroundings) : Prop where
  nodup : (around.entries.map (·.1)).Nodup
  home : ∀ name ∈ around.home, IsEntryName name
  names : ∀ entry ∈ around.entries, ∀ name ∈ entry.1, IsEntryName name
  apart : ∀ entry ∈ around.entries, ¬ entry.1 <+: around.home ∧ ¬ around.home <+: entry.1
  inDirectory : ∀ entry ∈ around.entries, around.get? entry.1.dropLast = some .directory

instance (around : Surroundings) : Decidable around.IsTree :=
  decidable_of_iff
    ((around.entries.map (·.1)).Nodup ∧ (∀ name ∈ around.home, IsEntryName name) ∧
      (∀ entry ∈ around.entries, ∀ name ∈ entry.1, IsEntryName name) ∧
      (∀ entry ∈ around.entries, ¬ entry.1 <+: around.home ∧ ¬ around.home <+: entry.1) ∧
      ∀ entry ∈ around.entries, around.get? entry.1.dropLast = some .directory)
    ⟨fun h => ⟨h.1, h.2.1, h.2.2.1, h.2.2.2.1, h.2.2.2.2⟩, fun h => ⟨h.1, h.2, h.3, h.4, h.5⟩⟩

/-- The directory lies in directories. -/
theorem get?_of_isPrefix (h : location <+: around.home) : around.get? location = some .directory := by
  obtain ⟨rest, hrest⟩ := h
  rw [get?, Location.below?_eq_some_iff.mpr hrest.symm, if_pos Option.isSome_some]

theorem get?_of_not_isPrefix (h : ¬ location <+: around.home) :
    around.get? location = around.entries.lookup location := by
  rw [get?, Location.below?_eq_none_iff.mpr h, if_neg (by simp)]

theorem mem_of_get? {entry : Entry} (h : ¬ location <+: around.home)
    (hget : around.get? location = some entry) : (location, entry) ∈ around.entries := by
  rw [get?_of_not_isPrefix h] at hget
  obtain ⟨before, after, hentries, -⟩ := List.lookup_eq_some_iff.mp hget
  simp [hentries]

theorem IsTree.get?_of_mem (tree : around.IsTree) {entry : Entry}
    (h : (location, entry) ∈ around.entries) : around.get? location = some entry := by
  rw [get?_of_not_isPrefix (tree.apart _ h).1]
  exact lookup_of_mem tree.nodup h

theorem IsTree.get?_dropLast (tree : around.IsTree) {entry : Entry}
    (h : around.get? location = some entry) :
    around.get? location.dropLast = some .directory := by
  by_cases hhome : location <+: around.home
  · exact get?_of_isPrefix ((List.dropLast_prefix location).trans hhome)
  · exact tree.inDirectory _ (mem_of_get? hhome h)

theorem IsTree.names_of_get? (tree : around.IsTree) {entry : Entry}
    (h : around.get? location = some entry) : ∀ name ∈ location, IsEntryName name := by
  by_cases hhome : location <+: around.home
  · exact fun name hname => tree.home name (hhome.subset hname)
  · exact tree.names _ (mem_of_get? hhome h)

/-- Where an entry outside of the directory is or could be. -/
structure IsPlace (around : Surroundings) (location : Location) : Prop where
  apart : ¬ around.home <+: location
  names : ∀ name ∈ location, IsEntryName name
  inDirectory : around.get? location.dropLast = some .directory

theorem get?_set_self (entry : Entry) (h : ¬ location <+: around.home) :
    (around.set location entry).get? location = some entry := by
  have hset : ¬ location <+: (around.set location entry).home := h
  rw [get?_of_not_isPrefix hset]
  exact lookup_upsert_self

theorem get?_set_of_ne {other : Location} (entry : Entry) (h : other ≠ location) :
    (around.set location entry).get? other = around.get? other := by
  by_cases hhome : other <+: around.home
  · have hset : other <+: (around.set location entry).home := hhome
    rw [get?_of_isPrefix hhome, get?_of_isPrefix hset]
  · have hset : ¬ other <+: (around.set location entry).home := hhome
    rw [get?_of_not_isPrefix hhome, get?_of_not_isPrefix hset]
    exact lookup_upsert_of_ne h

/-- A file can be put outside of the directory, except in the place of a directory. -/
theorem IsTree.set (tree : around.IsTree) (hplace : around.IsPlace location)
    (hnot : around.get? location ≠ some .directory) (bytes : Bytes) :
    (around.set location (.file bytes)).IsTree := by
  have hhome : ¬ location <+: around.home := fun h => hnot (get?_of_isPrefix h)
  have hparent : ∀ other : Location, around.get? other = some .directory →
      (around.set location (.file bytes)).get? other = some .directory := by
    intro other hother
    have hne : other ≠ location := by
      rintro rfl
      exact hnot hother
    rw [get?_set_of_ne _ hne, hother]
  refine ⟨nodup_upsert tree.nodup, tree.home, ?_, ?_, ?_⟩
  · intro entry hentry
    rcases mem_upsert hentry with ⟨hentry, -⟩ | rfl
    · exact tree.names entry hentry
    · exact hplace.names
  · intro entry hentry
    rcases mem_upsert hentry with ⟨hentry, -⟩ | rfl
    · exact tree.apart entry hentry
    · exact ⟨hhome, hplace.apart⟩
  · intro entry hentry
    rcases mem_upsert hentry with ⟨hentry, -⟩ | rfl
    · exact hparent _ (tree.inDirectory _ hentry)
    · exact hparent _ hplace.inDirectory

end Surroundings

namespace Disk

@[simp] theorem get?_nil (disk : Disk) : disk.get? [] = some .directory := rfl

theorem get?_of_ne_nil {disk : Disk} {location : Location} (h : location ≠ []) :
    disk.get? location = disk.entries.lookup location := by
  simp [get?, h]

/-- A disk whose entries are those of a directory, with the surroundings of one. -/
structure IsTree (disk : Disk) : Prop where
  around : disk.around.IsTree
  nodup : (disk.entries.map (·.1)).Nodup
  names : ∀ entry ∈ disk.entries, ∀ name ∈ entry.1, IsEntryName name
  inDirectory : ∀ entry ∈ disk.entries,
    entry.1 ≠ [] ∧ disk.get? entry.1.dropLast = some .directory

instance (disk : Disk) : Decidable disk.IsTree :=
  decidable_of_iff
    (disk.around.IsTree ∧ (disk.entries.map (·.1)).Nodup ∧
      (∀ entry ∈ disk.entries, ∀ name ∈ entry.1, IsEntryName name) ∧
      ∀ entry ∈ disk.entries, entry.1 ≠ [] ∧ disk.get? entry.1.dropLast = some .directory)
    ⟨fun h => ⟨h.1, h.2.1, h.2.2.1, h.2.2.2⟩, fun h => ⟨h.1, h.2, h.3, h.4⟩⟩

theorem mem_of_get? {disk : Disk} {location : Location} {entry : Entry} (hne : location ≠ [])
    (h : disk.get? location = some entry) : (location, entry) ∈ disk.entries := by
  rw [get?_of_ne_nil hne] at h
  obtain ⟨before, after, hentries, -⟩ := List.lookup_eq_some_iff.mp h
  simp [hentries]

/-- The disk is the directory itself, or a listed entry of it, at a location where
something is. -/
theorem IsTree.get?_eq_some_iff {disk : Disk} (tree : disk.IsTree) {location : Location}
    {entry : Entry} (hne : location ≠ []) :
    disk.get? location = some entry ↔ (location, entry) ∈ disk.entries := by
  refine ⟨mem_of_get? hne, fun h => ?_⟩
  rw [get?_of_ne_nil hne]
  exact lookup_of_mem tree.nodup h

theorem IsTree.get?_of_mem {disk : Disk} (tree : disk.IsTree) {location : Location}
    {entry : Entry} (h : (location, entry) ∈ disk.entries) : disk.get? location = some entry :=
  (tree.get?_eq_some_iff (tree.inDirectory _ h).1).mpr h

/-- What is at a location lies in a directory. -/
theorem IsTree.get?_dropLast {disk : Disk} (tree : disk.IsTree) {location : Location}
    {entry : Entry} (h : disk.get? location = some entry) :
    disk.get? location.dropLast = some .directory := by
  by_cases hne : location = []
  · simp [hne]
  · exact (tree.inDirectory _ (mem_of_get? hne h)).2

theorem IsTree.names_of_get? {disk : Disk} (tree : disk.IsTree) {location : Location}
    {entry : Entry} (h : disk.get? location = some entry) :
    ∀ name ∈ location, IsEntryName name := by
  by_cases hne : location = []
  · simp [hne]
  · exact tree.names _ (mem_of_get? hne h)

/-- Only directories have something below them. -/
theorem IsTree.get?_above {disk : Disk} (tree : disk.IsTree) {above rest : Location}
    {entry : Entry} (hrest : rest ≠ []) (h : disk.get? (above ++ rest) = some entry) :
    disk.get? above = some .directory := by
  -- The last name of the rest is taken off, down to the location above.
  induction rest using List.reverseRecOn generalizing entry with
  | nil => exact absurd rfl hrest
  | append_singleton rest name ih =>
    have hparent := tree.get?_dropLast h
    rw [← List.append_assoc, List.dropLast_concat] at hparent
    by_cases hnil : rest = []
    · simpa [hnil] using hparent
    · exact ih hnil hparent

/-- Nothing is listed at or below a location that is free. -/
theorem IsTree.not_prefix_of_get?_none {disk : Disk} (tree : disk.IsTree) {location : Location}
    (hfree : disk.get? location = none) : ∀ entry ∈ disk.entries, ¬ location <+: entry.1 := by
  rintro ⟨other, entry⟩ hmem ⟨rest, rfl⟩
  have hget := tree.get?_of_mem hmem
  by_cases hrest : rest = []
  · simp [hrest, hfree] at hget
  · simp [tree.get?_above hrest hget] at hfree

/-- Where an entry is or could be: below a directory, under names that it can hold. -/
structure IsPlace (disk : Disk) (location : Location) : Prop where
  names : ∀ name ∈ location, IsEntryName name
  inDirectory : disk.get? location.dropLast = some .directory

theorem IsTree.isPlace {disk : Disk} (tree : disk.IsTree) {location : Location} {entry : Entry}
    (h : disk.get? location = some entry) : disk.IsPlace location :=
  ⟨tree.names_of_get? h, tree.get?_dropLast h⟩

/-! ## Writing -/

theorem get?_erase_of_ne {disk : Disk} {location other : Location} (h : other ≠ location) :
    (disk.erase location).get? other = disk.get? other := by
  by_cases hnil : other = []
  · simp [hnil]
  rw [get?_of_ne_nil hnil, get?_of_ne_nil hnil, erase, lookup_filter_ne h]

theorem get?_erase_self {disk : Disk} {location : Location} (h : location ≠ []) :
    (disk.erase location).get? location = none := by
  rw [get?_of_ne_nil h]
  exact lookup_filter_self

theorem get?_set_self {disk : Disk} {location : Location} (entry : Entry) (h : location ≠ []) :
    (disk.set location entry).get? location = some entry := by
  rw [get?_of_ne_nil h]
  exact lookup_upsert_self

theorem get?_set_of_ne {disk : Disk} {location other : Location} (entry : Entry)
    (h : other ≠ location) : (disk.set location entry).get? other = disk.get? other := by
  by_cases hnil : other = []
  · simp [hnil]
  rw [get?_of_ne_nil hnil, get?_of_ne_nil hnil]
  exact lookup_upsert_of_ne h

/-- What is not the entry of a directory with something in it can be taken off. -/
theorem IsTree.erase {disk : Disk} (tree : disk.IsTree) {location : Location}
    (h : ∀ entry ∈ disk.entries, location <+: entry.1 → entry.1 = location) :
    (disk.erase location).IsTree where
  around := tree.around
  nodup := tree.nodup.sublist (List.filter_sublist.map _)
  names entry hentry := tree.names entry (List.mem_of_mem_filter hentry)
  inDirectory := by
    intro entry hentry
    rw [Disk.erase, List.mem_filter] at hentry
    obtain ⟨hmem, hne⟩ := hentry
    refine ⟨(tree.inDirectory _ hmem).1, ?_⟩
    rw [get?_erase_of_ne]
    · exact (tree.inDirectory _ hmem).2
    · rintro heq
      exact bne_iff_ne.mp hne (h entry hmem (heq ▸ List.dropLast_prefix entry.1))

/-- A file can be put where something can be, except in the place of a directory. -/
theorem IsTree.set {disk : Disk} (tree : disk.IsTree) {location : Location}
    (hplace : disk.IsPlace location) (hnot : disk.get? location ≠ some .directory)
    (bytes : Bytes) : (disk.set location (.file bytes)).IsTree := by
  have hne : location ≠ [] := by
    rintro rfl
    exact hnot rfl
  have hparent : ∀ other : Location, disk.get? other = some .directory →
      (disk.set location (.file bytes)).get? other = some .directory := by
    intro other hother
    have hother' : other ≠ location := by
      rintro rfl
      exact hnot hother
    rw [get?_set_of_ne _ hother', hother]
  refine ⟨tree.around, nodup_upsert tree.nodup, ?_, ?_⟩
  · intro entry hentry
    rcases mem_upsert hentry with ⟨hentry, -⟩ | rfl
    · exact tree.names entry hentry
    · exact hplace.names
  · intro entry hentry
    rcases mem_upsert hentry with ⟨hentry, -⟩ | rfl
    · exact ⟨(tree.inDirectory _ hentry).1, hparent _ (tree.inDirectory _ hentry).2⟩
    · exact ⟨hne, hparent _ hplace.inDirectory⟩

/-! ## Moving -/

theorem mem_move {disk : Disk} {old new location : Location} {entry : Entry} :
    (location, entry) ∈ (disk.move old new).entries ↔
      ∃ source, (source, entry) ∈ disk.entries ∧ Location.moved old new source = location := by
  simp [move]

/-- No two entries are moved to one location if nothing is at the new one. -/
theorem moved_inj {disk : Disk} {old new a b : Location} {entry other : Entry}
    (hfree : ∀ entry ∈ disk.entries, ¬ new <+: entry.1) (ha : (a, entry) ∈ disk.entries)
    (hb : (b, other) ∈ disk.entries)
    (h : Location.moved old new a = Location.moved old new b) : a = b := by
  by_cases hoa : old <+: a
  · obtain ⟨ra, rfl⟩ := hoa
    by_cases hob : old <+: b
    · obtain ⟨rb, rfl⟩ := hob
      rw [Location.moved_append, Location.moved_append] at h
      rw [List.append_cancel_left h]
    · rw [Location.moved_append, Location.moved_of_not_prefix new hob] at h
      exact absurd ⟨ra, h⟩ (hfree _ hb)
  · rw [Location.moved_of_not_prefix new hoa] at h
    by_cases hob : old <+: b
    · obtain ⟨rb, rfl⟩ := hob
      rw [Location.moved_append] at h
      exact absurd ⟨rb, h.symm⟩ (hfree _ ha)
    · rwa [Location.moved_of_not_prefix new hob] at h

/-- An entry can be moved, with everything below it, to a free place that is not
below it. -/
theorem IsTree.move {disk : Disk} (tree : disk.IsTree) {old new : Location}
    (hplace : disk.IsPlace new) (hnew : new ≠ [])
    (hfree : ∀ entry ∈ disk.entries, ¬ new <+: entry.1) (hapart : ¬ old <+: new) :
    (disk.move old new).IsTree := by
  have hnodup : ((disk.move old new).entries.map (·.1)).Nodup := by
    have hmap : (disk.move old new).entries.map (·.1) =
        disk.entries.map fun entry => Location.moved old new entry.1 := by
      simp [Disk.move, Function.comp_def]
    rw [hmap]
    have hlocations := tree.nodup
    refine List.Nodup.map_on ?_ hlocations.of_map
    intro a ha b hb h
    have hloc : a.1 = b.1 := moved_inj hfree ha hb h
    exact List.inj_on_of_nodup_map hlocations ha hb hloc
  have hold : old ≠ [] := by
    rintro rfl
    exact hapart List.nil_prefix
  -- A directory that is not moved is found where it was.
  have hstays : ∀ location, ¬ old <+: location → disk.get? location = some .directory →
      (disk.move old new).get? location = some .directory := by
    intro location hlocation hget
    by_cases hnil : location = []
    · simp [hnil]
    rw [get?_of_ne_nil hnil]
    refine lookup_of_mem hnodup (mem_move.mpr ⟨location, mem_of_get? hnil hget, ?_⟩)
    exact Location.moved_of_not_prefix new hlocation
  have hparent : ¬ old <+: new.dropLast := fun h => hapart (h.trans (List.dropLast_prefix new))
  refine ⟨tree.around, hnodup, ?_, ?_⟩
  · rintro ⟨location, entry⟩ hmem name hname
    obtain ⟨source, hsource, rfl⟩ := mem_move.mp hmem
    by_cases hbelow : old <+: source
    · obtain ⟨rest, rfl⟩ := hbelow
      rw [Location.moved_append, List.mem_append] at hname
      rcases hname with hname | hname
      · exact hplace.names name hname
      · exact tree.names _ hsource name (List.mem_append_right _ hname)
    · rw [Location.moved_of_not_prefix new hbelow] at hname
      exact tree.names _ hsource name hname
  · rintro ⟨location, entry⟩ hmem
    obtain ⟨source, hsource, rfl⟩ := mem_move.mp hmem
    have hdirectory := tree.inDirectory _ hsource
    by_cases hbelow : old <+: source
    · obtain ⟨rest, rfl⟩ := hbelow
      simp only [Location.moved_append]
      refine ⟨fun h => hnew (List.append_eq_nil_iff.mp h).1, ?_⟩
      by_cases hrest : rest = []
      · rw [hrest, List.append_nil]
        exact hstays _ hparent hplace.inDirectory
      · rw [List.dropLast_append_of_ne_nil hrest]
        have hget := hdirectory.2
        rw [List.dropLast_append_of_ne_nil hrest] at hget
        have hne : old ++ rest.dropLast ≠ [] := fun h => hold (List.append_eq_nil_iff.mp h).1
        rw [get?_of_ne_nil fun h => hnew (List.append_eq_nil_iff.mp h).1]
        refine lookup_of_mem hnodup (mem_move.mpr ⟨_, mem_of_get? hne hget, ?_⟩)
        exact Location.moved_append old new _
    · simp only [Location.moved_of_not_prefix new hbelow]
      refine ⟨hdirectory.1, hstays _ (fun h => hbelow ?_) hdirectory.2⟩
      exact h.trans (List.dropLast_prefix source)

/-! ## Places -/

@[simp] theorem at?_inside (disk : Disk) (location : Location) :
    disk.at? (.inside location) = disk.get? location := rfl

@[simp] theorem at?_outside (disk : Disk) (location : Location) :
    disk.at? (.outside location) = disk.around.get? location := rfl

/-- Where in the file system an entry is or could be. -/
def IsPlaceAt (disk : Disk) : Place → Prop
  | .inside location => disk.IsPlace location
  | .outside location => disk.around.IsPlace location

/-- Where in the file system a directory is. -/
structure IsDirectoryAt (disk : Disk) (place : Place) : Prop where
  isPlace : disk.IsPlaceAt place
  directory : disk.at? place = some .directory

theorem IsTree.isDirectoryAt_inside {disk : Disk} (tree : disk.IsTree) {location : Location}
    (h : disk.get? location = some .directory) : disk.IsDirectoryAt (.inside location) :=
  ⟨tree.isPlace h, h⟩

/-- The directories that the directory of a disk is in. -/
theorem IsTree.isDirectoryAt_above {disk : Disk} (tree : disk.IsTree) {location : Location}
    (h : location <+: disk.around.home) : disk.IsDirectoryAt (disk.around.place location) := by
  rw [Surroundings.place]
  split
  · next rest hbelow =>
    rw [Location.below?_eq_some_iff] at hbelow
    subst hbelow
    rw [Location.eq_nil_of_append_isPrefix h]
    exact tree.isDirectoryAt_inside (get?_nil disk)
  · next hbelow =>
    refine ⟨⟨Location.below?_eq_none_iff.mp hbelow, fun name hname => ?_, ?_⟩, ?_⟩
    · exact tree.around.home name (h.subset hname)
    · exact Surroundings.get?_of_isPrefix ((List.dropLast_prefix location).trans h)
    · exact Surroundings.get?_of_isPrefix h

theorem IsTree.isDirectoryAt_parent {disk : Disk} (tree : disk.IsTree) {here : Place}
    (h : disk.IsDirectoryAt here) : disk.IsDirectoryAt (disk.around.parent here) := by
  cases here with
  | inside location =>
    rw [Surroundings.parent]
    split
    · exact tree.isDirectoryAt_above (List.dropLast_prefix _)
    · exact tree.isDirectoryAt_inside (tree.get?_dropLast h.directory)
  | outside location =>
    have hparent := tree.around.get?_dropLast h.directory
    have hapart : ¬ disk.around.home <+: location := h.isPlace.apart
    refine ⟨⟨fun habove => hapart (habove.trans (List.dropLast_prefix location)), ?_, ?_⟩, hparent⟩
    · exact tree.around.names_of_get? hparent
    · exact tree.around.get?_dropLast hparent

/-- A name in a directory is where an entry is or could be. -/
theorem IsTree.isPlaceAt_child {disk : Disk} (tree : disk.IsTree) {here : Place} {name : Text}
    (h : disk.IsDirectoryAt here) (hname : IsEntryName name) :
    disk.IsPlaceAt (disk.around.child name here) := by
  have hnames {location : Location} (hlocation : ∀ other ∈ location, IsEntryName other) :
      ∀ other ∈ location ++ [name], IsEntryName other := by
    intro other hother
    rcases List.mem_append.mp hother with hother | hother
    · exact hlocation other hother
    · rwa [List.mem_singleton.mp hother]
  cases here with
  | inside location =>
    refine ⟨hnames (tree.names_of_get? h.directory), ?_⟩
    rw [List.dropLast_concat]
    exact h.directory
  | outside location =>
    have hapart : ¬ disk.around.home <+: location := h.isPlace.apart
    rw [Surroundings.child, Surroundings.place]
    split
    · next rest hbelow =>
      -- The name is the last one on the way to the directory of the disk.
      have hrest : rest = [] := by
        by_contra hrest
        rw [Location.below?_eq_some_iff] at hbelow
        have hparent := congrArg List.dropLast hbelow
        rw [List.dropLast_concat, List.dropLast_append_of_ne_nil hrest] at hparent
        exact hapart ⟨_, hparent.symm⟩
      rw [hrest]
      exact tree.isPlace (get?_nil disk)
    · next hbelow =>
      refine ⟨Location.below?_eq_none_iff.mp hbelow, hnames ?_, ?_⟩
      · exact tree.around.names_of_get? h.directory
      · rw [List.dropLast_concat]
        exact h.directory

/-! ## Walks -/

/-- The first step of a walk that returns. A segment that is no name is skipped; or the walk goes
up, or ends at the last name, or enters a directory, and `go` takes it on; or a link is followed,
and `follow` takes it on. -/
inductive WalkStep (disk : Disk) (followsLast : Bool)
    (go follow : Place → List Text → Except DiskFault Place) (here : Place) (name : Text)
    (rest : List Text) (found : Place) : Prop where
  | skip (noName : Path.isName name = false) (walks : go here rest = .ok found)
  | up (upward : name = "..".toList) (walks : go (disk.around.parent here) rest = .ok found)
  | arrive (isName : Path.isName name = true) (not_up : name ≠ "..".toList) (last : rest = [])
      (arrives : disk.around.child name here = found) (not_directory : disk.at? found ≠ some .directory)
      (not_link : followsLast = true → ∀ target, disk.at? found ≠ some (.link target))
  | enter (isName : Path.isName name = true) (not_up : name ≠ "..".toList)
      (directory : disk.at? (disk.around.child name here) = some .directory)
      (walks : go (disk.around.child name here) rest = .ok found)
  | follow (isName : Path.isName name = true) (not_up : name ≠ "..".toList) {target : Text}
      (link : disk.at? (disk.around.child name here) = some (.link target))
      (goes_on : (rest.isEmpty && !followsLast) = false)
      (walks : follow (if target.head? = some '/' then disk.around.place [] else here)
        (Text.splitOn '/' target ++ rest) = .ok found)

theorem walkFrom_cons_eq_ok_iff {disk : Disk} {followsLast : Bool}
    {follow : Place → List Text → Except DiskFault Place} {here found : Place}
    {name : Text} {rest : List Text} :
    disk.walkFrom followsLast follow here (name :: rest) = .ok found ↔
      disk.WalkStep followsLast (disk.walkFrom followsLast follow) follow here name rest found := by
  rw [walkFrom]
  constructor
  · intro h
    cases hname : Path.isName name with
    | false => exact .skip hname (by simpa [hname] using h)
    | true =>
    simp only [hname, Bool.not_true, Bool.false_eq_true, if_false] at h
    by_cases hup : name = "..".toList
    · rw [if_pos hup] at h
      exact .up hup h
    rw [if_neg hup] at h
    cases hget : disk.at? (disk.around.child name here) with
    | none =>
      by_cases hrest : rest = []
      · obtain rfl : disk.around.child name here = found := by simpa [hget, hrest] using h
        exact .arrive hname hup hrest rfl (by simp [hget]) (by simp [hget])
      · simp [hget, hrest] at h
    | some entry =>
      cases entry with
      | directory => exact .enter hname hup hget (by simpa [hget] using h)
      | file bytes =>
        by_cases hrest : rest = []
        · obtain rfl : disk.around.child name here = found := by simpa [hget, hrest] using h
          exact .arrive hname hup hrest rfl (by simp [hget]) (by simp [hget])
        · simp [hget, hrest] at h
      | link target =>
        simp only [hget] at h
        split at h
        · rename_i hlast
          rw [Bool.and_eq_true, List.isEmpty_iff, Bool.not_eq_true'] at hlast
          cases h
          exact .arrive hname hup hlast.1 rfl (by simp [hget]) (by simp [hlast.2])
        · rename_i hlast
          exact .follow hname hup hget (Bool.eq_false_iff.mpr hlast) h
  · intro h
    cases h with
    | skip noName walks => simpa [noName] using walks
    | up upward walks =>
      have isName : Path.isName name = true := by
        rw [upward]
        decide
      rwa [if_neg (by simp [isName]), if_pos upward]
    | arrive isName not_up last arrives not_directory not_link =>
      subst last arrives
      rw [if_neg (by simp [isName]), if_neg not_up]
      cases hget : disk.at? (disk.around.child name here) with
      | none => simp [hget]
      | some entry =>
        cases entry with
        | directory => exact absurd hget not_directory
        | file bytes => simp [hget]
        | link target =>
          cases followsLast with
          | false => simp [hget]
          | true => exact absurd hget (not_link rfl target)
    | enter isName not_up directory walks =>
      rw [if_neg (by simp [isName]), if_neg not_up]
      simpa only [directory] using walks
    | follow isName not_up link goes_on walks =>
      rw [if_neg (by simp [isName]), if_neg not_up]
      simpa only [link, goes_on, Bool.false_eq_true, if_false] using walks

/-- Where a walk can end: at a place for an entry, and not at a link if the last link is
followed too. -/
structure IsWalkEnd (disk : Disk) (followsLast : Bool) (place : Place) : Prop where
  isPlace : disk.IsPlaceAt place
  not_link : followsLast = true → ∀ target, disk.at? place ≠ some (.link target)

theorem IsTree.walkFrom_ok {disk : Disk} (tree : disk.IsTree) {followsLast : Bool}
    {follow : Place → List Text → Except DiskFault Place}
    (hfollow : ∀ here segments place, disk.IsDirectoryAt here →
      follow here segments = .ok place → disk.IsWalkEnd followsLast place)
    {segments : List Text} {here place : Place} (hhere : disk.IsDirectoryAt here)
    (h : disk.walkFrom followsLast follow here segments = .ok place) :
    disk.IsWalkEnd followsLast place := by
  induction segments generalizing here with
  | nil =>
    rw [walkFrom] at h
    cases h
    exact ⟨hhere.isPlace, by simp [hhere.directory]⟩
  | cons name rest ih =>
    cases walkFrom_cons_eq_ok_iff.mp h with
    | skip _ walks => exact ih hhere walks
    | up _ walks => exact ih (tree.isDirectoryAt_parent hhere) walks
    | arrive isName not_up _ arrives _ not_link =>
      subst arrives
      exact ⟨tree.isPlaceAt_child hhere ⟨isName, not_up⟩, not_link⟩
    | enter isName not_up directory walks =>
      exact ih ⟨tree.isPlaceAt_child hhere ⟨isName, not_up⟩, directory⟩ walks
    | follow _ _ _ _ walks =>
      refine hfollow _ _ _ ?_ walks
      split
      · exact tree.isDirectoryAt_above List.nil_prefix
      · exact hhere

/-- A path on a tree leads to a place for an entry, and not to a link if the last link
is followed too. -/
theorem IsTree.locate_ok {disk : Disk} (tree : disk.IsTree) {followsLast : Bool} {path : Path}
    {place : Place} (h : disk.locate followsLast path = .ok place) :
    disk.IsWalkEnd followsLast place := by
  have hwalk : ∀ links here segments place, disk.IsDirectoryAt here →
      disk.walk followsLast links here segments = .ok place →
        disk.IsWalkEnd followsLast place := by
    intro links
    induction links with
    | zero =>
      intro here segments place _ h
      cases h
    | succ links ih =>
      intro here segments place hhere h
      exact tree.walkFrom_ok ih hhere h
  refine hwalk _ _ _ _ ?_ h
  split
  · exact tree.isDirectoryAt_inside (get?_nil disk)
  · exact tree.isDirectoryAt_above List.nil_prefix

/-- A path that leads into the directory of the disk leads to a place for an entry there. -/
theorem IsTree.isPlace_of_locate {disk : Disk} (tree : disk.IsTree) {followsLast : Bool}
    {path : Path} {location : Location}
    (h : disk.locate followsLast path = .ok (.inside location)) : disk.IsPlace location :=
  (tree.locate_ok h).isPlace

/-- A walk follows the names of a directory down to it. -/
theorem IsTree.walkFrom_directory {disk : Disk} (tree : disk.IsTree) (followsLast : Bool)
    (follow : Place → List Text → Except DiskFault Place) {here directory : Location}
    (rest : List Text) (h : disk.get? (here ++ directory) = some .directory) :
    disk.walkFrom followsLast follow (.inside here) (directory ++ rest) =
      disk.walkFrom followsLast follow (.inside (here ++ directory)) rest := by
  induction directory generalizing here with
  | nil => simp
  | cons name directory ih =>
    obtain ⟨hname, hup⟩ := tree.names_of_get? h name (by simp)
    rw [List.append_cons] at h
    have hget : disk.at? (disk.around.child name (.inside here)) = some .directory := by
      rw [Surroundings.child, at?_inside]
      by_cases hnil : directory = []
      · simpa [hnil] using h
      · exact tree.get?_above hnil h
    rw [List.cons_append, walkFrom, if_neg (by simp [hname]), if_neg hup]
    simp only [hget]
    rw [Surroundings.child, ih h, ← List.append_cons]

/-- The path that names a place leads there if no link is at it. -/
theorem IsTree.locate_place {disk : Disk} (tree : disk.IsTree) {followsLast : Bool}
    {location : Location} (hplace : disk.IsPlace location)
    (hlink : followsLast = true → ∀ target, disk.get? location ≠ some (.link target)) :
    disk.locate followsLast ⟨[], location⟩ = .ok (.inside location) := by
  have hrelative : (⟨[], location⟩ : Path).anchor.isEmpty = true := rfl
  simp only [locate, if_pos hrelative, walk]
  rcases List.eq_nil_or_concat' location with rfl | ⟨directory, name, rfl⟩
  · rfl
  have hdirectory : disk.get? ([] ++ directory) = some .directory := by
    simpa using hplace.inDirectory
  rw [tree.walkFrom_directory _ _ _ hdirectory, List.nil_append]
  obtain ⟨hname, hup⟩ := hplace.names name (by simp)
  rw [walkFrom_cons_eq_ok_iff]
  by_cases hget : disk.get? (directory ++ [name]) = some .directory
  · exact .enter hname hup hget rfl
  · exact .arrive hname hup rfl rfl hget hlink

/-- The path that names the location of a file leads there. -/
theorem IsTree.locate_file {disk : Disk} (tree : disk.IsTree) {location : Location} {bytes : Bytes}
    (h : disk.get? location = some (.file bytes)) (followsLast : Bool) :
    disk.locate followsLast ⟨[], location⟩ = .ok (.inside location) :=
  tree.locate_place (tree.isPlace h) (by simp [h])

theorem IsTree.read_file {disk : Disk} (tree : disk.IsTree) {location : Location} {bytes : Bytes}
    (h : disk.get? location = some (.file bytes)) : disk.read ⟨[], location⟩ = .ok bytes := by
  rw [read, tree.locate_file h]
  simp only [bind, Except.bind, at?_inside, h]
  rfl

/-! ## Changes by path -/

/-- A file can be put where something can be, except in the place of a directory. -/
theorem IsTree.setAt {disk : Disk} (tree : disk.IsTree) {place : Place}
    (hplace : disk.IsPlaceAt place) (hnot : disk.at? place ≠ some .directory) (bytes : Bytes) :
    (disk.setAt (.file bytes) place).IsTree := by
  cases place with
  | inside location => exact tree.set hplace hnot bytes
  | outside location =>
    exact ⟨tree.around.set hplace hnot bytes, tree.nodup, tree.names, tree.inDirectory⟩

theorem at?_setAt_self {disk : Disk} {place : Place} (entry : Entry)
    (hnot : disk.at? place ≠ some .directory) : (disk.setAt entry place).at? place = some entry := by
  cases place with
  | inside location =>
    refine get?_set_self entry ?_
    rintro rfl
    exact hnot rfl
  | outside location =>
    exact Surroundings.get?_set_self entry fun h => hnot (Surroundings.get?_of_isPrefix h)

theorem at?_setAt_of_ne {disk : Disk} {place other : Place} (entry : Entry) (h : other ≠ place) :
    (disk.setAt entry place).at? other = disk.at? other := by
  cases place with
  | inside location =>
    cases other with
    | inside other => exact get?_set_of_ne entry fun heq => h (congrArg _ heq)
    | outside other => rfl
  | outside location =>
    cases other with
    | inside other => rfl
    | outside other => exact Surroundings.get?_set_of_ne entry fun heq => h (congrArg _ heq)

theorem around_home_setAt (disk : Disk) (entry : Entry) (place : Place) :
    (disk.setAt entry place).around.home = disk.around.home := by
  cases place <;> rfl

/-- Writing puts the bytes at the place that the path leads to. -/
theorem IsTree.write_ok {disk disk' : Disk} (tree : disk.IsTree) {path : Path} {bytes : Bytes}
    (h : disk.write path bytes = .ok disk') :
    ∃ place, disk.locate true path = .ok place ∧ disk.IsPlaceAt place ∧
      disk.at? place ≠ some .directory ∧ disk' = disk.setAt (.file bytes) place := by
  rw [write] at h
  cases hlocate : disk.locate true path with
  | error fault =>
    rw [hlocate] at h
    cases h
  | ok place =>
    rw [hlocate] at h
    simp only [bind, Except.bind] at h
    split at h
    · cases h
    · rename_i hnot
      cases h
      exact ⟨place, rfl, (tree.locate_ok hlocate).isPlace, hnot, rfl⟩

theorem mem_children {disk : Disk} {directory : Location} {name : Text} {entry : Entry} :
    (name, entry) ∈ disk.children directory ↔ (directory ++ [name], entry) ∈ disk.entries := by
  rw [children, (sortBy_perm _ _).mem_iff, List.mem_filterMap]
  constructor
  · rintro ⟨⟨location, other⟩, hmem, h⟩
    simp only at h
    split at h
    · rename_i found hbelow
      cases h
      rwa [Location.below?_eq_some_iff.mp hbelow] at hmem
    · cases h
  · intro h
    refine ⟨_, h, ?_⟩
    have hbelow : Location.below? directory (directory ++ [name]) = some [name] :=
      Location.below?_eq_some_iff.mpr rfl
    simp only [hbelow]

/-- Only the entry of a location lies at or below it, if it is not a directory. -/
theorem IsTree.eq_of_prefix {disk : Disk} (tree : disk.IsTree) {location : Location}
    (h : disk.get? location ≠ some .directory) :
    ∀ entry ∈ disk.entries, location <+: entry.1 → entry.1 = location := by
  rintro ⟨other, entry⟩ hmem ⟨rest, rfl⟩
  by_cases hrest : rest = []
  · simp [hrest]
  · exact absurd (tree.get?_above hrest (tree.get?_of_mem hmem)) h

/-- Only the entry of a directory lies at or below it, if it is empty. -/
theorem IsTree.eq_of_prefix_of_children {disk : Disk} (tree : disk.IsTree) {location : Location}
    (h : disk.children location = []) :
    ∀ entry ∈ disk.entries, location <+: entry.1 → entry.1 = location := by
  rintro ⟨other, entry⟩ hmem ⟨rest, rfl⟩
  cases rest with
  | nil => simp
  | cons name rest =>
    have hchild : ∃ found, disk.get? (location ++ [name]) = some found := by
      have hget := tree.get?_of_mem hmem
      rw [List.append_cons] at hget
      by_cases hrest : rest = []
      · exact ⟨entry, by simpa [hrest] using hget⟩
      · exact ⟨_, tree.get?_above hrest hget⟩
    obtain ⟨found, hfound⟩ := hchild
    have hmem := mem_children.mpr (mem_of_get? (by simp) hfound)
    simp [h] at hmem

/-- What is not a directory has no place below it. -/
theorem IsTree.not_prefix_place {disk : Disk} (tree : disk.IsTree) {old new : Location}
    (hplace : disk.IsPlace new) (hne : old ≠ new) (h : disk.get? old ≠ some .directory) :
    ¬ old <+: new := by
  rintro ⟨rest, rfl⟩
  have hrest : rest ≠ [] := by
    rintro rfl
    exact hne (List.append_nil old).symm
  have hparent := hplace.inDirectory
  rw [List.dropLast_append_of_ne_nil hrest] at hparent
  by_cases hdrop : rest.dropLast = []
  · exact h (by simpa [hdrop] using hparent)
  · exact h (tree.get?_above hdrop hparent)

/-- Whether the entry at `old` can take the place of what is at `new`. -/
structure CanMove (disk : Disk) (old new : Location) : Prop where
  isPlace : disk.IsPlace new
  ne_nil : new ≠ []
  apart : ¬ old <+: new
  /-- Nothing lies below the new location. -/
  alone : ∀ entry ∈ disk.entries, new <+: entry.1 → entry.1 = new

/-- What is apart from a place without a directory can move there. -/
theorem IsTree.canMove {disk : Disk} (tree : disk.IsTree) {old new : Location}
    (hplace : disk.IsPlace new) (hapart : ¬ old <+: new) (h : disk.get? new ≠ some .directory) :
    disk.CanMove old new where
  isPlace := hplace
  ne_nil := by
    rintro rfl
    exact h (get?_nil disk)
  apart := hapart
  alone := tree.eq_of_prefix h

/-- There is nothing to erase at a free location. -/
theorem IsTree.erase_eq_self {disk : Disk} (tree : disk.IsTree) {location : Location}
    (h : disk.get? location = none) : disk.erase location = disk := by
  rw [Disk.erase, List.filter_eq_self.mpr]
  intro entry hentry
  rw [bne_iff_ne]
  exact fun heq => tree.not_prefix_of_get?_none h entry hentry (heq ▸ List.prefix_rfl)

/-- What renaming does: nothing, or a move that is possible. -/
theorem IsTree.renameAt_cases {disk disk' : Disk} (tree : disk.IsTree) {old new : Location}
    (hplace : disk.IsPlace new) (h : disk.renameAt old new = .ok disk') :
    old = new ∧ disk' = disk ∨ disk.CanMove old new ∧ disk' = (disk.erase new).move old new := by
  rw [renameAt] at h
  cases hget : disk.get? old with
  | none => simp [hget, throw, throwThe, MonadExceptOf.throw] at h
  | some entry =>
  simp only [hget] at h
  split at h
  · rename_i heq
    cases h
    exact .inl ⟨heq, rfl⟩
  rename_i hne
  split at h
  · -- A directory moves to a free place, or onto an empty directory.
    split at h
    · cases h
    rename_i hinside
    have hapart : ¬ old <+: new := by
      rw [Option.isSome_iff_ne_none, not_not] at hinside
      exact Location.below?_eq_none_iff.mp hinside
    split at h
    · rename_i hfree
      cases h
      exact .inr ⟨tree.canMove hplace hapart (by simp [hfree]), by rw [tree.erase_eq_self hfree]⟩
    · split at h
      · rename_i hempty
        cases h
        have halone := tree.eq_of_prefix_of_children (List.isEmpty_iff.mp hempty)
        have holdNil : old ≠ [] := by
          rintro rfl
          exact hapart List.nil_prefix
        have hnil : new ≠ [] := by
          rintro rfl
          exact hne (halone _ (mem_of_get? holdNil hget) List.nil_prefix)
        exact .inr ⟨⟨hplace, hnil, hapart, halone⟩, rfl⟩
      · cases h
    · cases h
  · cases h
  · -- A file or a link moves to a place without a directory.
    rename_i hentry hfound
    cases h
    have hapart := tree.not_prefix_place hplace hne fun h => hentry (Option.some.inj (hget ▸ h))
    exact .inr ⟨tree.canMove hplace hapart hfound, rfl⟩

/-- Renaming below the directory of the disk. -/
theorem rename_eq {disk : Disk} {oldPath newPath : Path} {old new : Location}
    (hold : disk.locate false oldPath = .ok (.inside old))
    (hnew : disk.locate false newPath = .ok (.inside new)) :
    disk.rename oldPath newPath = disk.renameAt old new := by
  rw [rename, hold, hnew]
  rfl

theorem IsTree.rename_cases {disk disk' : Disk} (tree : disk.IsTree) {oldPath newPath : Path}
    {old new : Location} (hold : disk.locate false oldPath = .ok (.inside old))
    (hnew : disk.locate false newPath = .ok (.inside new))
    (h : disk.rename oldPath newPath = .ok disk') :
    old = new ∧ disk' = disk ∨ disk.CanMove old new ∧ disk' = (disk.erase new).move old new := by
  rw [rename_eq hold hnew] at h
  exact tree.renameAt_cases (tree.isPlace_of_locate hnew) h

theorem IsTree.erase_move {disk : Disk} (tree : disk.IsTree) {old new : Location}
    (hmove : disk.CanMove old new) : ((disk.erase new).move old new).IsTree := by
  have hparent : new.dropLast ≠ new := by
    intro h
    have hlength := congrArg List.length h
    have hpositive := List.length_pos_iff.mpr hmove.ne_nil
    simp only [List.length_dropLast] at hlength
    omega
  have hplace : (disk.erase new).IsPlace new :=
    ⟨hmove.isPlace.names, by rw [get?_erase_of_ne hparent, hmove.isPlace.inDirectory]⟩
  refine (tree.erase hmove.alone).move hplace hmove.ne_nil ?_ hmove.apart
  intro entry hentry hprefix
  rw [Disk.erase, List.mem_filter] at hentry
  exact bne_iff_ne.mp hentry.2 (hmove.alone entry hentry.1 hprefix)

/-- Renaming leads from trees to trees. -/
theorem IsTree.renameAt {disk disk' : Disk} (tree : disk.IsTree) {old new : Location}
    (hplace : disk.IsPlace new) (h : disk.renameAt old new = .ok disk') : disk'.IsTree := by
  obtain ⟨-, rfl⟩ | ⟨hmove, rfl⟩ := tree.renameAt_cases hplace h
  · exact tree
  · exact tree.erase_move hmove

/-- A moved entry is found at its new location. -/
theorem IsTree.get?_erase_move_new {disk : Disk} (tree : disk.IsTree) {old new : Location}
    {entry : Entry} (hmove : disk.CanMove old new) (h : disk.get? old = some entry) :
    ((disk.erase new).move old new).get? new = some entry := by
  have hold : old ≠ [] := by
    rintro rfl
    exact hmove.apart List.nil_prefix
  have hne : old ≠ new := by
    rintro rfl
    exact hmove.apart List.prefix_rfl
  refine (tree.erase_move hmove).get?_of_mem (mem_move.mpr ⟨old, ?_, ?_⟩)
  · rw [Disk.erase, List.mem_filter]
    exact ⟨mem_of_get? hold h, bne_iff_ne.mpr hne⟩
  · simpa using Location.moved_append old new []

/-- What is not moved and not replaced stays. -/
theorem IsTree.get?_erase_move_other {disk : Disk} (tree : disk.IsTree) {old new other : Location}
    {entry : Entry} (hmove : disk.CanMove old new) (hold : ¬ old <+: other) (hnew : other ≠ new)
    (h : disk.get? other = some entry) :
    ((disk.erase new).move old new).get? other = some entry := by
  by_cases hnil : other = []
  · simpa [hnil] using h
  refine (tree.erase_move hmove).get?_of_mem (mem_move.mpr ⟨other, ?_, ?_⟩)
  · rw [Disk.erase, List.mem_filter]
    exact ⟨mem_of_get? hnil h, bne_iff_ne.mpr hnew⟩
  · exact Location.moved_of_not_prefix new hold

/-! ## Listings -/

theorem IsTree.nodup_children {disk : Disk} (tree : disk.IsTree) (directory : Location) :
    ((disk.children directory).map (·.1)).Nodup := by
  rw [children, ((sortBy_perm _ _).map _).nodup_iff, List.Nodup, List.pairwise_map,
    List.pairwise_filterMap]
  have hnodup := tree.nodup
  rw [List.Nodup, List.pairwise_map] at hnodup
  refine hnodup.imp ?_
  rintro ⟨a, entryA⟩ ⟨b, entryB⟩ hne childA hA childB hB heq
  dsimp only at hA hB
  split at hA
  · rename_i nameA hbelowA
    split at hB
    · rename_i nameB hbelowB
      cases hA
      cases hB
      rw [Location.below?_eq_some_iff] at hbelowA hbelowB
      have hname : nameA = nameB := heq
      exact hne (by rw [hbelowA, hbelowB, hname])
    · cases hB
  · cases hA

/-! ## Files in the place of files -/

/-- A walk that returns ends at the same place after a file was written to a place that held a file
or nothing. -/
theorem walkFrom_setAt_file {disk : Disk} {place : Place} (bytes : Bytes)
    (hdirectory : disk.at? place ≠ some .directory)
    (hlink : ∀ target, disk.at? place ≠ some (.link target)) {followsLast : Bool}
    {follow follow' : Place → List Text → Except DiskFault Place}
    (hfollow : ∀ here segments found, follow here segments = .ok found →
      follow' here segments = .ok found)
    {segments : List Text} {here found : Place}
    (h : disk.walkFrom followsLast follow here segments = .ok found) :
    (disk.setAt (.file bytes) place).walkFrom followsLast follow' here segments = .ok found := by
  -- The way to a place does not depend on what is there.
  have hchild (name : Text) (here : Place) :
      (disk.setAt (.file bytes) place).around.child name here = disk.around.child name here := by
    cases place <;> rfl
  have hparent (here : Place) :
      (disk.setAt (.file bytes) place).around.parent here = disk.around.parent here := by
    cases place <;> rfl
  have htop : (disk.setAt (.file bytes) place).around.place [] = disk.around.place [] := by
    cases place <;> rfl
  induction segments generalizing here with
  | nil => exact h
  | cons name rest ih =>
    rw [walkFrom_cons_eq_ok_iff] at h ⊢
    cases h with
    | skip noName walks => exact .skip noName (ih walks)
    | up upward walks => exact .up upward ((hparent here).symm ▸ ih walks)
    | arrive isName not_up last arrives not_directory not_link =>
      -- Where the walk ends there is a file now, or what was there.
      rw [← hchild] at arrives
      by_cases hplace : found = place
      · refine .arrive isName not_up last arrives ?_ fun _ target => ?_
        · simp [hplace, at?_setAt_self _ hdirectory]
        · simp [hplace, at?_setAt_self _ hdirectory]
      · rw [← at?_setAt_of_ne (.file bytes) hplace] at not_directory not_link
        exact .arrive isName not_up last arrives not_directory not_link
    | enter isName not_up directory walks =>
      have hplace : disk.around.child name here ≠ place := fun heq => hdirectory (heq ▸ directory)
      rw [← at?_setAt_of_ne (.file bytes) hplace, ← hchild] at directory
      exact .enter isName not_up directory ((hchild name here).symm ▸ ih walks)
    | follow isName not_up link goes_on walks =>
      have hplace : disk.around.child name here ≠ place := fun heq => hlink _ (heq ▸ link)
      rw [← at?_setAt_of_ne (.file bytes) hplace, ← hchild] at link
      refine .follow isName not_up link goes_on ?_
      rw [htop]
      exact hfollow _ _ _ walks

theorem locate_setAt_file {disk : Disk} {place : Place} (bytes : Bytes)
    (hdirectory : disk.at? place ≠ some .directory)
    (hlink : ∀ target, disk.at? place ≠ some (.link target)) {followsLast : Bool}
    {path : Path} {found : Place} (h : disk.locate followsLast path = .ok found) :
    (disk.setAt (.file bytes) place).locate followsLast path = .ok found := by
  have hwalk : ∀ links here segments found,
      disk.walk followsLast links here segments = .ok found →
        (disk.setAt (.file bytes) place).walk followsLast links here segments = .ok found := by
    intro links
    induction links with
    | zero =>
      intro here segments found h
      cases h
    | succ links ih =>
      intro here segments found h
      exact walkFrom_setAt_file bytes hdirectory hlink ih h
  have htop : (disk.setAt (.file bytes) place).around.place [] = disk.around.place [] := by
    cases place <;> rfl
  rw [locate] at h ⊢
  rw [htop]
  exact hwalk _ _ _ _ h

end Disk

end Namespacer
