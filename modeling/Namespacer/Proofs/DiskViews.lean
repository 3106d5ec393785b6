import Namespacer.Proofs.DiskTree

/-!
# One file system, seen from its directories

A disk shows the file system from one of its directories: the entries below that directory, and
its surroundings. `Disk.fromTop?` is the entry at a location from the top on, wherever the disk
has it, so two disks of different directories can be compared by it.

* `Disk.IsTree.get?_whole`: the disk of the top has the same entries.
* `Disk.IsTree.ofWhole`, `Disk.IsTree.fromTop?_ofWhole`: so has the disk of any directory.
* `Disk.ShowsSame`, `Disk.IsTree.showsSame_ofWhole`: a directory that is looked at instead of
  another one shows the same file system.
* `Disk.IsTree.rename`: renaming leads from trees to trees, also by paths that lead out of the
  directory of the disk.
-/

namespace Namespacer

namespace Surroundings

variable {around : Surroundings} {location : Location}

theorem place_append (around : Surroundings) (rest : Location) :
    around.place (around.home ++ rest) = .inside rest := by
  simp only [place, Location.below?_eq_some_iff.mpr rfl]

theorem place_of_not_isPrefix (h : ¬ around.home <+: location) :
    around.place location = .outside location := by
  simp only [place, Location.below?_eq_none_iff.mpr h]

end Surroundings

namespace Disk

variable {disk top : Disk} {home location : Location} {entry : Entry}

/-- The entry at a location from the top of the file system on. -/
def fromTop? (disk : Disk) (location : Location) : Option Entry :=
  disk.at? (disk.around.place location)

theorem fromTop?_append (disk : Disk) (rest : Location) :
    disk.fromTop? (disk.around.home ++ rest) = disk.get? rest := by
  rw [fromTop?, Surroundings.place_append, at?_inside]

theorem fromTop?_of_not_isPrefix (h : ¬ disk.around.home <+: location) :
    disk.fromTop? location = disk.around.get? location := by
  rw [fromTop?, Surroundings.place_of_not_isPrefix h, at?_outside]

/-- The directory of a disk is in directories. -/
theorem fromTop?_of_isPrefix (h : location <+: disk.around.home) :
    disk.fromTop? location = some .directory := by
  by_cases hhome : disk.around.home <+: location
  · have heq : disk.around.home = location := hhome.eq_of_length_le h.length_le
    rw [← heq, ← List.append_nil disk.around.home, fromTop?_append, get?_nil]
  · rw [fromTop?_of_not_isPrefix hhome, Surroundings.get?_of_isPrefix h]

/-- A location from the top on is at or above the directory of a disk, below it, or neither. -/
theorem isPrefix_cases (disk : Disk) (location : Location) :
    location <+: disk.around.home ∨ (∃ rest ≠ [], location = disk.around.home ++ rest) ∨
      (¬ location <+: disk.around.home ∧ ¬ disk.around.home <+: location) := by
  by_cases habove : location <+: disk.around.home
  · exact .inl habove
  by_cases hbelow : disk.around.home <+: location
  · obtain ⟨rest, rfl⟩ := hbelow
    refine .inr (.inl ⟨rest, ?_, rfl⟩)
    rintro rfl
    exact habove ((List.append_nil _).symm ▸ List.prefix_rfl)
  · exact .inr (.inr ⟨habove, hbelow⟩)

theorem IsTree.fromTop?_dropLast (tree : disk.IsTree) (h : disk.fromTop? location = some entry) :
    disk.fromTop? location.dropLast = some .directory := by
  rcases disk.isPrefix_cases location with habove | ⟨rest, hrest, rfl⟩ | ⟨-, hbelow⟩
  · exact fromTop?_of_isPrefix ((List.dropLast_prefix location).trans habove)
  · rw [fromTop?_append] at h
    rw [List.dropLast_append_of_ne_nil hrest, fromTop?_append]
    exact tree.get?_dropLast h
  · rw [fromTop?_of_not_isPrefix hbelow] at h
    rw [fromTop?_of_not_isPrefix fun hparent => hbelow (hparent.trans (List.dropLast_prefix _))]
    exact tree.around.get?_dropLast h

theorem IsTree.names_of_fromTop? (tree : disk.IsTree) (h : disk.fromTop? location = some entry) :
    ∀ name ∈ location, IsEntryName name := by
  rcases disk.isPrefix_cases location with habove | ⟨rest, -, rfl⟩ | ⟨-, hbelow⟩
  · exact fun name hname => tree.around.home name (habove.subset hname)
  · rw [fromTop?_append] at h
    rw [List.forall_mem_append]
    exact ⟨tree.around.home, tree.names_of_get? h⟩
  · rw [fromTop?_of_not_isPrefix hbelow] at h
    exact tree.around.names_of_get? h

/-! ## The disk of the top -/

/-- The locations on the way to another one. -/
theorem exists_take_iff :
    (∃ n < home.length, home.take (n + 1) = location) ↔ location ≠ [] ∧ location <+: home := by
  constructor
  · rintro ⟨n, hn, rfl⟩
    refine ⟨fun hnil => ?_, List.take_prefix _ _⟩
    have hlength := congrArg List.length hnil
    rw [List.length_take, List.length_nil] at hlength
    omega
  · rintro ⟨hne, hprefix⟩
    have hpositive := List.length_pos_iff.mpr hne
    have hlength := hprefix.length_le
    refine ⟨location.length - 1, by omega, ?_⟩
    rw [Nat.sub_add_cancel hpositive]
    exact (List.prefix_iff_eq_take.mp hprefix).symm

theorem mem_whole :
    (location, entry) ∈ disk.whole.entries ↔
      (location ≠ [] ∧ location <+: disk.around.home) ∧ entry = .directory ∨
      (location, entry) ∈ disk.around.entries ∨
      ∃ rest, (rest, entry) ∈ disk.entries ∧ disk.around.home ++ rest = location := by
  rw [Disk.whole, List.mem_append, List.mem_append, or_assoc, ← exists_take_iff]
  refine or_congr ?_ (or_congr .rfl ?_)
  · simp only [List.mem_map, List.mem_range, Prod.mk.injEq]
    constructor
    · rintro ⟨n, hn, htake, rfl⟩
      exact ⟨⟨n, hn, htake⟩, rfl⟩
    · rintro ⟨⟨n, hn, htake⟩, rfl⟩
      exact ⟨n, hn, htake, rfl⟩
  · simp only [List.mem_map, Prod.exists, Prod.mk.injEq]
    constructor
    · rintro ⟨rest, held, hmem, heq, rfl⟩
      exact ⟨rest, hmem, heq⟩
    · rintro ⟨rest, hmem, heq⟩
      exact ⟨rest, entry, hmem, heq, rfl⟩

/-- What the disk of the top lists is what is found from the top on. -/
theorem IsTree.mem_whole_iff (tree : disk.IsTree) (hne : location ≠ []) :
    (location, entry) ∈ disk.whole.entries ↔ disk.fromTop? location = some entry := by
  rw [mem_whole]
  rcases disk.isPrefix_cases location with habove | ⟨rest, hrest, rfl⟩ | ⟨habove, hbelow⟩
  · rw [fromTop?_of_isPrefix habove]
    constructor
    · rintro (⟨-, rfl⟩ | hmem | ⟨rest, hmem, rfl⟩)
      · rfl
      · exact absurd habove (tree.around.apart _ hmem).1
      · exact absurd (Location.eq_nil_of_append_isPrefix habove) (tree.inDirectory _ hmem).1
    · intro heq
      exact .inl ⟨⟨hne, habove⟩, (Option.some.inj heq).symm⟩
  · rw [fromTop?_append, tree.get?_eq_some_iff hrest]
    constructor
    · rintro (⟨⟨-, habove⟩, -⟩ | hmem | ⟨other, hmem, heq⟩)
      · exact absurd (Location.eq_nil_of_append_isPrefix habove) hrest
      · exact absurd (List.prefix_append _ _) (tree.around.apart _ hmem).2
      · rwa [List.append_cancel_left heq] at hmem
    · exact fun hmem => .inr (.inr ⟨rest, hmem, rfl⟩)
  · rw [fromTop?_of_not_isPrefix hbelow]
    constructor
    · rintro (⟨⟨-, hprefix⟩, -⟩ | hmem | ⟨rest, -, rfl⟩)
      · exact absurd hprefix habove
      · exact tree.around.get?_of_mem hmem
      · exact absurd (List.prefix_append _ _) hbelow
    · exact fun hget => .inr (.inl (Surroundings.mem_of_get? habove hget))

theorem IsTree.nodup_whole (tree : disk.IsTree) : (disk.whole.entries.map (·.1)).Nodup := by
  have habove : (((List.range disk.around.home.length).map fun n =>
      (disk.around.home.take (n + 1), Entry.directory)).map (·.1)).Nodup := by
    rw [List.map_map]
    refine List.nodup_range.map_on fun a ha b hb heq => ?_
    rw [List.mem_range] at ha hb
    have hlength := congrArg List.length heq
    simp only [Function.comp_apply, List.length_take] at hlength
    omega
  have hbelow : ((disk.entries.map fun entry => (disk.around.home ++ entry.1, entry.2)).map
      (·.1)).Nodup := by
    have hnodup := tree.nodup.map (List.append_right_injective disk.around.home)
    rw [List.map_map] at hnodup ⊢
    exact hnodup
  rw [Disk.whole, List.map_append, List.map_append, List.nodup_append, List.nodup_append]
  refine ⟨⟨habove, tree.around.nodup, ?_⟩, hbelow, ?_⟩
  · intro a ha b hb heq
    obtain ⟨_, hmem, rfl⟩ := List.mem_map.mp ha
    obtain ⟨n, -, rfl⟩ := List.mem_map.mp hmem
    obtain ⟨outer, houter, rfl⟩ := List.mem_map.mp hb
    exact (tree.around.apart outer houter).1 (heq ▸ List.take_prefix _ _)
  · intro a ha b hb heq
    obtain ⟨_, hmem, rfl⟩ := List.mem_map.mp hb
    obtain ⟨⟨rest, entry⟩, hinner, rfl⟩ := List.mem_map.mp hmem
    rw [← List.map_append, List.mem_map] at ha
    obtain ⟨⟨location, other⟩, hother, rfl⟩ := ha
    change location = disk.around.home ++ rest at heq
    subst heq
    rcases List.mem_append.mp hother with hother | hother
    · obtain ⟨n, -, htake⟩ := List.mem_map.mp hother
      have htake : disk.around.home.take (n + 1) = disk.around.home ++ rest := congrArg Prod.fst htake
      have habove : disk.around.home ++ rest <+: disk.around.home := by
        rw [← htake]
        exact List.take_prefix _ _
      exact (tree.inDirectory _ hinner).1 (Location.eq_nil_of_append_isPrefix habove)
    · exact (tree.around.apart _ hother).2 (List.prefix_append _ _)

/-- The disk of the top has every entry where it is from the top on. -/
theorem IsTree.get?_whole (tree : disk.IsTree) (location : Location) :
    disk.whole.get? location = disk.fromTop? location := by
  by_cases hnil : location = []
  · rw [hnil, get?_nil, fromTop?_of_isPrefix List.nil_prefix]
  refine Option.ext fun entry => ?_
  rw [← tree.mem_whole_iff hnil]
  refine ⟨mem_of_get? hnil, fun hmem => ?_⟩
  rw [get?_of_ne_nil hnil]
  exact lookup_of_mem tree.nodup_whole hmem

theorem ne_nil_of_mem_whole (tree : disk.IsTree) (h : (location, entry) ∈ disk.whole.entries) :
    location ≠ [] := by
  rintro rfl
  rcases mem_whole.mp h with ⟨⟨hne, -⟩, -⟩ | hmem | ⟨rest, hmem, heq⟩
  · exact hne rfl
  · exact (tree.around.apart _ hmem).1 List.nil_prefix
  · exact (tree.inDirectory _ hmem).1 (List.append_eq_nil_iff.mp heq).2

theorem IsTree.whole (tree : disk.IsTree) : disk.whole.IsTree := by
  have hsurroundings : ({} : Surroundings).IsTree := by decide
  refine ⟨hsurroundings, tree.nodup_whole, ?_, ?_⟩
  · rintro ⟨location, entry⟩ hmem
    have hne := ne_nil_of_mem_whole tree hmem
    exact tree.names_of_fromTop? ((tree.mem_whole_iff hne).mp hmem)
  · rintro ⟨location, entry⟩ hmem
    have hne := ne_nil_of_mem_whole tree hmem
    refine ⟨hne, ?_⟩
    rw [tree.get?_whole]
    exact tree.fromTop?_dropLast ((tree.mem_whole_iff hne).mp hmem)

/-! ## The disk of a directory -/

theorem mem_ofWhole :
    (location, entry) ∈ (ofWhole home top).entries ↔
      location ≠ [] ∧ (home ++ location, entry) ∈ top.entries := by
  simp only [ofWhole, List.mem_filterMap, Prod.exists, Option.map_eq_some_iff, Prod.mk.injEq,
    Location.inside?_eq_some_iff]
  constructor
  · rintro ⟨_, _, hmem, rest, ⟨hne, rfl⟩, rfl, rfl⟩
    exact ⟨hne, hmem⟩
  · rintro ⟨hne, hmem⟩
    exact ⟨_, entry, hmem, location, ⟨hne, rfl⟩, rfl, rfl⟩

theorem mem_around_ofWhole :
    (location, entry) ∈ (ofWhole home top).around.entries ↔
      (location, entry) ∈ top.entries ∧ ¬ home <+: location ∧ ¬ location <+: home := by
  simp only [ofWhole, List.mem_filter, Bool.and_eq_true, Option.isNone_iff_eq_none,
    Location.below?_eq_none_iff]

theorem IsTree.nodup_ofWhole (tree : top.IsTree) (home : Location) :
    ((ofWhole home top).entries.map (·.1)).Nodup := by
  have hlocations : (ofWhole home top).entries.map (·.1) =
      (top.entries.map (·.1)).filterMap (Location.inside? home) := by
    rw [ofWhole, List.map_filterMap, List.filterMap_map]
    refine List.filterMap_congr fun entry _ => ?_
    rw [Option.map_map]
    exact Option.map_id'
  rw [hlocations]
  refine tree.nodup.filterMap fun a b rest ha hb => ?_
  rw [Option.mem_def, Location.inside?_eq_some_iff] at ha hb
  rw [ha.2, hb.2]

/-- The disk of a directory has every entry where it is from the top on. -/
theorem IsTree.fromTop?_ofWhole (tree : top.IsTree) (h : top.get? home = some .directory)
    (location : Location) : (ofWhole home top).fromTop? location = top.get? location := by
  rcases (ofWhole home top).isPrefix_cases location with
    habove | ⟨rest, hrest, rfl⟩ | ⟨habove, hbelow⟩
  · rw [fromTop?_of_isPrefix habove]
    obtain ⟨rest, hhome⟩ := habove
    have hget : top.get? (location ++ rest) = some .directory := hhome ▸ h
    by_cases hrest : rest = []
    · rw [hrest, List.append_nil] at hget
      exact hget.symm
    · exact (tree.get?_above hrest hget).symm
  · have hne : home ++ rest ≠ [] := by simp [hrest]
    rw [fromTop?_append]
    refine Option.ext fun entry => ?_
    rw [show (ofWhole home top).around.home = home from rfl, tree.get?_eq_some_iff hne]
    constructor
    · exact fun hget => (mem_ofWhole.mp (mem_of_get? hrest hget)).2
    · intro hmem
      rw [get?_of_ne_nil hrest]
      exact lookup_of_mem (tree.nodup_ofWhole home) (mem_ofWhole.mpr ⟨hrest, hmem⟩)
  · have hne : location ≠ [] := by
      rintro rfl
      exact habove List.nil_prefix
    rw [fromTop?_of_not_isPrefix hbelow]
    refine Option.ext fun entry => ?_
    rw [tree.get?_eq_some_iff hne]
    constructor
    · exact fun hget => (mem_around_ofWhole.mp (Surroundings.mem_of_get? habove hget)).1
    · intro hmem
      rw [Surroundings.get?_of_not_isPrefix habove]
      refine lookup_of_mem ?_ (mem_around_ofWhole.mpr ⟨hmem, hbelow, habove⟩)
      exact tree.nodup.sublist (List.filter_sublist.map _)

theorem IsTree.ofWhole (tree : top.IsTree) (h : top.get? home = some .directory) :
    (ofWhole home top).IsTree := by
  have hget := tree.fromTop?_ofWhole h
  refine ⟨⟨?_, ?_, ?_, ?_, ?_⟩, tree.nodup_ofWhole home, ?_, ?_⟩
  · exact tree.nodup.sublist (List.filter_sublist.map _)
  · exact tree.names_of_get? h
  · rintro ⟨location, entry⟩ hmem
    exact tree.names _ (mem_around_ofWhole.mp hmem).1
  · rintro ⟨location, entry⟩ hmem
    exact ⟨(mem_around_ofWhole.mp hmem).2.2, (mem_around_ofWhole.mp hmem).2.1⟩
  · rintro ⟨location, entry⟩ hmem
    obtain ⟨hmem, hbelow, -⟩ := mem_around_ofWhole.mp hmem
    have hparent := (tree.inDirectory _ hmem).2
    rw [← hget, fromTop?_of_not_isPrefix] at hparent
    · exact hparent
    · exact fun hhome => hbelow (hhome.trans (List.dropLast_prefix _))
  · rintro ⟨location, entry⟩ hmem name hname
    exact tree.names _ (mem_ofWhole.mp hmem).2 name (List.mem_append_right home hname)
  · rintro ⟨location, entry⟩ hmem
    obtain ⟨hne, hmem⟩ := mem_ofWhole.mp hmem
    have hparent := (tree.inDirectory _ hmem).2
    rw [List.dropLast_append_of_ne_nil hne, ← hget] at hparent
    exact ⟨hne, ((Disk.ofWhole home top).fromTop?_append location.dropLast).symm.trans hparent⟩

/-! ## One file system -/

/-- Two disks show the same file system. -/
def ShowsSame (disk other : Disk) : Prop :=
  ∀ location, disk.fromTop? location = other.fromTop? location

theorem ShowsSame.symm {other : Disk} (h : disk.ShowsSame other) : other.ShowsSame disk :=
  fun location => (h location).symm

theorem ShowsSame.trans {middle other : Disk} (h : disk.ShowsSame middle)
    (h' : middle.ShowsSame other) : disk.ShowsSame other :=
  fun location => (h location).trans (h' location)

/-- Seen from another directory, the file system is the same. -/
theorem IsTree.showsSame_ofWhole (tree : disk.IsTree) (h : disk.fromTop? home = some .directory) :
    (Disk.ofWhole home disk.whole).ShowsSame disk := by
  intro location
  rw [← tree.get?_whole] at h ⊢
  exact tree.whole.fromTop?_ofWhole h location

theorem IsTree.ofWhole_whole (tree : disk.IsTree) (h : disk.fromTop? home = some .directory) :
    (Disk.ofWhole home disk.whole).IsTree := by
  rw [← tree.get?_whole] at h
  exact tree.whole.ofWhole h

/-! ## Renaming -/

theorem IsTree.isPlace_whole (tree : disk.IsTree) {place : Place} (h : disk.IsPlaceAt place) :
    disk.whole.IsPlace (disk.around.fromTop place) := by
  cases place with
  | inside location =>
    have hplace : disk.IsPlace location := h
    refine ⟨List.forall_mem_append.mpr ⟨tree.around.home, hplace.names⟩, ?_⟩
    rw [tree.get?_whole, Surroundings.fromTop]
    by_cases hnil : location = []
    · rw [hnil, List.append_nil]
      exact fromTop?_of_isPrefix (List.dropLast_prefix _)
    · rw [List.dropLast_append_of_ne_nil hnil, fromTop?_append, hplace.inDirectory]
  | outside location =>
    have hplace : disk.around.IsPlace location := h
    refine ⟨hplace.names, ?_⟩
    rw [tree.get?_whole, Surroundings.fromTop, fromTop?_of_not_isPrefix, hplace.inDirectory]
    exact fun hhome => hplace.apart (hhome.trans (List.dropLast_prefix _))

/-- A directory that is not at or below what is renamed is a directory afterwards. -/
theorem IsTree.get?_renameAt_directory {disk' : Disk} (tree : disk.IsTree) {old new : Location}
    (hplace : disk.IsPlace new) (h : disk.renameAt old new = .ok disk')
    (hget : disk.get? location = some .directory) (hapart : ¬ old <+: location) :
    disk'.get? location = some .directory := by
  obtain ⟨-, rfl⟩ | ⟨hmove, rfl⟩ := tree.renameAt_cases hplace h
  · exact hget
  by_cases hne : location = new
  · -- Only a directory takes the place of a directory.
    subst hne
    have hold : disk.get? old = some .directory := by
      have hdiffers : old ≠ location := by
        rintro rfl
        exact hapart List.prefix_rfl
      rw [Disk.renameAt] at h
      split at h
      · cases h
      · rename_i entry hentry
        rw [if_neg hdiffers] at h
        cases entry with
        | directory => exact hentry
        | file bytes =>
          simp only [hget] at h
          cases h
        | link target =>
          simp only [hget] at h
          cases h
    exact tree.get?_erase_move_new hmove hold
  · exact tree.get?_erase_move_other hmove hapart hne hget

/-- Renaming leads from trees to trees. -/
theorem IsTree.rename {disk' : Disk} (tree : disk.IsTree) {oldPath newPath : Path}
    (h : disk.rename oldPath newPath = .ok disk') : disk'.IsTree := by
  rw [Disk.rename] at h
  cases hold : disk.locate false oldPath with
  | error fault =>
    rw [hold] at h
    cases h
  | ok old =>
  cases hnew : disk.locate false newPath with
  | error fault =>
    rw [hold, hnew] at h
    cases h
  | ok new =>
  rw [hold, hnew] at h
  simp only [bind, Except.bind] at h
  split at h
  · exact tree.renameAt (tree.isPlace_of_locate hnew) h
  -- One of the paths leads out of the directory of the disk.
  split at h
  · cases h
  rename_i hinside
  split at h
  · cases h
  · rename_i renamed hrenamed
    cases h
    rw [Option.isSome_iff_ne_none, not_not, Location.below?_eq_none_iff] at hinside
    have hplace := tree.isPlace_whole (tree.locate_ok hnew).isPlace
    refine (tree.whole.renameAt hplace hrenamed).ofWhole ?_
    refine tree.whole.get?_renameAt_directory hplace hrenamed ?_ hinside
    rw [tree.get?_whole]
    exact fromTop?_of_isPrefix List.prefix_rfl

end Disk

end Namespacer
