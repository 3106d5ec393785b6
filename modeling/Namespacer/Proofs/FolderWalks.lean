import Namespacer.Proofs.SettledFolders

/-!
# Walks through folders

Folders are renamed by a walk: the directories that are pending are swept one after another,
and the folders of a swept directory that are not left alone become pending in its place. What
has been swept is not looked at again, and what lies below a pending directory has not been
looked at yet. So each folder has one turn, at which the directory that it lies in is where it
stays, and the folder has the name that it had at the start.

* `Disk.Walks`: a walk from some pending directories to others that are still waiting.
* `Disk.Walks.isUnder_old`, `Disk.Walks.carry_eq`: a walk changes locations below its pending
  directories only.
* `Disk.Walks.exists_source`: what lies at or below a waiting directory is as it was.
* `Disk.Turn`, `Disk.TurnOrStays`, `Disk.Walks.turn_or_stays`: in a walk that has come to its
  end, a folder that lies in no folder that is left alone has had its turn, and everything else
  has kept its name.
* `Disk.Walks.topDown`: a folder is renamed before those below it.
* `Job.walks_of_returns_renameFolders`: renaming the folders of a project is a walk.
-/

namespace Namespacer

namespace FolderRename

variable {directory : Location} {renames : List FolderRename}

/-- What lies below a folder is carried along with it. -/
theorem AllIn.carry_below (h : AllIn directory renames) {name other : Text}
    (hname : carry renames (directory ++ [name]) = directory ++ [other]) (rest : List Text) :
    carry renames (directory ++ name :: rest) = directory ++ other :: rest := by
  obtain ⟨found, hfound⟩ := h.carry_append name
  rw [hfound, List.append_cancel_left_eq, List.cons.injEq] at hname
  rw [hfound, hname.1]

end FolderRename

namespace Disk

open FolderRename

variable {excludes : Text → Bool} {before middle after : Disk} {directory : Location}
  {names : List Text} {folders pending waiting : List Location}
  {renames others : List FolderRename}

/-! ## The turn of a folder -/

/-- What becomes of a folder when its turn comes, at a time between some renames and others:
it keeps its name, or it gets its PascalCase name, and afterwards it stays. Before its turn it
is carried from its location to the name in the directory `here`. -/
inductive Turn (excludes : Text → Bool) (before after : Disk) (renames : List FolderRename)
    (location here : Location) (name : Text) : Prop where
  | keep {middle : Disk} {earlier later : List FolderRename} (split : renames = earlier ++ later)
      (done : FolderMoves excludes before earlier middle)
      (arrives : carry earlier location = here ++ [name]) (keeps : middle.KeepsName here name)
      (stays : carry later (here ++ [name]) = here ++ [name])
  | move {middle : Disk} {earlier later : List FolderRename}
      (split : renames = earlier ++ ⟨here ++ [name], here ++ [pascalCase name]⟩ :: later)
      (done : FolderMoves excludes before earlier middle)
      (arrives : carry earlier location = here ++ [name])
      (can : middle.CanRename excludes here name)
      (stays : carry later (here ++ [pascalCase name]) = here ++ [pascalCase name])

namespace Turn

variable {location here : Location} {name : Text}

/-- A turn after other renames. -/
theorem prepend (h : Turn excludes middle after others (carry renames location) here name)
    (hmoves : FolderMoves excludes before renames middle) :
    Turn excludes before after (renames ++ others) location here name := by
  cases h with
  | keep split done arrives keeps stays =>
    refine .keep ?_ (hmoves.append done) ?_ keeps stays
    · rw [split, List.append_assoc]
    · rw [carry_append, arrives]
  | move split done arrives can stays =>
    refine .move ?_ (hmoves.append done) ?_ can stays
    · rw [split, List.append_assoc]
    · rw [carry_append, arrives]

/-- A turn before other renames that leave the folder where it is. -/
theorem append (h : Turn excludes before middle renames location here name)
    (hstays : ∀ other, carry others (here ++ [other]) = here ++ [other]) :
    Turn excludes before after (renames ++ others) location here name := by
  cases h with
  | @keep _ earlier later split done arrives keeps stays =>
    have hsplit : renames ++ others = earlier ++ (later ++ others) := by
      rw [split, List.append_assoc]
    exact .keep hsplit done arrives keeps (by rw [carry_append, stays, hstays])
  | @move _ earlier later split done arrives can stays =>
    have hsplit : renames ++ others =
        earlier ++ ⟨here ++ [name], here ++ [pascalCase name]⟩ :: (later ++ others) := by
      rw [split, List.append_assoc, List.cons_append]
    exact .move hsplit done arrives can (by rw [carry_append, stays, hstays])

end Turn

namespace Sweeps

/-- A swept folder that is not left alone has its turn. -/
theorem turn (h : Sweeps excludes directory before names folders renames after)
    (tree : before.IsTree) (hnodup : names.Nodup)
    (hnames : ∀ name ∈ names, before.get? (directory ++ [name]) = some .directory) {name : Text}
    (hname : name ∈ names) (hentered : leavesFolder excludes (directory ++ [name]) = false) :
    Turn excludes before after renames (directory ++ [name]) directory name := by
  induction h with
  | nil disk => cases hname
  | leave hleft _ ih =>
    rw [List.nodup_cons] at hnodup
    rw [List.forall_mem_cons] at hnames
    rcases List.mem_cons.mp hname with rfl | hname
    · rw [hentered] at hleft
      cases hleft
    · exact ih tree hnodup.2 hnames.2 hname
  | keep _ hkeeps rest ih =>
    rw [List.nodup_cons] at hnodup
    rw [List.forall_mem_cons] at hnames
    rcases List.mem_cons.mp hname with rfl | hname
    · exact .keep rfl (.nil _) rfl hkeeps (rest.carry_of_not_mem hnodup.1)
    · exact ih tree hnodup.2 hnames.2 hname
  | @move disk after old names folders renames hcan rest ih =>
    rw [List.nodup_cons] at hnodup
    rw [List.forall_mem_cons] at hnames
    rcases List.mem_cons.mp hname with rfl | hname
    · have hfree := hcan.pascalCase_not_mem hnames.2
      exact .move rfl (.nil _) rfl hcan (rest.carry_of_not_mem hfree)
    · have hne : name ≠ old := fun heq => hnodup.1 (heq ▸ hname)
      have hstays : carry [⟨directory ++ [old], directory ++ [pascalCase old]⟩]
          (directory ++ [name]) = directory ++ [name] := by
        refine carry_of_not_prefix ?_
        rw [List.forall_mem_singleton, List.prefix_append_right_inj, List.cons_prefix_cons]
        exact fun heq => hne heq.1.symm
      have hturn := ih (hcan.isTree tree) hnodup.2
        (hcan.get?_move_names tree hnodup.1 hnames.2) hname
      rw [← hstays] at hturn
      exact hturn.prepend (.cons hcan (.nil _))

/-- Different folders of a directory are carried to different locations. -/
theorem carry_inj (h : Sweeps excludes directory before names folders renames after)
    (tree : before.IsTree) {a b : Text}
    (ha : before.get? (directory ++ [a]) = some .directory)
    (hb : before.get? (directory ++ [b]) = some .directory)
    (heq : carry renames (directory ++ [a]) = carry renames (directory ++ [b])) : a = b := by
  have hplace := (h.folderMoves.relabels tree).apart _ _ _ _ ha hb heq
  rw [List.append_cancel_left_eq, List.cons.injEq] at hplace
  exact hplace.1

/-- A swept folder that is not left alone is one to go on with, where it has been carried to. -/
theorem exists_image (h : Sweeps excludes directory before names folders renames after)
    (tree : before.IsTree) (hnodup : names.Nodup)
    (hnames : ∀ name ∈ names, before.get? (directory ++ [name]) = some .directory) {name : Text}
    (hname : name ∈ names) (hentered : leavesFolder excludes (directory ++ [name]) = false) :
    ∃ folder ∈ folders, ∀ rest, carry renames (directory ++ name :: rest) = folder ++ rest := by
  obtain ⟨other, hother⟩ := h.allIn.carry_append name
  refine ⟨carry renames (directory ++ [name]), ?_, fun rest => ?_⟩
  · rw [h.folders_eq tree hnodup hnames, List.mem_map]
    exact ⟨name, List.mem_filter.mpr ⟨hname, by simp [hentered]⟩, rfl⟩
  · rw [hother, hother, ← List.append_cons]

/-- What lies at or below a folder to go on with is as it was in the directory. -/
theorem exists_source (h : Sweeps excludes directory before names folders renames after)
    (tree : before.IsTree) (hnodup : names.Nodup)
    (hnames : ∀ name ∈ names, before.get? (directory ++ [name]) = some .directory)
    {folder : Location} (hfolder : folder ∈ folders) :
    ∃ name ∈ names, leavesFolder excludes (directory ++ [name]) = false ∧
      (∀ rest, carry renames (directory ++ name :: rest) = folder ++ rest) ∧
      ∀ rest, after.get? (folder ++ rest) = before.get? (directory ++ name :: rest) := by
  rw [h.folders_eq tree hnodup hnames, List.mem_map] at hfolder
  obtain ⟨name, hmem, rfl⟩ := hfolder
  rw [List.mem_filter, Bool.not_eq_true'] at hmem
  obtain ⟨other, hother⟩ := h.allIn.carry_append name
  have hcarry (rest : List Text) : carry renames (directory ++ name :: rest) =
      carry renames (directory ++ [name]) ++ rest := by
    rw [hother, hother, ← List.append_cons]
  have hrelabels := h.folderMoves.relabels tree
  refine ⟨name, hmem.1, hmem.2, hcarry, fun rest => ?_⟩
  refine Option.ext fun entry => ⟨fun hget => ?_, fun hget => ?_⟩
  · obtain ⟨source, hsource, heq⟩ := hrelabels.onto _ _ hget
    rw [hother, List.append_assoc, List.singleton_append] at heq
    have hbelow : directory.IsBelow source := h.allIn.isBelow_carry_iff.mp ⟨other, rest, heq⟩
    obtain ⟨first, more, rfl⟩ := hbelow
    obtain ⟨image, himage⟩ := h.allIn.carry_append first
    rw [himage, List.append_cancel_left_eq, List.cons.injEq] at heq
    obtain ⟨rfl, rfl⟩ := heq
    have hfirst : before.get? (directory ++ [first]) = some .directory := by
      by_cases hmore : more = []
      · subst hmore
        -- What the folder to go on with was carried from is a folder.
        have hkept := hrelabels.kept _ _ (hnames name hmem.1)
        rw [List.append_nil, hkept] at hget
        rw [hsource, ← hget]
      · rw [List.append_cons] at hsource
        exact tree.get?_above hmore hsource
    rw [h.carry_inj tree (hnames name hmem.1) hfirst ((hother []).trans (himage []).symm)]
    exact hsource
  · rw [← hcarry]
    exact hrelabels.kept _ _ hget

/-- No rename in a directory is of a folder below another one. -/
theorem topDown (h : Sweeps excludes directory before names folders renames after) :
    renames.Pairwise fun earlier later => ¬ later.old.IsBelow earlier.new := by
  refine List.pairwise_of_forall_mem_list fun earlier hearlier later hlater hbelow => ?_
  obtain ⟨old, name, rfl⟩ := h.allIn earlier hearlier
  obtain ⟨other, kept, rfl⟩ := h.allIn later hlater
  have hle := (Location.isBelow_concat_iff.mp hbelow).length_le
  rw [List.length_append, List.length_singleton] at hle
  omega

end Sweeps

/-! ## Walks -/

/-- A walk: pending directories are swept one after another, and the folders to go on with are
pending in the place of the directory, until those that are waiting are left. -/
inductive Walks (excludes : Text → Bool) (waiting : List Location) :
    Disk → List Location → List FolderRename → Disk → Prop where
  | stop (disk : Disk) : Walks excludes waiting disk waiting [] disk
  | sweep {disk middle after : Disk} {directory : Location} {names : List Text}
      {folders pending : List Location} {renames others : List FolderRename}
      (nodup : names.Nodup)
      (listed : ∀ name, name ∈ names ↔ disk.get? (directory ++ [name]) = some .directory)
      (sweeps : Sweeps excludes directory disk names folders renames middle)
      (rest : Walks excludes waiting middle (folders.reverse ++ pending) others after) :
      Walks excludes waiting disk (directory :: pending) (renames ++ others) after

namespace IsPending

variable {disk : Disk} (h : disk.IsPending (directory :: pending))
include h

/-- No other pending directory lies on one way with a pending directory. -/
theorem not_prefix {top location : Location} (htop : top ∈ pending) (hle : top <+: location) :
    ¬ directory <+: location := by
  intro hdirectory
  have hapart := (List.pairwise_cons.mp h.apart).1 top htop
  rcases List.prefix_or_prefix_of_prefix hle hdirectory with hle | hle
  · exact hapart.2 hle
  · exact hapart.1 hle

/-- The directory and what is in it lie below no directory that is pending after it. -/
theorem not_isBelow_next (hfolders : ∀ folder ∈ folders, ∃ name, folder = directory ++ [name])
    {location : Location} {name : Text} (hlocation : location <+: directory ++ [name]) :
    ∀ top ∈ folders.reverse ++ pending, ¬ top.IsBelow location := by
  intro top htop hbelow
  have hle := Location.isBelow_concat_iff.mp (hbelow.trans_isPrefix hlocation)
  rcases List.mem_append.mp htop with htop | htop
  · obtain ⟨other, rfl⟩ := hfolders top (List.mem_reverse.mp htop)
    have hlength := hle.length_le
    rw [List.length_append, List.length_singleton] at hlength
    omega
  · exact h.not_prefix htop hle List.prefix_rfl

end IsPending

/-- Nothing in a folder that is left alone lies below a directory that is pending afterwards. -/
theorem Sweeps.not_isBelow_next (h : Sweeps excludes directory before names folders renames after)
    (tree : before.IsTree) (hnodup : names.Nodup)
    (hnames : ∀ name ∈ names, before.get? (directory ++ [name]) = some .directory)
    (hpending : before.IsPending (directory :: pending)) {name : Text}
    (hname : before.get? (directory ++ [name]) = some .directory)
    (hleft : leavesFolder excludes (directory ++ [name]) = true) (rest : List Text) :
    ∀ top ∈ folders.reverse ++ pending, ¬ top.IsBelow (directory ++ name :: rest) := by
  intro top htop hbelow
  rcases List.mem_append.mp htop with htop | htop
  · obtain ⟨other, hother, hentered, hcarry, -⟩ :=
      h.exists_source tree hnodup hnames (List.mem_reverse.mp htop)
    obtain ⟨found, rfl⟩ := h.exists_folder top (List.mem_reverse.mp htop)
    have hle := hbelow.isPrefix
    rw [List.prefix_append_right_inj, List.cons_prefix_cons] at hle
    have hother' := hcarry []
    rw [List.append_nil, hle.1, ← h.carry_of_left hleft] at hother'
    rw [h.carry_inj tree (hnames other hother) hname hother', hleft] at hentered
    cases hentered
  · exact hpending.not_prefix htop hbelow.isPrefix (List.prefix_append _ _)

namespace Walks

theorem folderMoves (h : Walks excludes waiting before pending renames after) :
    FolderMoves excludes before renames after := by
  induction h with
  | stop disk => exact .nil disk
  | sweep _ _ sweeps _ ih => exact sweeps.folderMoves.append ih

/-- A walk renames folders in directories that lie at or below the pending ones. -/
theorem isUnder_old (h : Walks excludes waiting before pending renames after) :
    ∀ rename ∈ renames, ∃ here old new, rename = ⟨here ++ [old], here ++ [new]⟩ ∧
      ∃ top ∈ pending, top <+: here := by
  induction h with
  | stop disk => simp
  | @sweep disk middle after directory names folders pending renames others _ _ sweeps _ ih =>
    intro rename hrename
    rcases List.mem_append.mp hrename with hrename | hrename
    · obtain ⟨old, new, rfl⟩ := sweeps.allIn rename hrename
      exact ⟨directory, old, new, rfl, directory, List.mem_cons_self, List.prefix_rfl⟩
    · obtain ⟨here, old, new, rfl, top, htop, hle⟩ := ih rename hrename
      refine ⟨here, old, new, rfl, ?_⟩
      rcases List.mem_append.mp htop with htop | htop
      · obtain ⟨name, rfl⟩ := sweeps.exists_folder top (List.mem_reverse.mp htop)
        exact ⟨directory, List.mem_cons_self, (List.prefix_append _ _).trans hle⟩
      · exact ⟨top, List.mem_cons_of_mem directory htop, hle⟩

/-- What lies below no pending directory stays. -/
theorem carry_eq (h : Walks excludes waiting before pending renames after) {location : Location}
    (hlocation : ∀ top ∈ pending, ¬ top.IsBelow location) : carry renames location = location := by
  refine carry_of_not_prefix fun rename hrename hle => ?_
  obtain ⟨here, old, new, rfl, top, htop, htop'⟩ := h.isUnder_old rename hrename
  exact hlocation top htop ((Location.isBelow_concat_iff.mpr htop').trans_isPrefix hle)

/-- A folder is renamed before the folders below it. -/
theorem topDown (h : Walks excludes waiting before pending renames after) (tree : before.IsTree)
    (hpending : before.IsPending pending) :
    renames.Pairwise fun earlier later => ¬ later.old.IsBelow earlier.new := by
  induction h with
  | stop disk => exact .nil
  | @sweep disk middle after directory names folders pending renames others nodup listed sweeps
      rest ih =>
    have hnext := sweeps.isPending tree nodup (fun name => (listed name).mp) hpending
    rw [List.pairwise_append]
    refine ⟨sweeps.topDown, ih (sweeps.folderMoves.isTree tree) hnext, ?_⟩
    intro earlier hearlier later hlater hbelow
    obtain ⟨old, name, rfl⟩ := sweeps.allIn earlier hearlier
    obtain ⟨here, other, new, rfl, top, htop, hle⟩ := rest.isUnder_old later hlater
    have hbelow' : top.IsBelow (directory ++ [name]) :=
      (Location.isBelow_concat_iff.mpr hle).trans_isPrefix hbelow.isPrefix
    exact hpending.not_isBelow_next sweeps.exists_folder List.prefix_rfl top htop hbelow'

/-- What lies at or below a waiting directory is as it was. -/
theorem exists_source (h : Walks excludes waiting before pending renames after)
    (tree : before.IsTree) (hpending : before.IsPending pending) {top : Location}
    (htop : top ∈ waiting) :
    ∃ source, (∃ first ∈ pending, first <+: source) ∧
      (∀ rest, carry renames (source ++ rest) = top ++ rest) ∧
      ∀ rest, after.get? (top ++ rest) = before.get? (source ++ rest) := by
  induction h with
  | stop disk => exact ⟨top, ⟨top, htop, List.prefix_rfl⟩, fun _ => rfl, fun _ => rfl⟩
  | @sweep disk middle after directory names folders pending renames others nodup listed sweeps
      _ ih =>
    have hnames : ∀ name ∈ names, disk.get? (directory ++ [name]) = some .directory :=
      fun name => (listed name).mp
    obtain ⟨source, ⟨first, hfirst, hle⟩, hcarry, hget⟩ := ih (sweeps.folderMoves.isTree tree)
      (sweeps.isPending tree nodup hnames hpending)
    rcases List.mem_append.mp hfirst with hfirst | hfirst
    · obtain ⟨name, -, -, hname, hsame⟩ :=
        sweeps.exists_source tree nodup hnames (List.mem_reverse.mp hfirst)
      obtain ⟨more, rfl⟩ := hle
      refine ⟨directory ++ name :: more, ⟨directory, List.mem_cons_self, List.prefix_append _ _⟩,
        fun rest => ?_, fun rest => ?_⟩
      · rw [carry_append, List.append_assoc, List.cons_append, hname, ← List.append_assoc, hcarry]
      · rw [hget, List.append_assoc, hsame, List.append_assoc, List.cons_append]
    · have houtside (rest : List Text) : ¬ directory.IsBelow (source ++ rest) := fun hbelow =>
        hpending.not_prefix hfirst (hle.trans (List.prefix_append _ _)) hbelow.isPrefix
      refine ⟨source, ⟨first, List.mem_cons_of_mem directory hfirst, hle⟩, fun rest => ?_,
        fun rest => ?_⟩
      · rw [carry_append, sweeps.allIn.carry_eq (houtside rest), hcarry]
      · rw [hget, sweeps.folderMoves.get?_of_not_isBelow tree sweeps.allIn (houtside rest)]

end Walks

/-! ## Turns in a walk -/

/-- Whether no folder on the way from a directory along some names is left alone, each seen
under its own name in the place where the directory that it lies in is after the renames. -/
def Opens (excludes : Text → Bool) (renames : List FolderRename) (top : Location)
    (names : List Text) : Prop :=
  ∀ above name, above ++ [name] <+: names →
    leavesFolder excludes (carry renames (top ++ above) ++ [name]) = false

theorem opens_cons {top : Location} {name : Text} {rest : List Text} :
    Opens excludes renames top (name :: rest) ↔
      leavesFolder excludes (carry renames top ++ [name]) = false ∧
        Opens excludes renames (top ++ [name]) rest := by
  constructor
  · intro h
    refine ⟨?_, fun above other hle => ?_⟩
    · simpa using h [] name (by simp)
    · simpa using h (name :: above) other (by simpa using hle)
  · rintro ⟨hname, hrest⟩ above other hle
    cases above with
    | nil =>
      rw [List.nil_append, List.cons_prefix_cons] at hle
      rw [List.append_nil, hle.1]
      exact hname
    | cons first above =>
      rw [List.cons_append, List.cons_prefix_cons] at hle
      have hother := hrest above other hle.2
      rwa [← List.append_cons, ← hle.1] at hother

/-- The way ends at a folder that is left alone. -/
theorem not_opens_of_left {top : Location} {name : Text} {rest : List Text}
    (hself : carry renames top = top) (hleft : leavesFolder excludes (top ++ [name]) = true) :
    ¬ Opens excludes renames top (name :: rest) := by
  intro hopens
  have hname := (opens_cons.mp hopens).1
  rw [hself, hleft] at hname
  cases hname

theorem opens_congr {top top' : Location} {names : List Text}
    (h : ∀ rest, carry renames (top ++ rest) = carry others (top' ++ rest)) :
    Opens excludes renames top names ↔ Opens excludes others top' names := by
  simp only [Opens, h]

/-- What has become of an entry below a directory: it is a folder, no folder on the way to it is
left alone, and it has had its turn; or it is none, or one of them is left alone, and it has kept
its name. -/
def TurnOrStays (excludes : Text → Bool) (before after : Disk) (renames : List FolderRename)
    (top : Location) (rest : List Text) (name : Text) (entry : Entry) : Prop :=
  entry = .directory ∧ Opens excludes renames top (rest ++ [name]) ∧
      Turn excludes before after renames (top ++ rest ++ [name]) (carry renames (top ++ rest)) name ∨
    (entry = .directory → ¬ Opens excludes renames top (rest ++ [name])) ∧
      carry renames (top ++ rest ++ [name]) = carry renames (top ++ rest) ++ [name]

/-- What becomes of an entry after renames that carry everything below a place to an image. -/
theorem TurnOrStays.prepend {top image : Location} {rest : List Text} {name : Text}
    {entry : Entry} (h : TurnOrStays excludes middle after others image rest name entry)
    (way : List Text) (hmoves : FolderMoves excludes before renames middle)
    (hcarry : ∀ more, carry renames (top ++ (way ++ more)) = image ++ more)
    (hopens : Opens excludes (renames ++ others) top (way ++ (rest ++ [name])) ↔
      Opens excludes others image (rest ++ [name])) :
    TurnOrStays excludes before after (renames ++ others) top (way ++ rest) name entry := by
  have hlocation : carry renames (top ++ (way ++ rest) ++ [name]) = image ++ rest ++ [name] := by
    rw [List.append_assoc, List.append_assoc, hcarry, List.append_assoc]
  have hparent : carry (renames ++ others) (top ++ (way ++ rest)) = carry others (image ++ rest) := by
    rw [carry_append, hcarry]
  rw [TurnOrStays, List.append_assoc way, hopens, hparent, carry_append, hlocation]
  refine h.imp_left fun hturn => ⟨hturn.1, hturn.2.1, ?_⟩
  have hfound := hturn.2.2
  rw [← hlocation] at hfound
  exact hfound.prepend hmoves

/-- What lies in a folder that is left alone stays, if renaming leaves all that is there. -/
theorem turnOrStays_of_left {top : Location} {first : Text} (hself : carry renames top = top)
    (hleft : leavesFolder excludes (top ++ [first]) = true)
    (hrigid : ∀ more, carry renames (top ++ first :: more) = top ++ first :: more)
    (rest : List Text) (name : Text) (entry : Entry) :
    TurnOrStays excludes before after renames top (first :: rest) name entry := by
  refine .inr ⟨fun _ => not_opens_of_left hself hleft, ?_⟩
  rw [hrigid, List.append_assoc, List.cons_append, hrigid]

/-- What is in a directory that is swept has its turn in the sweep, if ever. -/
theorem Sweeps.turnOrStays_child
    (h : Sweeps excludes directory before names folders renames middle) (tree : before.IsTree)
    (hnodup : names.Nodup)
    (hlisted : ∀ name, name ∈ names ↔ before.get? (directory ++ [name]) = some .directory)
    (hself : carry (renames ++ others) directory = directory)
    (hchild : ∀ other, carry others (directory ++ [other]) = directory ++ [other]) {name : Text}
    {entry : Entry} (hget : before.get? (directory ++ [name]) = some entry) :
    TurnOrStays excludes before after (renames ++ others) directory [] name entry := by
  rw [TurnOrStays, List.append_nil, List.nil_append, hself]
  by_cases hentry : entry = .directory
  · subst hentry
    cases hleft : leavesFolder excludes (directory ++ [name]) with
    | true =>
      refine .inr ⟨fun _ => not_opens_of_left hself hleft, ?_⟩
      rw [carry_append, h.carry_of_left hleft, hchild]
    | false =>
      have hturn := h.turn tree hnodup (fun name => (hlisted name).mp) ((hlisted name).mpr hget) hleft
      refine .inl ⟨rfl, opens_cons.mpr ⟨?_, ?_⟩, hturn.append hchild⟩
      · rw [hself, hleft]
      · simp [Opens]
  · refine .inr ⟨fun heq => absurd heq hentry, ?_⟩
    rw [carry_append, h.carry_of_not_mem, hchild]
    intro hname
    rw [(hlisted name).mp hname] at hget
    exact hentry (Option.some.inj hget).symm

/-- When a walk has come to its end, a folder at or below a directory that was pending has had
its turn if no folder on the way to it is left alone. Everything else has kept its name. -/
theorem Walks.turn_or_stays (h : Walks excludes [] before pending renames after)
    (tree : before.IsTree) (hpending : before.IsPending pending) {top : Location}
    (htop : top ∈ pending) (rest : List Text) {name : Text} {entry : Entry}
    (hget : before.get? (top ++ rest ++ [name]) = some entry) :
    TurnOrStays excludes before after renames top rest name entry := by
  induction h generalizing top rest with
  | stop disk => cases htop
  | @sweep disk middle after directory names folders pending renames others nodup listed sweeps
      walks ih =>
    have hnames : ∀ name ∈ names, disk.get? (directory ++ [name]) = some .directory :=
      fun name => (listed name).mp
    have hnext := sweeps.isPending tree nodup hnames hpending
    have tree' := sweeps.folderMoves.isTree tree
    have hkept := (sweeps.folderMoves.relabels tree).kept _ _ hget
    -- The sweep and the walk after it leave the directory, and the walk what is in it.
    have hchild (other : Text) : carry others (directory ++ [other]) = directory ++ [other] :=
      walks.carry_eq (hpending.not_isBelow_next sweeps.exists_folder List.prefix_rfl)
    have hself : carry (renames ++ others) directory = directory := by
      rw [carry_append, sweeps.allIn.carry_eq (Location.not_isBelow_self _)]
      exact walks.carry_eq (hpending.not_isBelow_next sweeps.exists_folder
        (List.prefix_append directory [name]))
    rcases List.mem_cons.mp htop with rfl | htop
    · cases rest with
      | nil =>
        rw [List.append_nil] at hget
        exact sweeps.turnOrStays_child tree nodup listed hself hchild hget
      | cons first rest =>
        rw [List.append_assoc, List.cons_append] at hkept hget
        have hfirst : disk.get? (top ++ [first]) = some .directory := by
          rw [List.append_cons] at hget
          exact tree.get?_above (by simp) hget
        cases hleft : leavesFolder excludes (top ++ [first]) with
        | true =>
          refine turnOrStays_of_left hself hleft (fun more => ?_) rest name entry
          rw [carry_append, sweeps.allIn.carry_below (sweeps.carry_of_left hleft)]
          exact walks.carry_eq (sweeps.not_isBelow_next tree nodup hnames hpending hfirst hleft more)
        | false =>
          -- The folder is pending in the place to which the sweep has carried it.
          obtain ⟨folder, hfolder, himage⟩ :=
            sweeps.exists_image tree nodup hnames ((listed first).mpr hfirst) hleft
          rw [himage, ← List.append_assoc] at hkept
          have hstep := ih tree' hnext (List.mem_append_left _ (List.mem_reverse.mpr hfolder)) rest hkept
          refine hstep.prepend [first] sweeps.folderMoves himage ?_
          rw [List.singleton_append, opens_cons, hself, and_iff_right hleft]
          exact opens_congr fun more => by
            rw [List.append_assoc, List.singleton_append, carry_append, himage]
    · -- Elsewhere the sweep has changed nothing.
      have hstays (more : List Text) : carry renames (top ++ more) = top ++ more := by
        refine sweeps.allIn.carry_eq fun hbelow => ?_
        exact hpending.not_prefix htop (List.prefix_append _ _) hbelow.isPrefix
      rw [List.append_assoc, hstays, ← List.append_assoc] at hkept
      have hstep := ih tree' hnext (List.mem_append_right _ htop) rest hkept
      refine hstep.prepend [] sweeps.folderMoves hstays ?_
      exact opens_congr fun more => by rw [carry_append, hstays]

end Disk

/-! ## The walk of a run -/

namespace Job

variable {excludes : Text → Bool} {before after : Workspace} {renames : List FolderRename}

/-- A run that is not cut short is a walk that comes to its end. -/
theorem walks_of_returns_renameBelow {count : Nat} {pending : List Location}
    (tree : before.disk.IsTree) (hpending : before.disk.IsPending pending)
    (hcount : before.disk.workload pending ≤ count)
    (h : (renameBelow excludes count pending).Returns before renames after) :
    Disk.Walks excludes [] before.disk pending renames after.disk := by
  induction count generalizing pending before renames with
  | zero =>
    obtain ⟨rfl, rfl⟩ := returns_pure.mp h
    cases pending with
    | nil => exact .stop _
    | cons directory pending =>
      have hpos := hpending.workload_pos
      omega
  | succ count ih =>
    cases pending with
    | nil =>
      obtain ⟨rfl, rfl⟩ := returns_pure.mp h
      exact .stop _
    | cons directory pending =>
      obtain ⟨names, folders, moves, others, middle, hnodup, hfolders, hsweeps, hothers, rfl⟩ :=
        returns_renameBelow_cons tree h
      have hnext := hsweeps.isPending tree hnodup (fun name => (hfolders name).mp) hpending
      have hless := hsweeps.workload_lt hpending
      exact .sweep hnodup hfolders hsweeps
        (ih (hsweeps.folderMoves.isTree tree) hnext (by omega) hothers)

/-- Renaming the folders of a project is a walk from its root. -/
theorem walks_of_returns_renameFolders (tree : before.disk.IsTree)
    (h : (renameFolders excludes).Returns before renames after) :
    Disk.Walks excludes [] before.disk [[]] renames after.disk := by
  rw [renameFolders, returns_bind] at h
  obtain ⟨found, middle, hfound, h⟩ := h
  obtain ⟨rfl, rfl⟩ := returns_disk.mp hfound
  exact walks_of_returns_renameBelow tree (Disk.isPending_root _) (Disk.workload_root _).le h

end Job

end Namespacer
