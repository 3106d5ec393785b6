import Namespacer.Proofs.AutoloadCodes
import Namespacer.Proofs.IgnoredFiles
import Namespacer.Proofs.PersistedFiles
import Namespacer.Proofs.Utf8RoundTrip

/-!
# The manifest is brought up to date

Bringing a manifest up to date sets one member in each of two sections. Setting a member twice to
the same value does nothing the second time, so that the manifest that was written is a fixed point
of the edit; as what is printed is read back, a second run writes the bytes of the first one.

The root namespace, the required version and the names of directories may hold surrogates, which
cannot be written. The file is emptied before that is found out, so that nothing is left of it.

* `Manifest.Sets`, `Manifest.IsEdited`: what an edit changes, and that it keeps all else.
* `Manifest.updated_edited`: the edited manifest is a fixed point.
* `Manifest.GetsSurrogate`: when the edited manifest cannot be written.
* `Job.exists_returns_updateManifest`: a run that can edit the manifest writes what is read back.
* `Job.edits_updateManifest`: when a run fails, what it writes, and what a second run writes.
-/

namespace Namespacer

namespace Json

/-! ## Members -/

theorem get?_cons_self (key : List Nat) (value : Json) (members : List (List Nat × Json)) :
    get? key ((key, value) :: members) = some value :=
  List.lookup_cons_self

theorem get?_cons_of_ne {key other : List Nat} (h : other ≠ key) (value : Json)
    (members : List (List Nat × Json)) :
    get? other ((key, value) :: members) = get? other members := by
  rw [get?, List.lookup_cons, beq_eq_false_iff_ne.mpr h, get?]

theorem get?_put (key other : List Nat) (value : Json) (members : List (List Nat × Json)) :
    get? other (put key value members) =
      if other = key then some value else get? other members := by
  induction members with
  | nil =>
    split
    · next heq => rw [heq, put, get?_cons_self]
    · next hne => rw [put, get?_cons_of_ne hne]
  | cons first members ih =>
    obtain ⟨known, old⟩ := first
    by_cases hknown : known = key
    · subst hknown
      rw [put, if_pos rfl]
      split
      · next heq => rw [heq, get?_cons_self]
      · next hne => rw [get?_cons_of_ne hne, get?_cons_of_ne hne]
    · rw [put, if_neg hknown]
      by_cases hother : other = known
      · subst hother
        rw [get?_cons_self, get?_cons_self, if_neg hknown]
      · rw [get?_cons_of_ne hother, get?_cons_of_ne hother, ih]

/-- Setting a member to the value that it has changes nothing. -/
theorem put_of_get? {key : List Nat} {value : Json} {members : List (List Nat × Json)}
    (h : get? key members = some value) : put key value members = members := by
  induction members with
  | nil => cases h
  | cons first members ih =>
    obtain ⟨known, old⟩ := first
    by_cases hknown : known = key
    · subst hknown
      rw [get?_cons_self, Option.some.injEq] at h
      rw [put, if_pos rfl, h]
    · rw [get?_cons_of_ne (Ne.symm hknown)] at h
      rw [put, if_neg hknown, ih h]

theorem mem_of_get? {key : List Nat} {value : Json} {members : List (List Nat × Json)}
    (h : get? key members = some value) : (key, value) ∈ members := by
  obtain ⟨before, after, rfl, -⟩ := List.lookup_eq_some_iff.mp h
  exact List.mem_append_right _ List.mem_cons_self

end Json

namespace Manifest

/-! ## Sections -/

/-- Some members after one of them was set: a key that was there keeps its place, a new one comes
last, and all other values are kept. -/
structure Sets (key : List Nat) (value : Json) (before after : List (List Nat × Json)) : Prop where
  keys : after.map (·.1) =
    if key ∈ before.map (·.1) then before.map (·.1) else before.map (·.1) ++ [key]
  value : Json.get? key after = some value
  others : ∀ other ≠ key, Json.get? other after = Json.get? other before

theorem sets_put (key : List Nat) (value : Json) (members : List (List Nat × Json)) :
    Sets key value members (Json.put key value members) where
  keys := Json.map_fst_put key value members
  value := by rw [Json.get?_put, if_pos rfl]
  others other hother := by rw [Json.get?_put, if_neg hother]

/-- A section of a manifest; an empty object where it is missing. -/
def sectionOf (key : List Nat) (members : List (List Nat × Json)) : Json :=
  (Json.get? key members).getD (.object [])

theorem setIn_of_object {sectionKey key : List Nat} {value : Json}
    {members inner : List (List Nat × Json)} (h : sectionOf sectionKey members = .object inner) :
    setIn sectionKey key value members =
      .ok (Json.put sectionKey (.object (Json.put key value inner)) members) := by
  rw [sectionOf] at h
  rw [setIn, h]

theorem setIn_of_not_object {sectionKey key : List Nat} {value : Json}
    {members : List (List Nat × Json)} (h : ∀ inner, sectionOf sectionKey members ≠ .object inner) :
    setIn sectionKey key value members = .error .manifestSection := by
  rw [sectionOf] at h
  rw [setIn]
  split
  · next inner heq => exact absurd heq (h inner)
  · rfl

/-- A member that has its value already is set without effect. -/
theorem setIn_of_get? {sectionKey key : List Nat} {value : Json}
    {members inner : List (List Nat × Json)}
    (hsection : Json.get? sectionKey members = some (.object inner))
    (hvalue : Json.get? key inner = some value) :
    setIn sectionKey key value members = .ok members := by
  have hobject : sectionOf sectionKey members = .object inner := by
    rw [sectionOf, hsection, Option.getD_some]
  rw [setIn_of_object hobject, Json.put_of_get? hvalue, Json.put_of_get? hsection]

theorem autoloadKey_ne_requireKey : autoloadKey ≠ requireKey := by decide

/-! ## Edits -/

/-- Whether a manifest can be brought up to date: it is an object, and the two sections are objects
where they are present. -/
def HasSections (manifest : Json) : Prop :=
  ∃ members, manifest = .object members ∧
    ∀ key ∈ [autoloadKey, requireKey], ∀ found, Json.get? key members = some found →
      ∃ inner, found = .object inner

/-- The members of a manifest that was brought up to date. All keys stay in order, behind them
come the sections that were missing, and only the autoload map and the constraint have other
values. -/
structure IsEdited (map : List (Codes × Codes)) (constraint : Codes)
    (before after : List (List Nat × Json)) : Prop where
  keys : after.map (·.1) =
    before.map (·.1) ++ [autoloadKey, requireKey].filter (· ∉ before.map (·.1))
  others : ∀ key, key ≠ autoloadKey → key ≠ requireKey →
    Json.get? key after = Json.get? key before
  autoload : ∃ inner inner', sectionOf autoloadKey before = .object inner ∧
    Json.get? autoloadKey after = some (.object inner') ∧ Sets mapKey (mapValue map) inner inner'
  require : ∃ inner inner', sectionOf requireKey before = .object inner ∧
    Json.get? requireKey after = some (.object inner') ∧
      Sets constraintKey (.string constraint) inner inner'

/-- The members with two sections put in place. -/
def edited (map : List (Codes × Codes)) (constraint : Codes)
    (autoload require members : List (List Nat × Json)) : List (List Nat × Json) :=
  Json.put requireKey (.object (Json.put constraintKey (.string constraint) require))
    (Json.put autoloadKey (.object (Json.put mapKey (mapValue map) autoload)) members)

variable {map : List (Codes × Codes)} {root constraint : Codes} {paths : List (List Codes)}
  {members autoload require : List (List Nat × Json)}

theorem sectionOf_put_of_ne {key other : List Nat} (h : other ≠ key) (value : Json)
    (members : List (List Nat × Json)) :
    sectionOf other (Json.put key value members) = sectionOf other members := by
  rw [sectionOf, Json.get?_put, if_neg h, sectionOf]

theorem isEdited_edited (hautoload : sectionOf autoloadKey members = .object autoload)
    (hrequire : sectionOf requireKey members = .object require) :
    IsEdited map constraint members (edited map constraint autoload require members) where
  keys := by
    have hne := autoloadKey_ne_requireKey
    rw [edited, Json.map_fst_put, Json.map_fst_put]
    by_cases ha : autoloadKey ∈ members.map (·.1)
    · by_cases hr : requireKey ∈ members.map (·.1)
      · simp [ha, hr]
      · simp [ha, hr]
    · by_cases hr : requireKey ∈ members.map (·.1)
      · simp [ha, hr]
      · simp [ha, hr, Ne.symm hne]
  others key ha hr := by rw [edited, Json.get?_put, if_neg hr, Json.get?_put, if_neg ha]
  autoload := by
    refine ⟨autoload, _, hautoload, ?_, sets_put _ _ _⟩
    rw [edited, Json.get?_put, if_neg autoloadKey_ne_requireKey, Json.get?_put, if_pos rfl]
  require := by
    refine ⟨require, _, hrequire, ?_, sets_put _ _ _⟩
    rw [edited, Json.get?_put, if_pos rfl]

theorem hasSections_iff : HasSections (.object members) ↔
    (∃ autoload, sectionOf autoloadKey members = .object autoload) ∧
      ∃ require, sectionOf requireKey members = .object require := by
  have hsection (key : List Nat) :
      (∃ inner, sectionOf key members = .object inner) ↔
        ∀ found, Json.get? key members = some found → ∃ inner, found = .object inner := by
    rw [sectionOf]
    cases Json.get? key members with
    | none => simp
    | some found => simp
  rw [hsection, hsection]
  constructor
  · rintro ⟨_, heq, h⟩
    cases heq
    exact ⟨h _ (by simp), h _ (by simp)⟩
  · rintro ⟨ha, hr⟩
    refine ⟨members, rfl, ?_⟩
    simpa using ⟨ha, hr⟩

/-- A manifest with sections is edited. -/
theorem updated_eq (hmap : mapFor? root paths = some map)
    (hautoload : sectionOf autoloadKey members = .object autoload)
    (hrequire : sectionOf requireKey members = .object require) :
    updated (.object members) root constraint paths =
      .ok (.object (edited map constraint autoload require members), map) := by
  have hrequire' : sectionOf requireKey
      (Json.put autoloadKey (.object (Json.put mapKey (mapValue map) autoload)) members) =
        .object require := by
    rw [sectionOf_put_of_ne (Ne.symm autoloadKey_ne_requireKey), hrequire]
  simp only [updated, hmap, setIn_of_object hautoload, setIn_of_object hrequire', bind, Except.bind]
  rfl

/-- A manifest without sections is not edited. -/
theorem updated_eq_error {manifest : Json} (hmap : mapFor? root paths = some map)
    (h : ¬ HasSections manifest) :
    ∃ failure, updated manifest root constraint paths = .error failure := by
  unfold updated
  split
  · next members =>
    rw [hasSections_iff, not_and_or] at h
    simp only [hmap]
    by_cases hautoload : ∃ autoload, sectionOf autoloadKey members = .object autoload
    · obtain ⟨autoload, hautoload⟩ := hautoload
      -- The autoload map is set first, but nothing of it is kept.
      have hrequire := h.resolve_left (not_not_intro ⟨autoload, hautoload⟩)
      rw [setIn_of_object hautoload]
      refine ⟨.manifestSection, ?_⟩
      simp only [bind, Except.bind]
      rw [setIn_of_not_object]
      rw [sectionOf_put_of_ne (Ne.symm autoloadKey_ne_requireKey)]
      exact not_exists.mp hrequire
    · rw [setIn_of_not_object (not_exists.mp hautoload)]
      exact ⟨.manifestSection, rfl⟩
  · exact ⟨.manifestShape, rfl⟩

/-- The edited manifest is a fixed point. -/
theorem updated_edited (hmap : mapFor? root paths = some map) :
    updated (.object (edited map constraint autoload require members)) root constraint paths =
      .ok (.object (edited map constraint autoload require members), map) := by
  have hautoload : Json.get? autoloadKey (edited map constraint autoload require members) =
      some (.object (Json.put mapKey (mapValue map) autoload)) := by
    rw [edited, Json.get?_put, if_neg autoloadKey_ne_requireKey, Json.get?_put, if_pos rfl]
  have hrequire : Json.get? requireKey (edited map constraint autoload require members) =
      some (.object (Json.put constraintKey (.string constraint) require)) := by
    rw [edited, Json.get?_put, if_pos rfl]
  simp only [updated, hmap, setIn_of_get? hautoload (sets_put _ _ _).value,
    setIn_of_get? hrequire (sets_put _ _ _).value, bind, Except.bind]
  rfl

/-! ## Plain manifests -/

theorem isPlain_ofText (text : Text) : Json.IsPlain (Json.ofText text) :=
  .string (Json.isValidChar_codes text)

theorem isPlain_mapValue (hnodup : (map.map (·.1)).Nodup)
    (hvalid : ∀ entry ∈ map, (∀ code ∈ entry.1, code.isValidChar) ∧
      ∀ code ∈ entry.2, code.isValidChar) : Json.IsPlain (mapValue map) := by
  refine .object ?_ ?_ ?_
  · rw [List.map_map]
    exact hnodup
  · exact List.forall_mem_map.mpr fun entry hentry => (hvalid entry hentry).1
  · exact List.forall_mem_map.mpr fun entry hentry => .string (hvalid entry hentry).2

theorem isPlain_emptyObject : Json.IsPlain (.object []) :=
  .object List.nodup_nil (List.forall_mem_nil _) (List.forall_mem_nil _)

theorem isPlain_sectionOf (h : Json.IsPlain (.object members)) (key : List Nat) :
    Json.IsPlain (sectionOf key members) := by
  rw [sectionOf]
  cases hget : Json.get? key members with
  | none => exact isPlain_emptyObject
  | some found => exact (h.members _ (Json.mem_of_get? hget)).2

theorem isPlain_edited (h : Json.IsPlain (.object members)) (hmap : Json.IsPlain (mapValue map))
    (hconstraint : ∀ code ∈ constraint, code.isValidChar)
    (hautoload : sectionOf autoloadKey members = .object autoload)
    (hrequire : sectionOf requireKey members = .object require) :
    Json.IsPlain (.object (edited map constraint autoload require members)) := by
  have ha := isPlain_sectionOf h autoloadKey
  have hr := isPlain_sectionOf h requireKey
  rw [hautoload] at ha
  rw [hrequire] at hr
  exact (h.put (Json.isValidChar_codes _)
    (ha.put (Json.isValidChar_codes _) hmap)).put (Json.isValidChar_codes _)
      (hr.put (Json.isValidChar_codes _) (.string hconstraint))

/-! ## Surrogates -/

/-- Whether a surrogate comes into the manifest: from the required version, from the root namespace,
unless there are no paths, or from a top-level directory. -/
def GetsSurrogate (paths : List (List Codes)) (root constraint : Codes) : Prop :=
  Codes.HasSurrogate constraint ∨ (paths ≠ [] ∧ Codes.HasSurrogate root) ∨
    ∃ path ∈ paths, HasOddDirectory path

/-- An edited manifest is plain if no surrogate comes into it. -/
theorem isPlain_edited_of_not_getsSurrogate (h : Json.IsPlain (.object members))
    (hautoload : sectionOf autoloadKey members = .object autoload)
    (hrequire : sectionOf requireKey members = .object require)
    (hmap : mapFor? root paths = some map) (hroot : Codes.InRange root)
    (hconstraint : Codes.InRange constraint)
    (hpaths : ∀ path ∈ paths, ∀ part ∈ path, Codes.InRange part)
    (hnone : ¬ GetsSurrogate paths root constraint) :
    Json.IsPlain (.object (edited map constraint autoload require members)) := by
  rw [GetsSurrogate, ← hasSurrogate_mapFor? hmap, not_or] at hnone
  obtain ⟨hconstraint', hmap'⟩ := hnone
  refine isPlain_edited h (isPlain_mapValue (nodup_mapFor? hmap) ?_)
    (hconstraint.isValidChar hconstraint') hautoload hrequire
  intro entry hentry
  obtain ⟨hstart, hdirectory⟩ := inRange_mapFor? hmap hroot hpaths entry hentry
  exact ⟨hstart.isValidChar fun hodd => hmap' ⟨entry, hentry, .inl hodd⟩,
    hdirectory.isValidChar fun hodd => hmap' ⟨entry, hentry, .inr hodd⟩⟩

/-- A surrogate that comes into an edited manifest is printed with it. -/
theorem exists_prints_edited (hmap : mapFor? root paths = some map)
    (h : GetsSurrogate paths root constraint) :
    ∃ code, Text.isSurrogate code = true ∧
      Json.Prints code (.object (edited map constraint autoload require members)) := by
  have hrequire := Json.mem_of_get? (sets_put requireKey
    (.object (Json.put constraintKey (.string constraint) require))
    (Json.put autoloadKey (.object (Json.put mapKey (mapValue map) autoload)) members)).value
  have hautoload : (autoloadKey, .object (Json.put mapKey (mapValue map) autoload)) ∈
      edited map constraint autoload require members := by
    refine Json.mem_of_get? ?_
    rw [edited, Json.get?_put, if_neg autoloadKey_ne_requireKey, Json.get?_put, if_pos rfl]
  obtain ⟨code, hcode, hsurrogate⟩ | hmapped := h
  · refine ⟨code, hsurrogate, .object hrequire (.inr ?_)⟩
    exact .object (Json.mem_of_get? (sets_put _ _ _).value)
      (.inr fun _ => Json.mem_printString hsurrogate hcode)
  · obtain ⟨entry, hentry, hodd⟩ := (hasSurrogate_mapFor? hmap).mpr hmapped
    have hprints {code : Nat} (hsurrogate : Text.isSurrogate code = true)
        (hcode : code ∈ entry.1 ∨ code ∈ entry.2) : Json.Prints code (mapValue map) :=
      .object (List.mem_map_of_mem hentry) (hcode.imp (Json.mem_printString hsurrogate)
        fun hvalue _ => Json.mem_printString hsurrogate hvalue)
    obtain ⟨code, hsurrogate, hcode⟩ :
        ∃ code, Text.isSurrogate code = true ∧ (code ∈ entry.1 ∨ code ∈ entry.2) := by
      obtain ⟨code, hcode, hsurrogate⟩ | ⟨code, hcode, hsurrogate⟩ := hodd
      · exact ⟨code, hsurrogate, .inl hcode⟩
      · exact ⟨code, hsurrogate, .inr hcode⟩
    refine ⟨code, hsurrogate, .object hautoload (.inr ?_)⟩
    exact .object (Json.mem_of_get? (sets_put _ _ _).value) (.inr (hprints hsurrogate hcode))

/-! ## Bytes -/

/-- The bytes of a manifest as it is written. -/
def bytesOf (manifest : Json) : Bytes := (printed manifest).flatMap Encoding.utf8.bytesOf

theorem encodeCodes_printed {manifest : Json} (h : Json.IsPlain manifest) :
    Encoding.utf8.encodeCodes (printed manifest) = .ok (bytesOf manifest) := by
  refine Encoding.utf8_encodeCodes ?_
  intro code hcode
  rw [printed, List.mem_append, List.mem_singleton] at hcode
  obtain hcode | rfl := hcode
  · exact Json.isSurrogate_eq_false_iff.mpr ((h.isValidChar 0 code hcode).imp_right And.left)
  · rfl

/-- The written bytes are those of a text of the manifest. -/
theorem isTextOf_printed {manifest : Json} (h : Json.IsPlain manifest) :
    ∃ text, Encoding.utf8.decode (bytesOf manifest) = .ok text ∧ Json.IsTextOf text manifest := by
  refine ⟨_, Encoding.utf8_decode_flatMap (printed manifest), ?_⟩
  rw [printed, List.map_append]
  exact h.isTextOf (.cons (by decide) .none)

end Manifest

namespace Disk

/-! ## The file of the manifest -/

theorem read_eq_ok_iff {disk : Disk} {path : Path} {bytes : Bytes} :
    disk.read path = .ok bytes ↔
      ∃ place, disk.locate true path = .ok place ∧
        disk.at? place = some (.file bytes) := by
  rw [read]
  cases disk.locate true path with
  | error fault => simp [bind, Except.bind]
  | ok place =>
    simp only [bind, Except.bind, Except.ok.injEq, exists_eq_left']
    split
    · next held hget => simp [hget, pure, Except.pure]
    · next hget => simp [hget]
    · next hfile _ =>
      simp only [reduceCtorEq, false_iff]
      exact hfile bytes

/-- A file can be written wherever a path leads, except to a directory. -/
theorem IsTree.exists_write {disk : Disk} (tree : disk.IsTree) {path : Path} {place : Place}
    (hlocate : disk.locate true path = .ok place)
    (hdirectory : disk.at? place ≠ some .directory) (bytes : Bytes) :
    ∃ written, disk.write path bytes = .ok written ∧ written.IsTree ∧
      written.locate true path = .ok place ∧ written.at? place = some (.file bytes) := by
  have hend := tree.locate_ok hlocate
  refine ⟨disk.setAt (.file bytes) place, ?_, tree.setAt hend.isPlace hdirectory bytes,
    locate_setAt_file bytes hdirectory (hend.not_link rfl) hlocate, at?_setAt_self _ hdirectory⟩
  simp only [Disk.write, hlocate, bind, Except.bind]
  rfl

/-- The value that the manifest on a disk stands for: the file holds a text of it, or there is no
file and it is an empty object. -/
def HoldsManifest (disk : Disk) (value : Json) : Prop :=
  (∃ bytes text, disk.read Manifest.path = .ok bytes ∧ Encoding.utf8.decode bytes = .ok text ∧
      Json.IsTextOf text value) ∨
    value = .object [] ∧ ∃ place, disk.locate true Manifest.path = .ok place ∧
      disk.at? place = none

namespace HoldsManifest

variable {disk : Disk} {value : Json}

theorem isPlain (h : disk.HoldsManifest value) : Json.IsPlain value := by
  obtain ⟨_, _, -, -, htext⟩ | ⟨rfl, -⟩ := h
  · exact htext.isPlain
  · exact Manifest.isPlain_emptyObject

/-- The manifest can be written. -/
theorem exists_locate (h : disk.HoldsManifest value) :
    ∃ place, disk.locate true Manifest.path = .ok place ∧
      disk.at? place ≠ some .directory := by
  obtain ⟨_, _, hread, -⟩ | ⟨-, place, hlocate, hnone⟩ := h
  · obtain ⟨place, hlocate, hget⟩ := read_eq_ok_iff.mp hread
    exact ⟨place, hlocate, by simp [hget]⟩
  · exact ⟨place, hlocate, by simp [hnone]⟩

theorem of_read (hplain : Json.IsPlain value)
    (h : disk.read Manifest.path = .ok (Manifest.bytesOf value)) : disk.HoldsManifest value := by
  obtain ⟨text, hdecode, htext⟩ := Manifest.isTextOf_printed hplain
  exact .inl ⟨_, text, h, hdecode, htext⟩

end HoldsManifest

end Disk

namespace Job

variable {before after : Workspace} {value : Json}

/-! ## Runs -/

theorem returns_readManifest (h : before.disk.HoldsManifest value) :
    readManifest.Returns before value before := by
  rw [readManifest, returns_bind]
  refine ⟨_, before, returns_disk.mpr ⟨rfl, rfl⟩, ?_⟩
  obtain ⟨bytes, text, hread, hdecode, htext⟩ | ⟨rfl, place, hlocate, hnone⟩ := h
  · obtain ⟨place, hlocate, hget⟩ := Disk.read_eq_ok_iff.mp hread
    have hfile : before.disk.holdsFile Manifest.path = true := by
      simp [Disk.holdsFile, Disk.find?, hlocate, hget]
    rw [if_pos hfile, returns_bind]
    refine ⟨_, before, returns_readUtf8.mpr ⟨rfl, bytes, text, hread, hdecode, rfl⟩, ?_⟩
    rw [Json.parse_of_isTextOf htext.unifyNewlines]
    exact returns_pure.mpr ⟨rfl, rfl⟩
  · have hfile : before.disk.holdsFile Manifest.path = false := by
      simp [Disk.holdsFile, Disk.find?, hlocate, hnone]
    rw [hfile, if_neg Bool.false_ne_true]
    exact returns_pure.mpr ⟨rfl, rfl⟩

/-- The manifest was emptied and then written, and its file holds what was written. -/
structure WritesManifest (before : Workspace) (bytes : Bytes) (after : Workspace) : Prop where
  changes : after.changes =
    before.changes ++ [.written Manifest.path [], .written Manifest.path bytes]
  read : after.disk.read Manifest.path = .ok bytes

theorem exists_returns_writeManifest (tree : before.disk.IsTree) {place : Disk.Place}
    (hlocate : before.disk.locate true Manifest.path = .ok place)
    (hdirectory : before.disk.at? place ≠ some .directory) (hplain : Json.IsPlain value) :
    ∃ after, (writeManifest value).Returns before () after ∧ after.disk.IsTree ∧
      WritesManifest before (Manifest.bytesOf value) after := by
  obtain ⟨emptied, hempty, treeEmptied, hlocate, hget⟩ := tree.exists_write hlocate hdirectory []
  obtain ⟨middle, hfirst, rfl, hchanges⟩ := returns_writeBytes hempty
  obtain ⟨written, hwrite, treeWritten, hlocate, hget⟩ :=
    treeEmptied.exists_write hlocate (by simp [hget]) (Manifest.bytesOf value)
  obtain ⟨after, hsecond, rfl, hchanges'⟩ := returns_writeBytes hwrite
  refine ⟨after, ?_, treeWritten, ?_, Disk.read_eq_ok_iff.mpr ⟨place, hlocate, hget⟩⟩
  · rw [writeManifest, returns_bind]
    refine ⟨(), middle, hfirst, ?_⟩
    rw [Manifest.encodeCodes_printed hplain]
    exact hsecond
  · rw [hchanges', hchanges, List.append_assoc]
    rfl

/-- The manifest was emptied, and nothing was written to it then. -/
structure EmptiesManifest (before after : Workspace) : Prop where
  changes : after.changes = before.changes ++ [.written Manifest.path []]
  read : after.disk.read Manifest.path = .ok []

/-- A manifest with a surrogate is emptied and then not written. -/
theorem exists_fails_writeManifest (tree : before.disk.IsTree) {place : Disk.Place}
    (hlocate : before.disk.locate true Manifest.path = .ok place)
    (hdirectory : before.disk.at? place ≠ some .directory) {code : Nat}
    (hsurrogate : Text.isSurrogate code = true) (hprints : Json.Prints code value) :
    ∃ fault after, (writeManifest value).Fails before (.encoding fault) after ∧
      EmptiesManifest before after := by
  obtain ⟨emptied, hempty, -, hlocate, hget⟩ := tree.exists_write hlocate hdirectory []
  obtain ⟨after, hfirst, rfl, hchanges⟩ := returns_writeBytes hempty
  have hprinted : code ∈ Manifest.printed value := List.mem_append_left _ (hprints 0)
  obtain ⟨fault, hfault⟩ := Encoding.utf8_encodeCodes_of_isSurrogate hprinted hsurrogate
  refine ⟨fault, after, ?_, hchanges, Disk.read_eq_ok_iff.mpr ⟨place, hlocate, hget⟩⟩
  rw [writeManifest, fails_bind]
  refine .inr ⟨(), after, hfirst, ?_⟩
  rw [hfault]
  exact fails_throw.mpr ⟨rfl, rfl⟩

variable {paths : List (List Codes)} {root constraint : Codes}

/-- A run that can edit the manifest writes it. -/
theorem exists_returns_updateManifest (tree : before.disk.IsTree)
    (hvalue : before.disk.HoldsManifest value) {edited : Json} {map : List (Codes × Codes)}
    (hupdated : Manifest.updated value root constraint paths = .ok (edited, map))
    (hplain : Json.IsPlain edited) :
    ∃ after, (updateManifest paths root constraint).Returns before (edited, map) after ∧
      after.disk.IsTree ∧ WritesManifest before (Manifest.bytesOf edited) after := by
  obtain ⟨place, hlocate, hdirectory⟩ := hvalue.exists_locate
  obtain ⟨after, hwrite, treeAfter, hwrites⟩ :=
    exists_returns_writeManifest tree hlocate hdirectory hplain
  refine ⟨{ after with notices := after.notices ++ [.logged (.autoloadUpdated map.length)] }, ?_,
    treeAfter, hwrites.changes, hwrites.read⟩
  rw [updateManifest, returns_bind]
  refine ⟨value, before, returns_readManifest hvalue, ?_⟩
  rw [hupdated]
  simp only [returns_bind]
  exact ⟨(), after, hwrite, (), _, returns_modify.mpr rfl, returns_pure.mpr ⟨rfl, rfl⟩⟩

/-- A run that cannot edit the manifest fails and does nothing. -/
theorem fails_updateManifest (hvalue : before.disk.HoldsManifest value) {failure : Failure}
    (hupdated : Manifest.updated value root constraint paths = .error failure) :
    (updateManifest paths root constraint).Fails before failure before := by
  rw [updateManifest, fails_bind]
  refine .inr ⟨value, before, returns_readManifest hvalue, ?_⟩
  rw [hupdated]
  exact fails_throw.mpr ⟨rfl, rfl⟩

/-- A run that can edit the manifest, but not write it, fails and leaves it empty. -/
theorem exists_fails_updateManifest (tree : before.disk.IsTree)
    (hvalue : before.disk.HoldsManifest value) {edited : Json} {map : List (Codes × Codes)}
    (hupdated : Manifest.updated value root constraint paths = .ok (edited, map)) {code : Nat}
    (hsurrogate : Text.isSurrogate code = true) (hprints : Json.Prints code edited) :
    ∃ fault after, (updateManifest paths root constraint).Fails before (.encoding fault) after ∧
      EmptiesManifest before after := by
  obtain ⟨place, hlocate, hdirectory⟩ := hvalue.exists_locate
  obtain ⟨fault, after, hwrite, hempties⟩ :=
    exists_fails_writeManifest tree hlocate hdirectory hsurrogate hprints
  refine ⟨fault, after, ?_, hempties⟩
  rw [updateManifest, fails_bind]
  refine .inr ⟨value, before, returns_readManifest hvalue, ?_⟩
  rw [hupdated]
  exact fails_bind.mpr (.inl hwrite)

/-- A run that can edit and write the manifest writes it so that it can be read back, and a second
run returns the same and writes the same bytes. -/
theorem exists_returns_again (tree : before.disk.IsTree) (hvalue : before.disk.HoldsManifest value)
    {edited : Json} {map : List (Codes × Codes)}
    (hupdated : Manifest.updated value root constraint paths = .ok (edited, map))
    (hfixed : Manifest.updated edited root constraint paths = .ok (edited, map))
    (hplain : Json.IsPlain edited) :
    ∃ after bytes text again,
      (updateManifest paths root constraint).Returns before (edited, map) after ∧
      WritesManifest before bytes after ∧
      Encoding.utf8.decode bytes = .ok text ∧ Json.parse text = .ok edited ∧
      (updateManifest paths root constraint).Returns after (edited, map) again ∧
      WritesManifest after bytes again := by
  obtain ⟨after, hreturns, treeAfter, hwrites⟩ :=
    exists_returns_updateManifest tree hvalue hupdated hplain
  -- The second run finds what the first one wrote, and the edit of it is without effect.
  obtain ⟨again, hreturns', -, hwrites'⟩ := exists_returns_updateManifest treeAfter
    (.of_read hplain hwrites.read) hfixed hplain
  obtain ⟨text, hdecode, htext⟩ := Manifest.isTextOf_printed hplain
  exact ⟨after, _, text, again, hreturns, hwrites, hdecode, Json.parse_of_isTextOf htext,
    hreturns', hwrites'⟩

/-- Bringing the manifest up to date fails exactly if it or one of its sections is no object, and
then nothing has changed, or if a surrogate comes into it, and then it is left empty. Otherwise the
edited manifest is written so that it can be read back, and a second run returns the same and writes
the same bytes. -/
theorem edits_updateManifest {before : Workspace} {value : Json} {paths : List (List Codes)}
    {root constraint : Codes} (tree : before.disk.IsTree)
    (hvalue : before.disk.HoldsManifest value) (hparts : ∀ path ∈ paths, path ≠ [])
    (hpaths : ∀ path ∈ paths, ∀ part ∈ path, Codes.InRange part)
    (hroot : Codes.InRange root) (hconstraint : Codes.InRange constraint) :
    ((∃ failure after, (updateManifest paths root constraint).Fails before failure after) ↔
      ¬ Manifest.HasSections value ∨ Manifest.GetsSurrogate paths root constraint) ∧
    (∀ failure after, (updateManifest paths root constraint).Fails before failure after →
      (¬ Manifest.HasSections value ∧ after = before) ∨
        (Manifest.HasSections value ∧ (∃ fault, failure = .encoding fault) ∧
          EmptiesManifest before after)) ∧
    (Manifest.HasSections value → ¬ Manifest.GetsSurrogate paths root constraint →
      ∃ map members members' after bytes text again,
        Manifest.mapFor? root paths = some map ∧ value = .object members ∧
        Manifest.IsEdited map constraint members members' ∧
        (updateManifest paths root constraint).Returns before (.object members', map) after ∧
        WritesManifest before bytes after ∧
        Encoding.utf8.decode bytes = .ok text ∧ Json.parse text = .ok (.object members') ∧
        (updateManifest paths root constraint).Returns after (.object members', map) again ∧
        WritesManifest after bytes again) := by
  obtain ⟨map, hmap⟩ := Manifest.exists_mapFor? root hparts
  have hsame {failure other : Failure} {after stop : Workspace}
      (h : (updateManifest paths root constraint).Fails before failure after)
      (hother : (updateManifest paths root constraint).Fails before other stop) :
      failure = other ∧ after = stop := by
    have heq := Prod.mk.inj (h.symm.trans hother)
    exact ⟨Except.error.inj heq.1, heq.2⟩
  by_cases hsections : Manifest.HasSections value
  · have hmembers := hsections
    obtain ⟨members, rfl, -⟩ := hmembers
    obtain ⟨⟨autoload, hautoload⟩, require, hrequire⟩ := Manifest.hasSections_iff.mp hsections
    have hupdated : Manifest.updated (.object members) root constraint paths = .ok
        (.object (Manifest.edited map constraint autoload require members), map) :=
      Manifest.updated_eq hmap hautoload hrequire
    by_cases hsurrogate : Manifest.GetsSurrogate paths root constraint
    · obtain ⟨code, hcode, hprints⟩ := Manifest.exists_prints_edited hmap hsurrogate
      obtain ⟨fault, after, hfails, hempties⟩ :=
        exists_fails_updateManifest tree hvalue hupdated hcode hprints
      refine ⟨iff_of_true ⟨_, after, hfails⟩ (.inr hsurrogate), fun failure stop h => ?_,
        fun _ hnone => absurd hsurrogate hnone⟩
      obtain ⟨rfl, rfl⟩ := hsame h hfails
      exact .inr ⟨hsections, ⟨fault, rfl⟩, hempties⟩
    · have hplain := Manifest.isPlain_edited_of_not_getsSurrogate hvalue.isPlain hautoload hrequire
        hmap hroot hconstraint hpaths hsurrogate
      obtain ⟨after, bytes, text, again, hreturns, hrest⟩ :=
        exists_returns_again tree hvalue hupdated (Manifest.updated_edited hmap) hplain
      have hnot (failure : Failure) (other : Workspace) :
          ¬ (updateManifest paths root constraint).Fails before failure other := by
        intro h
        cases h.symm.trans hreturns
      refine ⟨iff_of_false (fun ⟨failure, other, h⟩ => hnot failure other h) ?_,
        fun failure other h => absurd h (hnot failure other), fun _ _ => ?_⟩
      · exact not_or_intro (not_not_intro hsections) hsurrogate
      · exact ⟨map, members, _, after, bytes, text, again, hmap, rfl,
          Manifest.isEdited_edited hautoload hrequire, hreturns, hrest⟩
  · obtain ⟨failure, hfailure⟩ : ∃ failure,
        Manifest.updated value root constraint paths = .error failure :=
      Manifest.updated_eq_error hmap hsections
    have hfails := fails_updateManifest hvalue hfailure
    refine ⟨iff_of_true ⟨failure, before, hfails⟩ (.inl hsections), fun other after h => ?_,
      fun h => absurd h hsections⟩
    exact .inl ⟨hsections, (hsame h hfails).2⟩

/-- A manifest with one of the two sections, and with members of other kinds. -/
def packageManifest : Json :=
  .object [(Json.codes "name", Json.ofText "acme/café\n"),
    (Json.codes "require",
      .object [(Json.codes "php", Json.ofText "^7.4"), (Json.codes "ext-json", Json.ofText "*")]),
    (Json.codes "extra", .array [.int (-12), .null, .bool true, .object []])]

/-- A project with this manifest. -/
def packageProject : Workspace where
  root := ⟨[], []⟩
  disk.entries := [(["composer.json".toList], .file (Manifest.bytesOf packageManifest))]

/-- The parts of the paths of some files. -/
def packagePaths : List (List Codes) :=
  [[Json.codes "A.php"], [Json.codes "src", Json.codes "B.php"]]

theorem isPlain_packageManifest : Json.IsPlain packageManifest := by
  refine .object (by decide) (by decide) ?_
  simp only [List.forall_mem_cons]
  refine ⟨Manifest.isPlain_ofText _, .object (by decide) (by decide) ?_, .array ?_,
    List.forall_mem_nil _⟩
  · simp only [List.forall_mem_cons]
    exact ⟨Manifest.isPlain_ofText _, Manifest.isPlain_ofText _, List.forall_mem_nil _⟩
  · simp only [List.forall_mem_cons]
    exact ⟨.int (by decide), .null, .bool, Manifest.isPlain_emptyObject, List.forall_mem_nil _⟩

theorem holdsManifest_packageProject :
    packageProject.disk.HoldsManifest packageManifest :=
  .of_read isPlain_packageManifest rfl

theorem hasSections_packageManifest : Manifest.HasSections packageManifest :=
  Manifest.hasSections_iff.mpr ⟨⟨_, rfl⟩, _, rfl⟩

theorem edits_updateManifest_package :
    packageProject.disk.IsTree ∧ packageProject.disk.HoldsManifest packageManifest ∧
      (∀ path ∈ packagePaths, path ≠ [] ∧ ∀ part ∈ path, Codes.InRange part) ∧
      ∃ members members' after bytes text again, packageManifest = .object members ∧
        Manifest.IsEdited [(Json.codes "App\\", []), (Json.codes "App\\src\\", Json.codes "src/")]
          (Json.codes "^8.1") members members' ∧
        WritesManifest packageProject bytes after ∧ Encoding.utf8.decode bytes = .ok text ∧
        Json.parse text = .ok (.object members') ∧ WritesManifest after bytes again := by
  have tree : packageProject.disk.IsTree := by decide +kernel
  have hpaths : ∀ path ∈ packagePaths, path ≠ [] ∧ ∀ part ∈ path, Codes.InRange part := by decide
  have hnone : ¬ Manifest.GetsSurrogate packagePaths (Json.codes "App") (Json.codes "^8.1") := by
    rw [Manifest.GetsSurrogate, ← Manifest.hasSurrogate_mapFor? rfl]
    simp only [Codes.HasSurrogate]
    decide
  obtain ⟨map, members, members', after, bytes, text, again, hmap, heq, hedited, -, hwrites,
    hdecode, hparse, -, hwrites'⟩ :=
    (edits_updateManifest tree holdsManifest_packageProject (fun path h => (hpaths path h).1)
      (fun path h => (hpaths path h).2) (by decide) (by decide)).2.2
      hasSections_packageManifest hnone
  cases hmap
  exact ⟨tree, holdsManifest_packageProject, hpaths, members, members', after, bytes, text, again,
    heq, hedited, hwrites, hdecode, hparse, hwrites'⟩

/-- A surrogate in the required version fails a run although the manifest could be edited. -/
theorem not_forall_fails_updateManifest :
    ¬ ∀ (before : Workspace) (value : Json) (paths : List (List Codes)) (root constraint : Codes),
      before.disk.IsTree → before.disk.HoldsManifest value →
      (∀ path ∈ paths, path ≠ [] ∧ ∀ part ∈ path, Codes.InRange part) →
      Codes.InRange root → Codes.InRange constraint →
      ((∃ failure after, (updateManifest paths root constraint).Fails before failure after) ↔
        ¬ Manifest.HasSections value) := by
  intro h
  have hfails := h packageProject packageManifest [[Json.codes "Foo.php"]] (Json.codes "App")
    [0xDCFF] (by decide +kernel) holdsManifest_packageProject (by decide) (by decide) (by decide)
  refine hfails.mp ?_ hasSections_packageManifest
  obtain ⟨⟨autoload, hautoload⟩, require, hrequire⟩ :=
    Manifest.hasSections_iff.mp hasSections_packageManifest
  have hmap : Manifest.mapFor? (Json.codes "App") [[Json.codes "Foo.php"]] =
      some [(Json.codes "App\\", [])] := rfl
  obtain ⟨code, hcode, hprints⟩ := Manifest.exists_prints_edited hmap
    (.inl ⟨0xDCFF, List.mem_singleton_self _, rfl⟩)
  obtain ⟨fault, after, hrun, -⟩ := exists_fails_updateManifest (by decide +kernel)
    holdsManifest_packageProject (Manifest.updated_eq hmap hautoload hrequire) hcode hprints
  exact ⟨_, after, hrun⟩

end Job

end Namespacer
