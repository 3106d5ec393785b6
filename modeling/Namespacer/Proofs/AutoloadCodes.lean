import Namespacer.Manifest
import Namespacer.Proofs.AutoloadLookup
import Namespacer.Proofs.JsonPrinting

/-!
# Autoload maps with surrogates

The autoload map that is written to the manifest is made of code points. On texts it is the map of
`AutoloadMap.ofPaths?`. Where there are surrogates it is made all the same, and it holds a surrogate
exactly if the root namespace or a top-level directory of some path does.

* `Manifest.mapFor?_codes`: the map of texts.
* `Manifest.nodup_mapFor?`: each prefix is there once.
* `Manifest.hasSurrogate_mapFor?`: when there is a surrogate in the map.
-/

namespace Namespacer

namespace Json

theorem codes_injective : Function.Injective codes := by
  intro a b h
  rw [← map_ofNat_codes a, h, map_ofNat_codes]

theorem codes_append (a b : Text) : codes (a ++ b) = codes a ++ codes b := List.map_append

end Json

/-! ## Code points of texts -/

namespace Codes

theorem le_codes (a b : Text) : le (Json.codes a) (Json.codes b) = Text.le a b := by
  induction a generalizing b with
  | nil => rfl
  | cons c a ih =>
    cases b with
    | nil => rfl
    | cons d b =>
      have hsame : c.toNat = d.toNat ↔ c = d := Char.toNat_inj
      simp only [Json.codes, List.map_cons, le, Text.le, hsame]
      split
      · exact ih b
      · rfl

theorem trim_codes {p : Nat → Bool} {q : Char → Bool} (h : ∀ c, p c.toNat = q c) (text : Text) :
    trim p (Json.codes text) = Json.codes (Text.dropEndWhile q (text.dropWhile q)) := by
  have hp : p ∘ Char.toNat = q := funext h
  rw [trim, Json.codes, Text.dropEndWhile, Json.codes, List.dropWhile_map, hp, ← List.map_reverse,
    List.dropWhile_map, hp, ← List.map_reverse]

/-! ## Surrogates -/

/-- Whether there is a surrogate among some code points. -/
def HasSurrogate (codes : Codes) : Prop := ∃ code ∈ codes, Text.isSurrogate code = true

/-- Whether all numbers are code points. -/
def InRange (codes : Codes) : Prop := ∀ code ∈ codes, code < 0x110000

instance (codes : Codes) : Decidable (InRange codes) := inferInstanceAs (Decidable (∀ _ ∈ _, _))

variable {a b codes : Codes}

/-- Code points without surrogates are those of characters. -/
theorem InRange.isValidChar (h : InRange codes) (hnone : ¬ HasSurrogate codes) :
    ∀ code ∈ codes, code.isValidChar := by
  intro code hcode
  have hbound := h code hcode
  have hfalse : Text.isSurrogate code = false := by
    rw [← Bool.not_eq_true]
    exact fun htrue => hnone ⟨code, hcode, htrue⟩
  rw [Json.isSurrogate_eq_false_iff] at hfalse
  exact hfalse.imp_right fun habove => ⟨habove, hbound⟩

theorem hasSurrogate_append : HasSurrogate (a ++ b) ↔ HasSurrogate a ∨ HasSurrogate b := by
  simp only [HasSurrogate, List.mem_append, or_and_right, exists_or]

theorem inRange_append : InRange (a ++ b) ↔ InRange a ∧ InRange b := List.forall_mem_append

theorem not_hasSurrogate_nil : ¬ HasSurrogate [] := by
  rintro ⟨_, hcode, _⟩
  cases hcode

theorem hasSurrogate_reverse : HasSurrogate codes.reverse ↔ HasSurrogate codes := by
  simp only [HasSurrogate, List.mem_reverse]

theorem hasSurrogate_dropWhile {p : Nat → Bool}
    (hp : ∀ code, Text.isSurrogate code = true → p code = false) :
    HasSurrogate (codes.dropWhile p) ↔ HasSurrogate codes := by
  constructor
  · exact fun ⟨code, hcode, hsurrogate⟩ => ⟨code, (List.dropWhile_sublist p).mem hcode, hsurrogate⟩
  · rintro ⟨code, hcode, hsurrogate⟩
    rw [← List.takeWhile_append_dropWhile (p := p) (l := codes), List.mem_append] at hcode
    refine ⟨code, hcode.resolve_left fun hdropped => ?_, hsurrogate⟩
    exact absurd (List.mem_takeWhile_imp hdropped) (by simp [hp code hsurrogate])

/-- Surrogates are not dropped at the ends. -/
theorem hasSurrogate_trim {p : Nat → Bool}
    (hp : ∀ code, Text.isSurrogate code = true → p code = false) :
    HasSurrogate (trim p codes) ↔ HasSurrogate codes := by
  rw [trim, hasSurrogate_reverse, hasSurrogate_dropWhile hp, hasSurrogate_reverse,
    hasSurrogate_dropWhile hp]

theorem InRange.trim {p : Nat → Bool} (h : InRange codes) : InRange (trim p codes) := by
  intro code hcode
  rw [Codes.trim, List.mem_reverse] at hcode
  have hkept := (List.dropWhile_sublist p).mem hcode
  rw [List.mem_reverse] at hkept
  exact h code ((List.dropWhile_sublist p).mem hkept)

theorem isBlank_of_isSurrogate {code : Nat} (h : Text.isSurrogate code = true) :
    isBlank code = false := by
  have hinvalid : ¬ code.isValidChar := by
    simp only [Text.isSurrogate, Bool.and_eq_true, decide_eq_true_eq] at h
    rintro (hbelow | habove) <;> omega
  rw [isBlank, Char.ofNat, dif_neg hinvalid]
  rfl

end Codes

namespace Manifest

variable {root : Codes} {path : List Codes} {paths : List (List Codes)}
  {map : List (Codes × Codes)} {entry : Codes × Codes}

/-! ## The map of texts -/

theorem rootPrefix_codes (root : Text) :
    rootPrefix (Json.codes root) = Json.codes (AutoloadMap.rootPrefix root) := by
  have hblank (c : Char) : Codes.isBlank c.toNat = Text.isBlank c := by
    rw [Codes.isBlank, Char.ofNat_toNat]
  have hseparator (c : Char) : (c.toNat == separator) = (c == namespaceSeparator) := by
    rw [Bool.eq_iff_iff, beq_iff_eq, beq_iff_eq]
    exact Char.toNat_inj
  rw [rootPrefix, Codes.trim_codes hblank, Codes.trim_codes hseparator, AutoloadMap.rootPrefix,
    Json.codes_append]
  rfl

theorem covering?_codes (root : Text) (path : Path) :
    covering? (Json.codes root) (partsOf path) =
      (AutoloadMap.covering? root path).map (Prod.map Json.codes Json.codes) := by
  rw [partsOf, AutoloadMap.covering?]
  cases path.parts with
  | nil => rfl
  | cons directory rest =>
    cases rest with
    | nil =>
      rw [List.map_cons, List.map_nil, covering?, rootPrefix_codes]
      rfl
    | cons =>
      simp only [List.map_cons, covering?, rootPrefix_codes, Option.map_some, Prod.map,
        Json.codes_append]
      rfl

theorem insert_codes (entry : Text × Text) (map : AutoloadMap) :
    insert (Prod.map Json.codes Json.codes entry) (map.map (Prod.map Json.codes Json.codes)) =
      (AutoloadMap.insert entry map).map (Prod.map Json.codes Json.codes) := by
  have hknown : (map.map (Prod.map Json.codes Json.codes)).any
      (·.1 == (Prod.map Json.codes Json.codes entry).1) = map.any (·.1 == entry.1) := by
    rw [List.any_map]
    refine congrArg map.any (funext fun known => ?_)
    rw [Bool.eq_iff_iff]
    exact beq_iff_eq.trans (Json.codes_injective.eq_iff.trans beq_iff_eq.symm)
  have hsorted (map : AutoloadMap) :
      insertSorted (fun a b => Codes.le a.1 b.1) (Prod.map Json.codes Json.codes entry)
        (map.map (Prod.map Json.codes Json.codes)) =
      (insertSorted (fun a b => Text.le a.1 b.1) entry map).map
        (Prod.map Json.codes Json.codes) := by
    induction map with
    | nil => rfl
    | cons first rest ih =>
      simp only [List.map_cons, insertSorted, Prod.map, Codes.le_codes]
      split
      · rfl
      · exact congrArg _ ih
  rw [insert, AutoloadMap.insert, hknown, hsorted, apply_ite (List.map _)]

/-- The map of texts is that of their code points. -/
theorem mapFor?_codes (root : Text) (paths : List Path) :
    mapFor? (Json.codes root) (paths.map partsOf) =
      (AutoloadMap.ofPaths? root paths).map (List.map (Prod.map Json.codes Json.codes)) := by
  have hentries : (paths.map partsOf).mapM (covering? (Json.codes root)) =
      (paths.mapM (AutoloadMap.covering? root)).map
        (List.map (Prod.map Json.codes Json.codes)) := by
    induction paths with
    | nil => rfl
    | cons path paths ih =>
      rw [List.map_cons, List.mapM_cons, List.mapM_cons, covering?_codes, ih]
      cases AutoloadMap.covering? root path with
      | none => rfl
      | some entry =>
        cases paths.mapM (AutoloadMap.covering? root) with
        | none => rfl
        | some entries => rfl
  rw [mapFor?, AutoloadMap.ofPaths?, hentries, Option.map_map, Option.map_map]
  congr 1
  funext entries
  induction entries with
  | nil => rfl
  | cons entry entries ih =>
    have hrest : ((entries.map (Prod.map Json.codes Json.codes)).foldr insert []) =
        (entries.foldr AutoloadMap.insert []).map (Prod.map Json.codes Json.codes) := ih
    simp only [Function.comp_apply, List.map_cons, List.foldr_cons, hrest, insert_codes]

/-! ## Prefixes -/

theorem mapFor?_cons : mapFor? root (path :: paths) = some map ↔
    ∃ entry rest, covering? root path = some entry ∧ mapFor? root paths = some rest ∧
      insert entry rest = map := by
  rw [mapFor?, mapFor?, List.mapM_cons]
  cases covering? root path with
  | none => simp
  | some entry =>
    cases paths.mapM (covering? root) with
    | none => simp
    | some entries => simp

/-- Paths with parts have a map. -/
theorem exists_mapFor? (root : Codes) (h : ∀ path ∈ paths, path ≠ []) :
    ∃ map, mapFor? root paths = some map := by
  induction paths with
  | nil => exact ⟨[], rfl⟩
  | cons path paths ih =>
    rw [List.forall_mem_cons] at h
    obtain ⟨rest, hrest⟩ := ih h.2
    obtain ⟨entry, hentry⟩ : ∃ entry, covering? root path = some entry := by
      cases path with
      | nil => exact absurd rfl h.1
      | cons directory rest => cases rest <;> exact ⟨_, rfl⟩
    exact ⟨_, mapFor?_cons.mpr ⟨entry, rest, hentry, hrest, rfl⟩⟩

theorem insert_cases (entry : Codes × Codes) (map : List (Codes × Codes)) :
    (entry.1 ∈ map.map (·.1) ∧ insert entry map = map) ∨
      (entry.1 ∉ map.map (·.1) ∧ (insert entry map).Perm (entry :: map)) := by
  have hknown : map.any (·.1 == entry.1) = true ↔ entry.1 ∈ map.map (·.1) := by
    simp only [List.any_eq_true, beq_iff_eq, List.mem_map]
  rw [insert]
  split
  · next h => exact .inl ⟨hknown.mp h, rfl⟩
  · next h => exact .inr ⟨fun hmem => h (hknown.mpr hmem), insertSorted_perm _ _ _⟩

/-- Each prefix is in a map once. -/
theorem nodup_mapFor? (h : mapFor? root paths = some map) : (map.map (·.1)).Nodup := by
  induction paths generalizing map with
  | nil =>
    cases h
    exact List.nodup_nil
  | cons path paths ih =>
    obtain ⟨entry, rest, -, hrest, rfl⟩ := mapFor?_cons.mp h
    obtain ⟨-, heq⟩ | ⟨hnew, hperm⟩ := insert_cases entry rest
    · rw [heq]
      exact ih hrest
    · rw [(hperm.map _).nodup_iff, List.map_cons, List.nodup_cons]
      exact ⟨hnew, ih hrest⟩

/-- The entries of a map cover its paths. -/
theorem exists_of_mem_mapFor? (h : mapFor? root paths = some map) (hentry : entry ∈ map) :
    ∃ path ∈ paths, covering? root path = some entry := by
  induction paths generalizing map with
  | nil =>
    cases h
    cases hentry
  | cons path paths ih =>
    obtain ⟨first, rest, hfirst, hrest, rfl⟩ := mapFor?_cons.mp h
    rw [List.exists_mem_cons_iff]
    obtain ⟨-, heq⟩ | ⟨-, hperm⟩ := insert_cases first rest
    · exact .inr (ih hrest (heq ▸ hentry))
    · rw [hperm.mem_iff, List.mem_cons] at hentry
      obtain rfl | hentry := hentry
      · exact .inl hfirst
      · exact .inr (ih hrest hentry)

/-- Each path is covered by an entry, and its prefix is in the map. -/
theorem exists_covering?_of_mem (h : mapFor? root paths = some map) (hpath : path ∈ paths) :
    ∃ entry, covering? root path = some entry ∧ entry.1 ∈ map.map (·.1) := by
  induction paths generalizing map with
  | nil => cases hpath
  | cons first others ih =>
    obtain ⟨entry, rest, hentry, hrest, rfl⟩ := mapFor?_cons.mp h
    obtain rfl | hpath := List.mem_cons.mp hpath
    · refine ⟨entry, hentry, ?_⟩
      obtain ⟨hknown, heq⟩ | ⟨-, hperm⟩ := insert_cases entry rest
      · rwa [heq]
      · exact (hperm.map _).mem_iff.mpr List.mem_cons_self
    · obtain ⟨found, hfound, hmem⟩ := ih hrest hpath
      refine ⟨found, hfound, ?_⟩
      obtain ⟨-, heq⟩ | ⟨-, hperm⟩ := insert_cases entry rest
      · rwa [heq]
      · exact (hperm.map _).mem_iff.mpr (List.mem_cons_of_mem _ hmem)

/-! ## Code points of a map -/

theorem inRange_mapFor? (h : mapFor? root paths = some map) (hroot : Codes.InRange root)
    (hpaths : ∀ path ∈ paths, ∀ part ∈ path, Codes.InRange part) :
    ∀ entry ∈ map, Codes.InRange entry.1 ∧ Codes.InRange entry.2 := by
  have hstart : Codes.InRange (rootPrefix root) :=
    Codes.inRange_append.mpr ⟨hroot.trim.trim, by decide⟩
  intro entry hentry
  obtain ⟨path, hpath, hcovering⟩ := exists_of_mem_mapFor? h hentry
  match path, hcovering with
  | [_], rfl => exact ⟨hstart, List.forall_mem_nil _⟩
  | directory :: _ :: _, rfl =>
    have hdirectory := hpaths _ hpath directory List.mem_cons_self
    simp only [Codes.inRange_append]
    exact ⟨⟨⟨hstart, hdirectory⟩, by decide⟩, hdirectory, by decide⟩

/-- Whether a surrogate comes into the entry of a path with its top-level directory. -/
def HasOddDirectory (path : List Codes) : Prop :=
  ∃ directory rest, path = directory :: rest ∧ rest ≠ [] ∧ Codes.HasSurrogate directory

theorem hasSurrogate_rootPrefix :
    Codes.HasSurrogate (rootPrefix root) ↔ Codes.HasSurrogate root := by
  have hseparator : ∀ code, Text.isSurrogate code = true → (code == separator) = false := by
    rintro code h
    rw [beq_eq_false_iff_ne]
    rintro rfl
    exact absurd h (by decide)
  have hnone : ¬ Codes.HasSurrogate [separator] := by
    rintro ⟨code, hcode, hsurrogate⟩
    rw [List.mem_singleton] at hcode
    exact absurd (hcode ▸ hsurrogate) (by decide)
  rw [rootPrefix, Codes.hasSurrogate_append, or_iff_left hnone, Codes.hasSurrogate_trim hseparator,
    Codes.hasSurrogate_trim fun _ => Codes.isBlank_of_isSurrogate]

theorem hasSurrogate_covering? (h : covering? root path = some entry) :
    (Codes.HasSurrogate entry.1 ↔ Codes.HasSurrogate root ∨ HasOddDirectory path) ∧
      (Codes.HasSurrogate entry.2 → HasOddDirectory path) := by
  match path, h with
  | [_], rfl =>
    refine ⟨?_, fun hvalue => absurd hvalue Codes.not_hasSurrogate_nil⟩
    rw [hasSurrogate_rootPrefix]
    refine (or_iff_left ?_).symm
    rintro ⟨_, _, heq, hne, -⟩
    cases heq
    exact hne rfl
  | directory :: next :: rest, rfl =>
    have hodd : HasOddDirectory (directory :: next :: rest) ↔ Codes.HasSurrogate directory := by
      constructor
      · rintro ⟨_, _, heq, -, h⟩
        cases heq
        exact h
      · exact fun h => ⟨directory, _, rfl, List.cons_ne_nil _ _, h⟩
    have hnone {code : Nat} (hcode : Text.isSurrogate code = false) :
        ¬ Codes.HasSurrogate [code] := by
      rintro ⟨other, hother, hsurrogate⟩
      rw [List.mem_singleton.mp hother, hcode] at hsurrogate
      cases hsurrogate
    rw [Codes.hasSurrogate_append, Codes.hasSurrogate_append, hasSurrogate_rootPrefix,
      Codes.hasSurrogate_append, hodd, or_iff_left (hnone (by decide)),
      or_iff_left (hnone (by decide))]
    exact ⟨Iff.rfl, id⟩

/-- There is a surrogate in a map exactly if there is one in the root namespace, unless there are
no paths, or in a top-level directory. -/
theorem hasSurrogate_mapFor? (h : mapFor? root paths = some map) :
    (∃ entry ∈ map, Codes.HasSurrogate entry.1 ∨ Codes.HasSurrogate entry.2) ↔
      (paths ≠ [] ∧ Codes.HasSurrogate root) ∨ ∃ path ∈ paths, HasOddDirectory path := by
  constructor
  · rintro ⟨entry, hentry, hsurrogate⟩
    obtain ⟨path, hpath, hcovering⟩ := exists_of_mem_mapFor? h hentry
    obtain ⟨hstart, hvalue⟩ := hasSurrogate_covering? hcovering
    obtain hroot | hodd := hsurrogate.elim hstart.mp (.inr ∘ hvalue)
    · exact .inl ⟨List.ne_nil_of_mem hpath, hroot⟩
    · exact .inr ⟨path, hpath, hodd⟩
  · intro hsurrogate
    obtain ⟨path, hpath, hsurrogate⟩ :
        ∃ path ∈ paths, Codes.HasSurrogate root ∨ HasOddDirectory path := by
      obtain ⟨hne, hroot⟩ | ⟨path, hpath, hodd⟩ := hsurrogate
      · obtain ⟨path, hpath⟩ := List.exists_mem_of_ne_nil paths hne
        exact ⟨path, hpath, .inl hroot⟩
      · exact ⟨path, hpath, .inr hodd⟩
    obtain ⟨entry, hcovering, hmem⟩ := exists_covering?_of_mem h hpath
    obtain ⟨known, hknown, hsame⟩ := List.mem_map.mp hmem
    exact ⟨known, hknown, .inl (hsame ▸ (hasSurrogate_covering? hcovering).1.mpr hsurrogate)⟩

end Manifest

end Namespacer
