import Namespacer.Proofs.IndexFreshness
import Namespacer.Proofs.JobRun
import Mathlib.Data.Finset.Card

/-!
# What building an index registers

The files of a registry are taken in order. A file that declares a type is registered under
the name of the type, unless an earlier file has that name in some letter case; then it is
outdone, and a warning tells which file kept the name.

* `SymbolIndex.nodup_register`, `SymbolIndex.mem_symbols_build`: the registered names are the
  names of the declared types, each in one letter case.
* `SymbolIndex.forall₂_outdone_register`: the warnings are about the files that are outdone, in
  their order.
* `Job.returns_buildIndex`: what building an index returns and logs.
-/

namespace Namespacer

/-- Whether a file declares a type that can be imported: it is no template and has a namespace
that is not empty. -/
def SourceFile.isDeclaring (file : SourceFile) : Bool :=
  !file.isTemplate && file.properNamespace?.isSome

theorem SourceFile.declares_eq (file : SourceFile) (name : Text) :
    file.declares name = (file.isDeclaring && Text.lower file.typeName == Text.lower name) := rfl

theorem SourceFile.declares_typeName (file : SourceFile) :
    file.declares file.typeName = file.isDeclaring := by
  rw [declares_eq, beq_self_eq_true, Bool.and_true]

namespace SymbolIndex

/-! ## Registered names -/

/-- A name is registered in some letter case exactly if a file declares it. -/
theorem mem_symbols_build {files : List SourceFile} {folded : Text} :
    folded ∈ (build files).1.symbols.map (fun symbol => Text.lower symbol.1) ↔
      folded ∈ (files.filter (·.isDeclaring)).map fun file => Text.lower file.typeName := by
  simp only [List.mem_map, List.mem_filter]
  constructor
  · rintro ⟨⟨name, qualified⟩, hsymbol, rfl⟩
    rcases mem_register hsymbol with hknown | ⟨file, hfile, htemplate, hspace, hname, -⟩
    · cases hknown
    · refine ⟨file, ⟨hfile, ?_⟩, by rw [hname]⟩
      rw [SourceFile.isDeclaring, htemplate, hspace]
      rfl
  · rintro ⟨file, ⟨hfile, hdeclaring⟩, rfl⟩
    have hsome : ((build files).1.lookup? file.typeName).isSome = true := by
      rw [lookup?_build_eq_find?, Option.isSome_map, List.find?_isSome]
      exact ⟨file, hfile, by rw [SourceFile.declares_typeName, hdeclaring]⟩
    obtain ⟨qualified, hlookup⟩ := Option.isSome_iff_exists.mp hsome
    obtain ⟨other, hsymbol, hlower⟩ := exists_mem_of_lookup? hlookup
    exact ⟨(other, qualified), hsymbol, hlower⟩

/-- An index has one symbol for each name that is declared, letter case aside. -/
theorem length_symbols_build (files : List SourceFile) :
    (build files).1.symbols.length =
      ((files.filter (·.isDeclaring)).map fun file => Text.lower file.typeName).toFinset.card := by
  have hnodup : ((build files).1.symbols.map fun symbol => Text.lower symbol.1).Nodup :=
    nodup_register List.nodup_nil
  rw [← List.length_map (fun symbol => Text.lower symbol.1), ← List.toFinset_card_of_nodup hnodup]
  congr 1
  ext folded
  rw [List.mem_toFinset, List.mem_toFinset, mem_symbols_build]

/-! ## Files that are outdone -/

/-- Whether a file declares a type whose name one of the earlier files declares. -/
def isOutdone (earlier : List SourceFile) (file : SourceFile) : Bool :=
  file.isDeclaring && earlier.any (·.declares file.typeName)

/-- The files of a registry that an earlier one outdoes, in order. -/
def outdone (files : List SourceFile) : List SourceFile :=
  (files.zipIdx.filter fun (file, place) => isOutdone (files.take place) file).map (·.1)

/-- A warning says that a file lost its name, and which qualified name stands for it. -/
structure Reports (answer : Text → Option Text) (file : SourceFile) (warning : DuplicateType) :
    Prop where
  name : warning.name = file.typeName
  kept : answer file.typeName = some warning.kept
  ignored : warning.ignored = file.qualifiedName
  path : warning.path = file.path.toText

/-- The symbols are those of some files: the first of them that declares a name keeps it. -/
def KnownFrom (earlier : List SourceFile) (symbols : List (Text × Text)) : Prop :=
  ∀ name, lookupFolded? symbols name =
    (earlier.find? (·.declares name)).map (·.qualifiedName)

theorem KnownFrom.isSome_lookupFolded? {earlier : List SourceFile} {symbols : List (Text × Text)}
    (h : KnownFrom earlier symbols) (name : Text) :
    (lookupFolded? symbols name).isSome = earlier.any (·.declares name) := by
  rw [h, Option.isSome_map, Bool.eq_iff_iff, List.find?_isSome, List.any_eq_true]

/-- A file that declares nothing, or whose name is taken, adds nothing to what is known. -/
theorem KnownFrom.concat_of_isSome {earlier : List SourceFile} {symbols : List (Text × Text)}
    {file : SourceFile} (h : KnownFrom earlier symbols)
    (hfile : file.isDeclaring = true → (lookupFolded? symbols file.typeName).isSome = true) :
    KnownFrom (earlier ++ [file]) symbols := by
  intro name
  rw [h, List.find?_append]
  cases hdeclares : file.declares name with
  | false => simp [hdeclares]
  | true =>
    rw [SourceFile.declares_eq, Bool.and_eq_true, beq_iff_eq] at hdeclares
    obtain ⟨hdeclaring, hname⟩ := hdeclares
    have hsome : (lookupFolded? symbols name).isSome = true := by
      rw [lookupFolded?, ← hname]
      exact hfile hdeclaring
    rw [h, Option.isSome_map] at hsome
    obtain ⟨first, hfirst⟩ := Option.isSome_iff_exists.mp hsome
    rw [hfirst, Option.some_or]

theorem KnownFrom.concat_append {earlier : List SourceFile} {symbols : List (Text × Text)}
    {file : SourceFile} (h : KnownFrom earlier symbols) (hdeclaring : file.isDeclaring = true) :
    KnownFrom (earlier ++ [file]) (symbols ++ [(file.typeName, file.qualifiedName)]) := by
  intro name
  rw [lookupFolded?_append, h, List.find?_append, Option.map_or]
  congr 1
  have hdeclares : file.declares name = (Text.lower file.typeName == Text.lower name) := by
    rw [SourceFile.declares_eq, hdeclaring, Bool.true_and]
  rw [List.find?_singleton, hdeclares]
  split <;> rfl

/-- The warnings of a registration are about the files that are outdone, in their order. -/
theorem forall₂_outdone_register {earlier files : List SourceFile} {symbols : List (Text × Text)}
    (h : KnownFrom earlier symbols) :
    List.Forall₂ (Reports (lookupFolded? (register files symbols).1))
      (((files.zipIdx earlier.length).filter fun (file, place) =>
        isOutdone ((earlier ++ files).take place) file).map (·.1))
      (register files symbols).2 := by
  induction files generalizing earlier symbols with
  | nil => exact .nil
  | cons file files ih =>
    have hsplit : earlier ++ file :: files = (earlier ++ [file]) ++ files := by simp
    have hplace : (earlier ++ [file]).length = earlier.length + 1 := by simp
    have htake : (earlier ++ file :: files).take earlier.length = earlier := by simp
    have houtdone : isOutdone earlier file =
        (file.isDeclaring && (lookupFolded? symbols file.typeName).isSome) := by
      rw [isOutdone, h.isSome_lookupFolded?]
    rw [List.zipIdx_cons, List.filter_cons]
    simp only [htake, houtdone]
    rw [hsplit, ← hplace, register]
    split
    · rename_i hskipped
      have hdeclaring : file.isDeclaring = false := by
        rw [SourceFile.isDeclaring, Bool.and_eq_false_iff, Bool.not_eq_false', ← Option.not_isNone,
          Bool.not_eq_false']
        exact Bool.or_eq_true_iff.mp hskipped
      rw [hdeclaring, Bool.false_and, if_neg Bool.false_ne_true]
      exact ih (h.concat_of_isSome (by simp [hdeclaring]))
    · rename_i hkept
      have hdeclaring : file.isDeclaring = true := by
        rw [Bool.or_eq_true_iff, not_or, Bool.not_eq_true, Bool.not_eq_true] at hkept
        rw [SourceFile.isDeclaring, hkept.1, ← Option.not_isNone, hkept.2]
        rfl
      cases hknown : lookupFolded? symbols file.typeName with
      | none =>
        rw [hdeclaring, Option.isSome_none, Bool.and_false, if_neg Bool.false_ne_true]
        exact ih (h.concat_append hdeclaring)
      | some kept =>
        rw [hdeclaring, Option.isSome_some, Bool.and_true, if_pos rfl, List.map_cons]
        refine .cons ⟨rfl, ?_, rfl, rfl⟩ (ih (h.concat_of_isSome (by simp [hknown])))
        rw [lookupFolded?_register, hknown, Option.some_or]

end SymbolIndex

/-! ## Building an index -/

namespace Job

/-- Logging events adds them to the notices. -/
theorem returns_logAll_notices (events : List LogEvent) (before : Workspace) :
    (logAll events).Returns before ()
      { before with notices := before.notices ++ events.map .logged } := by
  induction events generalizing before with
  | nil =>
    rw [List.map_nil, List.append_nil]
    exact returns_pure.mpr ⟨rfl, rfl⟩
  | cons event events ih =>
    rw [List.map_cons, List.append_cons]
    exact returns_bind.mpr ⟨(), _, rfl, ih _⟩

/-- An index answers a name with the first file that declares it, has one symbol for each
name that is declared, letter case aside, and building it logs one warning for each file that
an earlier one outdoes, in order. -/
theorem returns_buildIndex (files : List SourceFile) (before : Workspace) :
    ∃ index warnings,
      (buildIndex files).Returns before index
        { before with notices :=
          before.notices ++ warnings.map fun warning => .logged (.duplicateTypeName warning) } ∧
      (∀ name, index.lookup? name = (files.find? (·.declares name)).map (·.qualifiedName)) ∧
      index.symbols.length =
        ((files.filter (·.isDeclaring)).map fun file => Text.lower file.typeName).toFinset.card ∧
      List.Forall₂ (SymbolIndex.Reports index.lookup?) (SymbolIndex.outdone files) warnings := by
  refine ⟨(SymbolIndex.build files).1, (SymbolIndex.build files).2, ?_,
    SymbolIndex.lookup?_build_eq_find? files, SymbolIndex.length_symbols_build files, ?_⟩
  · have hlogged := returns_logAll_notices
      ((SymbolIndex.build files).2.map LogEvent.duplicateTypeName) before
    rw [List.map_map] at hlogged
    exact returns_bind.mpr ⟨(), _, hlogged, returns_pure.mpr ⟨rfl, rfl⟩⟩
  · have hanswer : (SymbolIndex.build files).1.lookup? =
        SymbolIndex.lookupFolded? (SymbolIndex.register files []).1 :=
      funext fun name => SymbolIndex.lookup?_build files name
    rw [hanswer]
    exact @SymbolIndex.forall₂_outdone_register [] files [] fun _ => rfl

end Job

end Namespacer
