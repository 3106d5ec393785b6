import Namespacer.Proofs.AutoloadAgreement
import Namespacer.Proofs.ImportRecognition
import Namespacer.Proofs.RenamedFiles
import Namespacer.StandardTools

/-!
# Which files are handled as templates

A search for files takes suffixes in any letter case, and so does the table of languages. Only
the question whether a file is a template asks for the one spelling `.phtml`. Renaming keeps the
suffix of a file, so that the spelling it is found with decides how it is handled in the end.

* `SourceFile.IsHandledAsTemplate`, `SourceFile.IsHandledAsClass`: the two ways, by what the
  index knows of a file and what is written into it.
* `Job.handles_renamed`: which way the files of a project are handled.
* `Job.not_forall_isHandledAsTemplate`: a template that is handled as a class file.
-/

namespace Namespacer

variable {tools : Tools}

theorem namespaceFor_ne_nil {root : Text} (hroot : normalizeNamespace root ≠ []) (path : Path) :
    namespaceFor path root ≠ [] := by
  rw [namespaceFor]
  by_cases hempty : [] ∈ Text.splitOn namespaceSeparator (normalizeNamespace root)
  · obtain ⟨before, rest, d, after, -, hsegments, hjoin, -⟩ :=
      Text.exists_join_filter_splitOn (head?_normalizeNamespace root)
        (getLast?_normalizeNamespace root) hroot hempty
    rw [Text.join_append hsegments, hjoin]
    simp
  · rw [Text.filter_of_nil_not_mem hempty, Text.join_append (Text.splitOn_ne_nil _ _),
      Text.join_splitOn]
    exact List.append_ne_nil_of_left_ne_nil hroot _

/-! ## Two ways to handle a file -/

namespace SourceFile

/-- A file among others is handled as a template: the symbols are those of the other files, and
whatever it imports, at most a block of imports is written into it, in the place of an open tag
or at its start. -/
structure IsHandledAsTemplate (files : List SourceFile) (file : SourceFile) : Prop where
  unregistered : ∀ before after, files = before ++ file :: after →
    (SymbolIndex.build files).1.symbols = (SymbolIndex.build (before ++ after)).1.symbols
  written : ∀ imports text, { file with imports }.render = some text →
    ∃ before tag close after, file.contents = before ++ tag ++ after ∧
      text = before ++ phpHeader ++ useBlock imports ++ close ++ after ∧
        (close = [] ∨ before ++ tag = [] ∧ close = "\n?>\n\n".toList)

/-- A file among others is handled as a class file: the index finds its type unless a file
before it has the name, and whatever it imports, a namespace is written in the place of its
first open tag. -/
structure IsHandledAsClass (files : List SourceFile) (file : SourceFile) : Prop where
  registered : ∀ before after, files = before ++ file :: after →
    (SymbolIndex.build before).1.lookup? file.typeName = none →
      (SymbolIndex.build files).1.lookup? file.typeName = some file.qualifiedName
  written : ∃ name, name ≠ [] ∧ ∀ imports before tag after,
    openTag.first? file.contents = some (before, tag, after) →
      { file with imports }.render = some (before ++ phpHeader ++
        ("namespace ".toList ++ name ++ ";\n\n".toList) ++ useBlock imports ++ after)

end SourceFile

theorem SymbolIndex.register_skip {file : SourceFile} (h : file.isTemplate = true)
    (before after : List SourceFile) (symbols : List (Text × Text)) :
    (register (before ++ file :: after) symbols).1 = (register (before ++ after) symbols).1 := by
  induction before generalizing symbols with
  | nil => rw [List.nil_append, register, if_pos (by simp [h]), List.nil_append]
  | cons first before ih =>
    rw [List.cons_append, List.cons_append, register, register]
    split
    · exact ih symbols
    · split
      · exact ih symbols
      · exact ih _

namespace SourceFile

variable {files : List SourceFile} {file : SourceFile}

theorem isHandledAsTemplate (h : file.isTemplate = true) : IsHandledAsTemplate files file where
  unregistered before after heq := by
    rw [heq]
    exact SymbolIndex.register_skip h before after []
  written imports text hrender := by
    have htemplate : ({ file with imports } : SourceFile).isTemplate = true := h
    rw [render, if_pos htemplate, renderTemplate] at hrender
    split at hrender
    · cases hrender
    split at hrender
    · obtain ⟨before, tag, after, hcontents, -, rfl⟩ := replaceOpenTag_eq_some hrender
      exact ⟨before, '<' :: tag, [], after, hcontents, by simp, .inl rfl⟩
    · cases hrender
      exact ⟨[], [], "\n?>\n\n".toList, file.contents, rfl, by simp, .inr ⟨rfl, rfl⟩⟩

theorem isHandledAsClass {name : Text} (h : file.isTemplate = false)
    (hname : file.namespaceName = some name) (hne : name ≠ []) :
    IsHandledAsClass files file where
  registered before after heq hfree := by
    have hdeclares : file.declares file.typeName = true := by
      simp [declares, h, properNamespace?, hname, hne]
    rw [SymbolIndex.lookup?_build_eq_find?, Option.map_eq_none_iff] at hfree
    rw [heq, SymbolIndex.lookup?_build_eq_find?, List.find?_append, hfree, Option.none_or,
      List.find?_cons_of_pos hdeclares, Option.map_some]
  written := by
    refine ⟨name, hne, fun imports before tag after hfirst => ?_⟩
    have hclass : ({ file with imports } : SourceFile).isTemplate = false := h
    have hproper : ({ file with imports } : SourceFile).properNamespace? = some name := by
      simp [properNamespace?, hname, hne]
    rw [render, hclass, if_neg Bool.false_ne_true, replaceOpenTag, hfirst, classHeader, hproper]
    simp

end SourceFile

/-! ## The files of a project -/

/-- Files as they are indexed: with the replacements made, and in their namespaces. -/
def Settings.prepared (settings : Settings) (files : List SourceFile) : List SourceFile :=
  assignNamespaces (applyReplacements settings.replacements files) settings.rootNamespace

theorem Settings.map_path_prepared (settings : Settings) (files : List SourceFile) :
    (settings.prepared files).map (·.path) = files.map (·.path) := by
  rw [prepared, assignNamespaces, applyReplacements, List.map_map, List.map_map]
  rfl

theorem Settings.namespaceName_of_mem_prepared {settings : Settings} {files : List SourceFile}
    {file : SourceFile} (h : file ∈ settings.prepared files) :
    file.namespaceName = some (namespaceFor file.path settings.rootNamespace) := by
  obtain ⟨source, -, rfl⟩ := List.mem_map.mp h
  rfl

namespace Job

variable {settings : Settings} {loaded : List SourceFile} {before stop : Workspace}

/-- A loaded file keeps its suffix when files are renamed. -/
theorem suffix_placeAfter (tree : before.disk.IsTree)
    (hload : (loadProject tools settings).Returns before loaded stop) {done : List FileRename}
    (hdone : done ⊆ FileRename.plan loaded) {file : SourceFile} (hfile : file ∈ loaded) :
    (FileRename.placeAfter done file.path).suffix = file.path.suffix := by
  rw [FileRename.placeAfter]
  cases hof : FileRename.of? done file.path with
  | none => rfl
  | some rename =>
    have hsuffix := ((returns_loadProject tree hload).2 file hfile).2.2.1
    exact FileRename.suffix_newPath (FileRename.ofPath?_of_of? hdone hof) hsuffix

/-- Loaded files are renamed without failure and keep their suffixes. With a usable root
namespace, those with the suffix `.phtml` in this very spelling are then handled as templates,
and all others as class files. -/
theorem handles_renamed (tree : before.disk.IsTree) (husable : settings.isUsable = true)
    (hload : (loadProject tools settings).Returns before loaded stop) :
    ∃ run after, (renameFiles loaded).run stop = (run, after) ∧ run.failure = none ∧
      List.Forall₂ (fun source file => file.path.suffix = source.path.suffix ∧
        (source.path.suffix = ".phtml".toList →
          SourceFile.IsHandledAsTemplate (settings.prepared run.files) file) ∧
        (source.path.suffix ≠ ".phtml".toList →
          SourceFile.IsHandledAsClass (settings.prepared run.files) file))
        loaded (settings.prepared run.files) := by
  obtain ⟨run, carried, edited, hrun, hcarries, -, hpaths⟩ := exists_renameFiles tree hload
  refine ⟨_, carried, hrun, hcarries.complete, ?_⟩
  have hroot : normalizeNamespace settings.rootNamespace ≠ [] := by
    simpa [Settings.isUsable] using husable
  have hplaces : List.Forall₂ (fun source file => FileRename.placeAfter run.done source.path =
      file.path) loaded (settings.prepared edited) := by
    have hmap : loaded.map (fun source => FileRename.placeAfter run.done source.path) =
        (settings.prepared edited).map (·.path) := by
      rw [settings.map_path_prepared, hpaths, hcarries.map_path]
    rw [← List.forall₂_eq_eq_eq] at hmap
    rwa [List.forall₂_map_left_iff, List.forall₂_map_right_iff] at hmap
  refine List.forall₂_iff_zip.mpr ⟨hplaces.length_eq, fun {source file} hmem => ?_⟩
  obtain ⟨hsource, hfile⟩ := List.of_mem_zip hmem
  have hsuffix : file.path.suffix = source.path.suffix := by
    rw [← List.forall₂_zip hplaces hmem]
    exact suffix_placeAfter tree hload hcarries.done.subset hsource
  refine ⟨hsuffix, fun htemplate => ?_, fun hclass => ?_⟩
  · refine SourceFile.isHandledAsTemplate ?_
    rw [SourceFile.isTemplate, hsuffix, htemplate, beq_self_eq_true]
  · refine SourceFile.isHandledAsClass ?_ (Settings.namespaceName_of_mem_prepared hfile)
      (namespaceFor_ne_nil hroot _)
    rw [SourceFile.isTemplate, hsuffix]
    exact beq_eq_false_iff_ne.mpr hclass

/-- A project with two templates, one of them with its suffix in capitals. -/
def pageProject : Workspace where
  root := ⟨[], []⟩
  disk.entries := [(["Page.PHTML".toList],
      .file [60, 63, 112, 104, 112, 32, 101, 99, 104, 111, 32, 49, 59]),
    (["home_page.phtml".toList], .file [60, 112, 62])]

/-- The templates as they are loaded. -/
def pageFiles : List SourceFile :=
  [.ofPath ⟨[], ["Page.PHTML".toList]⟩ "<?php echo 1;",
    .ofPath ⟨[], ["home_page.phtml".toList]⟩ "<p>"]

/-- The templates after they were renamed. -/
def renamedPages : List SourceFile :=
  [.ofPath ⟨[], ["Page.PHTML".toList]⟩ "<?php echo 1;",
    .ofPath ⟨[], ["HomePage.phtml".toList]⟩ "<p>"]

theorem returns_loadProject_pages :
    (loadProject .standard plainSettings).Returns pageProject pageFiles
      ((loadProject .standard plainSettings).outcome pageProject).2 :=
  returns_of_toOption (by decide)

theorem handles_renamed_pages :
    pageProject.disk.IsTree ∧ plainSettings.isUsable = true ∧
      (loadProject .standard plainSettings).Returns pageProject pageFiles
        ((loadProject .standard plainSettings).outcome pageProject).2 ∧
      ∃ run after, (renameFiles pageFiles).run
          ((loadProject .standard plainSettings).outcome pageProject).2 = (run, after) ∧
        run.failure = none ∧
        List.Forall₂ (fun source file => file.path.suffix = source.path.suffix ∧
          (source.path.suffix = ".phtml".toList →
            SourceFile.IsHandledAsTemplate (plainSettings.prepared run.files) file) ∧
          (source.path.suffix ≠ ".phtml".toList →
            SourceFile.IsHandledAsClass (plainSettings.prepared run.files) file))
          pageFiles (plainSettings.prepared run.files) :=
  ⟨by decide, by decide, returns_loadProject_pages,
    handles_renamed (by decide) (by decide) returns_loadProject_pages⟩

/-- Not every file with the suffix of templates in some spelling is handled as a template: the
type name of `Page.PHTML` is registered. -/
theorem not_forall_isHandledAsTemplate :
    ¬ ∀ (settings : Settings) (loaded : List SourceFile) (before stop : Workspace),
      before.disk.IsTree → settings.isUsable = true →
        (loadProject .standard settings).Returns before loaded stop →
          ∀ file ∈ settings.prepared ((renameFiles loaded).run stop).1.files,
            Text.lower file.path.suffix = ".phtml".toList →
              SourceFile.IsHandledAsTemplate
                (settings.prepared ((renameFiles loaded).run stop).1.files) file := by
  intro h
  have hfiles : ((renameFiles pageFiles).run
      ((loadProject .standard plainSettings).outcome pageProject).2).1.files = renamedPages := by
    decide
  have hpages := h plainSettings pageFiles pageProject _ (by decide) (by decide)
    returns_loadProject_pages
  rw [hfiles] at hpages
  have hpage := hpages _ List.mem_cons_self (by decide)
  have hsymbols := hpage.unregistered [] _ rfl
  exact absurd hsymbols (by decide)

end Job

end Namespacer
