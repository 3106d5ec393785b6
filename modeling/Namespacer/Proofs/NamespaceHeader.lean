import Namespacer.Proofs.HeaderLexemes
import Namespacer.Proofs.IgnoredFiles
import Namespacer.Proofs.PascalStability
import Namespacer.Proofs.SettledFolders
import Namespacer.Proofs.TemplateHandling
import Namespacer.StandardTools

/-!
# Namespaces as they are written

The namespace of a file is made of the root namespace and of the names of its directories. Those
have been given their PascalCase forms, as far as that was possible, and a PascalCase form may
begin with a digit. The line that declares the namespace is put in the place of the first open
tag of the file, wherever that is.

* `isLabel_of_pascalCase`: an ASCII name in PascalCase is a label, or begins with a digit.
* `Job.migrate_eq`: a migration renames folders, prepares files, and writes what they are
  rendered to.
* `Job.isLabel_of_returns_loadProject`: the directories of a file after folders were renamed.
* `Job.declares_namespace_of_render`: the namespace that is written into a class file, and where
  its declaration stands.
* `Job.not_holdsOfRendered_legal`: the namespace need not consist of labels, and its declaration
  need neither come first nor be the only one.
-/

namespace Namespacer

variable {tools : Tools}

open Text Grammar

/-! ## Labels -/

/-- Whether a text is a label: a letter or an underscore, and then letters, digits and
underscores. -/
def isLabel : Text → Bool
  | [] => false
  | c :: text => (c.isAlpha || c == '_') && text.all fun d => d.isAlphanum || d == '_'

/-- An ASCII name in PascalCase is a label, or begins with a digit. -/
theorem isLabel_of_pascalCase {name : Text} (hascii : IsAscii name) (hne : name ≠ [])
    (h : pascalCase name = name) :
    isLabel name = true ∨ name.head?.any Char.isDigit = true := by
  have hletters : ∀ c ∈ name, c.isAlphanum = true := by
    intro c hc
    obtain ⟨hcode, halnum⟩ := ascii_of_mem_pascalCase hascii (h ▸ hc)
    exact forall_ascii (P := fun c => isAlphanumeric c = true → c.isAlphanum = true)
      (by decide) hcode halnum
  obtain ⟨c, rest, rfl⟩ := List.exists_cons_of_ne_nil hne
  rw [List.forall_mem_cons, Char.isAlphanum, Bool.or_eq_true] at hletters
  obtain ⟨hfirst | hfirst, hrest⟩ := hletters
  · refine .inl ?_
    rw [isLabel, hfirst, Bool.true_or, Bool.true_and, List.all_eq_true]
    intro d hd
    rw [hrest d hd, Bool.true_or]
  · exact .inr hfirst

theorem isNameChar_of_isLabel {label : Text} (h : isLabel label = true) :
    ∃ c run, label = c :: run ∧ isNameChar c = true ∧ ∀ d ∈ run, isNameChar d = true := by
  cases label with
  | nil => cases h
  | cons c run =>
    simp only [isLabel, Bool.and_eq_true, Bool.or_eq_true, beq_iff_eq, List.all_eq_true] at h
    refine ⟨c, run, rfl, ?_, fun d hd => ?_⟩
    · rcases h.1 with hc | rfl
      · simp [isNameChar, isNameStart, hc]
      · rfl
    · rcases h.2 d hd with hd | rfl
      · rw [Char.isAlphanum, Bool.or_eq_true] at hd
        rcases hd with hd | hd
        · simp [isNameChar, isNameStart, hd]
        · simp [isNameChar, hd]
      · rfl

/-- The segments of a root namespace. -/
def rootSegments (root : Text) : List Text :=
  (splitOn namespaceSeparator (normalizeNamespace root)).filter (!·.isEmpty)

theorem rootSegments_ne_nil {root : Text} (h : normalizeNamespace root ≠ []) :
    rootSegments root ≠ [] := by
  intro hnil
  -- The namespace of a path without directories is that of its root.
  refine namespaceFor_ne_nil h ⟨[], []⟩ ?_
  rw [namespaceFor, ← rootSegments, hnil]
  rfl

/-- A namespace below a root of labels begins with a word. -/
theorem beginsWithWord_join {root : Text} (hroot : normalizeNamespace root ≠ [])
    (hlabels : ∀ segment ∈ rootSegments root, isLabel segment = true) (directories : List Text) :
    BeginsWithWord (join [namespaceSeparator] (rootSegments root ++ directories)) := by
  obtain ⟨first, others, heq⟩ := List.exists_cons_of_ne_nil (rootSegments_ne_nil hroot)
  rw [heq, List.forall_mem_cons] at hlabels
  obtain ⟨c, run, rfl, hc, hrun⟩ := isNameChar_of_isLabel hlabels.1
  rw [heq, List.cons_append, join_cons]
  refine ⟨c, run, _, rfl, hc, hrun, ?_⟩
  cases others ++ directories with
  | nil => exact .inl rfl
  | cons next rest => exact .inr rfl

/-- The text of a class file has a header in the place of its first open tag. -/
theorem SourceFile.exists_headedText (file : SourceFile) {name text : Text}
    (hclass : file.isTemplate = false) (hname : file.namespaceName = some name) (hne : name ≠ [])
    (h : file.render = some text) :
    ∃ head tag tail, openTag.first? file.contents = some (head, tag, tail) ∧
      text = headedText head name file.imports tail := by
  have hproper : file.properNamespace? = some name := by simp [properNamespace?, hname, hne]
  rw [render, hclass, if_neg Bool.false_ne_true, replaceOpenTag, Option.map_eq_some_iff] at h
  obtain ⟨⟨head, tag, tail⟩, hfirst, rfl⟩ := h
  refine ⟨head, tag, tail, hfirst, ?_⟩
  simp only [classHeader, hproper, headedText, List.append_assoc]

/-! ## The stages of a migration -/

namespace Job

/-- The first stage of a migration: folders are renamed. -/
def renameProjectFolders (tools : Tools) (settings : Settings) : Job (List FolderRename) := do
  ensureUsable settings
  let folders ← renameFolders (← exclusion tools settings.exclude)
  log (.foldersRenamed folders.length)
  pure folders

/-- The second stage of a migration: files are renamed and their contents edited, and they are
given the namespaces and imports that are to be written. -/
def prepareFiles (tools : Tools) (settings : Settings) : Job (List SourceFile) := do
  let loaded ← loadProject tools settings
  let (files, renames) ← (← liftM (renameFiles loaded)).outcome
  log (.filesRenamed renames.length files.length)
  let _ ← updateManifest (files.map fun file => Manifest.partsOf file.path)
    (Json.codes settings.rootNamespace) (Json.codes settings.phpConstraint)
  let files := applyReplacements settings.replacements files
  let files := assignNamespaces files settings.rootNamespace
  resolve tools settings.fast files (← buildIndex files)

/-- The last stage of a migration: files are written as they are rendered. -/
def writeFiles (tools : Tools) (settings : Settings) (files : List SourceFile) :
    Job (List SourceFile) := do
  log (.filesWritten (← persist tools settings.encoding files))
  if settings.composerInstall then installPackages
  pure files

theorem migrate_eq (settings : Settings) :
    migrate tools settings =
      renameProjectFolders tools settings >>= fun _ =>
        prepareFiles tools settings >>= writeFiles tools settings := by
  simp only [migrate, renameProjectFolders, prepareFiles, bind_assoc, pure_bind]
  rfl

variable {settings : Settings} {files : List SourceFile} {before middle after : Workspace}

/-- The files that a migration returns are those that it prepares. -/
theorem exists_stages (h : (migrate tools settings).Returns before files after) :
    ∃ folders middle stop, (renameProjectFolders tools settings).Returns before folders middle ∧
      (prepareFiles tools settings).Returns middle files stop := by
  rw [migrate_eq, returns_bind] at h
  obtain ⟨folders, middle, hfolders, h⟩ := h
  rw [returns_bind] at h
  obtain ⟨prepared, stop, hprepared, h⟩ := h
  rw [writeFiles, returns_bind] at h
  obtain ⟨count, w₁, -, h⟩ := h
  rw [returns_bind] at h
  obtain ⟨_, w₂, -, h⟩ := h
  have hfiles : files = prepared := by
    split at h
    · rw [returns_bind] at h
      obtain ⟨_, _, -, h⟩ := h
      exact (returns_pure.mp h).1
    · exact (returns_pure.mp h).1
  exact ⟨folders, middle, stop, hfolders, hfiles ▸ hprepared⟩

/-- After the first stage the folders that a walk enters keep their names. -/
theorem returns_renameProjectFolders {folders : List FolderRename} (tree : before.disk.IsTree)
    (hascii : ∀ entry ∈ before.disk.entries, ∀ name ∈ entry.1, IsAscii name)
    (h : (renameProjectFolders tools settings).Returns before folders middle) :
    normalizeNamespace settings.rootNamespace ≠ [] ∧ middle.disk.IsTree ∧
      middle.disk.HasSettledFolders (tools.excludedBy settings.exclude) ∧
        ∀ location entry, middle.disk.get? location = some entry →
          ∀ name ∈ location, IsAscii name := by
  rw [renameProjectFolders, returns_bind] at h
  obtain ⟨_, w₁, husable, h⟩ := h
  rw [returns_bind] at h
  obtain ⟨excludes, w₂, hexcludes, h⟩ := h
  rw [returns_bind] at h
  obtain ⟨renames, w₃, hfolders, h⟩ := h
  rw [returns_bind] at h
  obtain ⟨_, w₄, hlog, h⟩ := h
  obtain ⟨rfl, rfl⟩ := returns_pure.mp h
  obtain ⟨hroot, rfl⟩ := returns_ensureUsable.mp husable
  replace hroot : normalizeNamespace settings.rootNamespace ≠ [] := by
    simpa [Settings.isUsable] using hroot
  obtain ⟨rfl, rfl⟩ := returns_exclusion hexcludes
  have hnames : ∀ location entry, w₂.disk.get? location = some entry →
      ∀ name ∈ location, IsAscii name := fun _ _ => Disk.forall_name_of_get? hascii
  have hstable : w₂.disk.HasStableNames := fun location entry hget name hname =>
    pascalCase_pascalCase (hnames location entry hget name hname)
  have hmoves := (returns_renameFolders tree hfolders).1
  rw [hlog.disk_eq (keepsDisk_log _)]
  refine ⟨hroot, hmoves.isTree tree,
    hasSettledFolders_of_returns_renameFolders tree hstable hfolders,
    hmoves.forall_name tree (fun name hname c hc => ?_) hnames⟩
  exact (ascii_of_mem_pascalCase hname hc).1

/-- Renaming files leaves them in their directories. -/
theorem parent_placeAfter {loaded : List SourceFile} {done : List FileRename}
    (hdone : done ⊆ FileRename.plan loaded) (path : Path) :
    (FileRename.placeAfter done path).parent = path.parent := by
  rw [FileRename.placeAfter]
  cases hof : FileRename.of? done path with
  | none => rfl
  | some rename =>
    obtain ⟨-, -, rfl⟩ :=
      FileRename.ofPath?_eq_some_iff.mp (FileRename.ofPath?_of_of? hdone hof)
    simp [Path.withName, Path.child, Path.parent]

/-- Prepared files are loaded files, where they have been renamed to, in their namespaces. -/
theorem returns_prepareFiles (tree : middle.disk.IsTree)
    (h : (prepareFiles tools settings).Returns middle files after) :
    ∃ loaded stop, (loadProject tools settings).Returns middle loaded stop ∧ ∀ file ∈ files,
      (∃ source ∈ loaded, file.path.parent = source.path.parent) ∧
        file.namespaceName = some (namespaceFor file.path settings.rootNamespace) := by
  rw [prepareFiles, returns_bind] at h
  obtain ⟨loaded, w₁, hload, h⟩ := h
  rw [returns_bind] at h
  obtain ⟨run, w₂, hrun, h⟩ := h
  rw [returns_bind] at h
  obtain ⟨⟨renamed, renames⟩, w₃, houtcome, h⟩ := h
  rw [returns_bind] at h
  obtain ⟨_, w₄, -, h⟩ := h
  rw [returns_bind] at h
  obtain ⟨_, w₅, -, h⟩ := h
  rw [returns_bind] at h
  obtain ⟨index, w₆, -, hresolve⟩ := h
  obtain ⟨found, hdone, hcarries, -, hpaths⟩ :=
    returns_outcome_renameFiles tree hload (returns_liftM.mp hrun) houtcome
  refine ⟨loaded, w₁, hload, fun file hfile => ?_⟩
  have hparts : files.map (fun file => (file.path, file.namespaceName)) =
      (settings.prepared renamed).map fun file => (file.path, file.namespaceName) :=
    map_of_returns_resolve (fun _ _ => rfl) hresolve
  have hmem := List.mem_map_of_mem (f := fun file => (file.path, file.namespaceName)) hfile
  rw [hparts, List.mem_map] at hmem
  obtain ⟨prepared, hprepared, heq⟩ := hmem
  rw [Prod.mk.injEq] at heq
  have hplaces : (settings.prepared renamed).map (·.path) =
      loaded.map fun file => FileRename.placeAfter renames file.path := by
    rw [settings.map_path_prepared, hpaths, hcarries.map_path, hdone]
  obtain ⟨source, hsource, hplace⟩ :=
    List.mem_map.mp (hplaces ▸ List.mem_map_of_mem hprepared)
  refine ⟨⟨source, hsource, ?_⟩, ?_⟩
  · rw [← heq.1, ← hplace, parent_placeAfter (hdone ▸ hcarries.done.subset)]
  · rw [← heq.2, ← heq.1, Settings.namespaceName_of_mem_prepared hprepared]

/-- No folder above a loaded file is left alone. -/
theorem not_leavesFolder_of_returns_loadProject {loaded : List SourceFile} {stop : Workspace}
    (tree : before.disk.IsTree) (h : (loadProject tools settings).Returns before loaded stop)
    {file : SourceFile} (hfile : file ∈ loaded) {above rest : Location} (habove : above ≠ [])
    (hrest : rest ≠ []) (heq : file.path.names = above ++ rest) :
    leavesFolder (tools.excludedBy settings.exclude) above = false := by
  rw [loadProject, returns_bind] at h
  obtain ⟨paths, w₁, hpaths, h⟩ := h
  obtain ⟨keeps, excludes, w₂, w₃, -, hexcludes, rfl⟩ := returns_discover hpaths
  have hmem := (returns_loadAll h).1.subset (List.mem_map_of_mem hfile)
  have henters := Selection.enters_of_mem_paths tree hmem habove hrest heq
  simp only [Selection.enters, (returns_exclusion hexcludes).1, Bool.and_eq_true, Bool.not_eq_true'] at henters
  simp only [leavesFolder, henters.1.1, henters.1.2, henters.2, Bool.or_false]

section

variable {loaded : List SourceFile} {stop : Workspace} (tree : middle.disk.IsTree)
  (hload : (loadProject tools settings).Returns middle loaded stop) {file : SourceFile}
  (hfile : file ∈ loaded)

include tree hload hfile

theorem isRelative_of_returns_loadProject : file.path.IsRelative := by
  have hnamed := namesFile_of_returns_loadProject tree hload hfile
  obtain ⟨hanchor, bytes, hget⟩ := id hnamed
  refine ⟨hanchor, hnamed.ne_nil, fun name hname => ?_⟩
  exact (tree.names _ (Disk.mem_of_get? hnamed.ne_nil hget) name hname).1

/-- The directories of a loaded file make up the last segments of its namespace. -/
theorem namespaceFor_of_returns_loadProject (root : Text) :
    namespaceFor file.path root =
      join [namespaceSeparator] (rootSegments root ++ file.path.parent.names) := by
  have hrelative := isRelative_of_returns_loadProject tree hload hfile
  rw [namespaceFor, ← rootSegments, hrelative.filter_parts_parent]
  rfl

/-- A directory of a loaded file keeps its name, if the folders are settled. -/
theorem keepsName_of_returns_loadProject {directory : Location} {segment : Text}
    (hsettled : middle.disk.HasSettledFolders (tools.excludedBy settings.exclude))
    (hle : directory ++ [segment] <+: file.path.parent.names) :
    middle.disk.get? (directory ++ [segment]) = some .directory ∧
      middle.disk.KeepsName directory segment := by
  obtain ⟨-, ⟨bytes, hget⟩, -⟩ := (returns_loadProject tree hload).2 file hfile
  have hne := (isRelative_of_returns_loadProject tree hload hfile).ne_nil
  have hentered : middle.disk.IsEntered (tools.excludedBy settings.exclude)
      (directory ++ [segment]) := by
    intro above habove hnonempty
    obtain ⟨rest, hrest⟩ := habove.trans hle
    have heq : file.path.names = above ++ (rest ++ [file.path.names.getLast hne]) := by
      rw [← List.append_assoc, hrest]
      exact (List.dropLast_append_getLast hne).symm
    refine ⟨tree.get?_above (by simp) (heq ▸ hget), ?_⟩
    exact not_leavesFolder_of_returns_loadProject tree hload hfile hnonempty (by simp) heq
  exact ⟨hentered.child.1, hsettled directory segment hentered⟩

/-- A directory of a loaded file is a label, or begins with a digit, or could not be given its
PascalCase form. -/
theorem isLabel_of_returns_loadProject {directory : Location} {segment : Text}
    (hsettled : middle.disk.HasSettledFolders (tools.excludedBy settings.exclude))
    (hascii : ∀ location entry, middle.disk.get? location = some entry →
      ∀ name ∈ location, IsAscii name)
    (hle : directory ++ [segment] <+: file.path.parent.names) :
    isLabel segment = true ∨ segment.head?.any Char.isDigit = true ∨
      pascalCase segment ≠ segment ∧ middle.disk.KeepsName directory segment := by
  obtain ⟨hget, hkeeps⟩ := keepsName_of_returns_loadProject tree hload hfile hsettled hle
  by_cases hpascal : pascalCase segment = segment
  · have hne : segment ≠ [] := by
      rintro rfl
      have hname := tree.names _ (Disk.mem_of_get? (by simp) hget) [] (by simp)
      exact absurd hname.1 (by decide)
    have hlabel := isLabel_of_pascalCase (hascii _ _ hget segment (by simp)) hne hpascal
    exact hlabel.imp_right .inl
  · exact .inr (.inr ⟨hpascal, hkeeps⟩)

end

/-! ## What is written -/

/-- Take a project with ASCII names, a root namespace of labels, and a class file that a
migration comes to render. Its namespace consists of the segments of the root namespace and of
its directories. Each of these is a label, or begins with a digit, or could not be given its
PascalCase form. The declaration stands in the place of the first open tag of the file: it is
the first statement if nothing but blanks stands before that tag. If the names in the header
consist of letters, digits, underscores and separators, and no tag stands before it, then one
namespace is declared besides those that the code behind the tag declares. -/
theorem declares_namespace_of_render {folders : List FolderRename} (tree : before.disk.IsTree)
    (hascii : ∀ entry ∈ before.disk.entries, ∀ name ∈ entry.1, IsAscii name)
    (hroot : ∀ segment ∈ rootSegments settings.rootNamespace, isLabel segment = true)
    (hfolders : (renameProjectFolders tools settings).Returns before folders middle)
    (hfiles : (prepareFiles tools settings).Returns middle files after) {file : SourceFile}
    (hfile : file ∈ files) (hsuffix : file.path.suffix ≠ ".phtml".toList) {text : Text}
    (hrender : file.render = some text) :
    (∀ directory segment, directory ++ [segment] <+: file.path.parent.names →
      isLabel segment = true ∨ segment.head?.any Char.isDigit = true ∨
        pascalCase segment ≠ segment ∧ middle.disk.KeepsName directory segment) ∧
    ∃ name head tag tail,
      name = join [namespaceSeparator]
        (rootSegments settings.rootNamespace ++ file.path.parent.names) ∧
      openTag.first? file.contents = some (head, tag, tail) ∧
      text = headedText head name file.imports tail ∧
      (head.all isSpace = true → beginsWithNamespace (lexemes text) = true) ∧
      (IsPlainName name → (∀ imported ∈ file.imports, IsPlainName imported) →
        ¬ "<?".toList <:+: head →
          namespaceCount (lexemes text) = 1 + namespaceCount (codeLexemes false tail)) := by
  obtain ⟨husable, treeMiddle, hsettled, hnames⟩ :=
    returns_renameProjectFolders tree hascii hfolders
  obtain ⟨loaded, stop, hload, hprepared⟩ := returns_prepareFiles treeMiddle hfiles
  obtain ⟨⟨source, hsource, hparent⟩, hnamespace⟩ := hprepared file hfile
  have hname : namespaceFor file.path settings.rootNamespace = join [namespaceSeparator]
      (rootSegments settings.rootNamespace ++ file.path.parent.names) := by
    rw [hparent, ← namespaceFor_of_returns_loadProject treeMiddle hload hsource, namespaceFor,
      hparent, ← namespaceFor]
  have hword := beginsWithWord_join husable hroot file.path.parent.names
  have hclass : file.isTemplate = false := beq_eq_false_iff_ne.mpr hsuffix
  obtain ⟨head, tag, tail, hfirst, rfl⟩ :=
    file.exists_headedText hclass hnamespace (namespaceFor_ne_nil husable _) hrender
  rw [hname]
  refine ⟨fun directory segment hle => ?_, _, head, tag, tail, rfl, hfirst, rfl, ?_, ?_⟩
  · rw [hparent] at hle
    exact isLabel_of_returns_loadProject treeMiddle hload hsource hsettled hnames hle
  · exact beginsWithNamespace_headedText hword
  · exact namespaceCount_headedText hword

/-- A project with a page in a numbered directory, which has literal text and a namespace of its
own, and a class file that extends the type of the page. -/
def numberedProject : Workspace where
  root := ⟨[], []⟩
  disk.entries := [(["my_blog".toList], .directory), (["my_blog".toList, "2fa".toList], .directory),
    (["my_blog".toList, "2fa".toList, "Page.php".toList],
      .file [60, 112, 62, 60, 63, 112, 104, 112, 32, 110, 97, 109, 101, 115, 112, 97, 99, 101, 32,
        79, 108, 100, 59]),
    (["Home.php".toList],
      .file [10, 60, 63, 112, 104, 112, 32, 99, 108, 97, 115, 115, 32, 72, 111, 109, 101, 32, 101,
        120, 116, 101, 110, 100, 115, 32, 80, 97, 103, 101, 32, 123, 125])]

/-- The page of the project after a migration. -/
def numberedPage : SourceFile :=
  ⟨⟨[], ["MyBlog".toList, "2Fa".toList, "Page.php".toList]⟩, "Page", "<p><?php namespace Old;",
    some "App\\MyBlog\\2Fa", []⟩

/-- The class file of the project after a migration. -/
def numberedHome : SourceFile :=
  ⟨⟨[], ["Home.php".toList]⟩, "Home", "\n<?php class Home extends Page \x7b\x7d", some "App",
    ["App\\MyBlog\\2Fa\\Page".toList]⟩

theorem returns_migrate_numbered :
    (migrate .standard plainSettings).Returns numberedProject [numberedHome, numberedPage]
      ((migrate .standard plainSettings).outcome numberedProject).2 :=
  returns_of_toOption (by decide +kernel)

theorem isAscii_numbered :
    ∀ entry ∈ numberedProject.disk.entries, ∀ name ∈ entry.1, IsAscii name := by
  simp [numberedProject, IsAscii]

/-- The class file of the project as it is written. -/
def numberedHomeText : Text :=
  "\n<?php\n\nnamespace App;\n\nuse App\\MyBlog\\2Fa\\Page;\n class Home extends Page \x7b\x7d"

theorem declares_namespace_of_render_numbered :
    numberedProject.disk.IsTree ∧
      (∀ entry ∈ numberedProject.disk.entries, ∀ name ∈ entry.1, IsAscii name) ∧
      (∀ segment ∈ rootSegments plainSettings.rootNamespace, isLabel segment = true) ∧
      numberedHome.path.suffix ≠ ".phtml".toList ∧ numberedHome.render = some numberedHomeText ∧
      ∃ folders middle stop,
        (renameProjectFolders .standard plainSettings).Returns numberedProject folders middle ∧
        (prepareFiles .standard plainSettings).Returns middle [numberedHome, numberedPage] stop ∧
        beginsWithNamespace (lexemes numberedHomeText) = true ∧
        namespaceCount (lexemes numberedHomeText) =
          1 + namespaceCount (codeLexemes false " class Home extends Page \x7b\x7d".toList) := by
  have tree : numberedProject.disk.IsTree := by decide
  have hlabels : ∀ segment ∈ rootSegments plainSettings.rootNamespace, isLabel segment = true := by
    decide
  have hsuffix : numberedHome.path.suffix ≠ ".phtml".toList := by decide
  have hrender : numberedHome.render = some numberedHomeText := by decide
  have hfirst : openTag.first? numberedHome.contents =
      some ("\n".toList, "<?php".toList, " class Home extends Page \x7b\x7d".toList) := by decide
  obtain ⟨folders, middle, stop, hfolders, hfiles⟩ := exists_stages returns_migrate_numbered
  obtain ⟨-, name, head, tag, tail, hname, hfound, -, hbegins, hcount⟩ :=
    declares_namespace_of_render tree isAscii_numbered hlabels hfolders hfiles
      List.mem_cons_self hsuffix hrender
  rw [hfirst, Option.some.injEq, Prod.mk.injEq, Prod.mk.injEq] at hfound
  obtain ⟨rfl, rfl, rfl⟩ := hfound
  have hplain : IsPlainName name := by
    have hroot : name = "App".toList := hname.trans (by decide)
    rw [hroot]
    exact List.all_eq_true.mp (by decide)
  have himports : ∀ imported ∈ numberedHome.imports, IsPlainName imported :=
    List.forall_mem_singleton.mpr (List.all_eq_true.mp (by decide))
  exact ⟨tree, isAscii_numbered, hlabels, hsuffix, hrender, folders, middle, stop, hfolders, hfiles,
    hbegins (by decide), hcount hplain himports (by decide)⟩

/-- A property of all class files that migrations of projects with ASCII names, under root
namespaces of labels, render, and of their texts. -/
def HoldsOfRendered (P : SourceFile → Text → Prop) : Prop :=
  ∀ (settings : Settings) (files : List SourceFile) (before after : Workspace),
    before.disk.IsTree → (∀ entry ∈ before.disk.entries, ∀ name ∈ entry.1, IsAscii name) →
      (∀ segment ∈ rootSegments settings.rootNamespace, isLabel segment = true) →
        (migrate .standard settings).Returns before files after → ∀ file ∈ files,
          file.path.suffix = ".php".toList → ∀ text, file.render = some text → P file text

/-- Not all segments of written namespaces are labels, not every written declaration is the
first statement, and not every one is the only declaration at top level. -/
theorem not_holdsOfRendered_legal :
    ¬ HoldsOfRendered (fun file _ => ∀ name ∈ file.namespaceName,
        ∀ segment ∈ splitOn namespaceSeparator name, isLabel segment = true) ∧
      ¬ HoldsOfRendered (fun _ text => beginsWithNamespace (lexemes text) = true) ∧
      ¬ HoldsOfRendered (fun _ text => namespaceCount (lexemes text) ≤ 1) := by
  have hpage {P : SourceFile → Text → Prop} (h : HoldsOfRendered P) : P numberedPage
      "<p><?php\n\nnamespace App\\MyBlog\\2Fa;\n\n namespace Old;" :=
    h plainSettings [numberedHome, numberedPage] numberedProject _ (by decide) isAscii_numbered
      (by decide) returns_migrate_numbered numberedPage (by simp) (by decide) _ (by decide)
  refine ⟨fun h => ?_, fun h => ?_, fun h => ?_⟩
  · exact absurd (hpage h) (by decide)
  · exact absurd (hpage h) (by decide +kernel)
  · exact absurd (hpage h) (by decide +kernel)

end Job

end Namespacer
