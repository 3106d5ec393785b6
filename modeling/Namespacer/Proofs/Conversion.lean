import Mathlib.Data.List.Nodup
import Namespacer.Analysis

/-!
# The conversion by recursion

The recursion marks every node with its tree and reads the trees of the nodes
below from their marks. It rests on `build`, which looks at nothing but the kind
and the range of a node, at its visible children and those with a field name, and
at the trees of the nodes that it asks for.

* `KeepsView.build`: a map that keeps what a reader sees of a tree can be made before
  or after a tree is built.
* `toTree_eq`: the tree of a node is built from the trees below it.
* `toTree_withField`: what a node is to its parent does not change its tree.
* `build_congr_requested`: no tree is looked at but those that are asked for.
* `KeepsView.toTree`: a map that keeps what a reader sees keeps the syntax tree.
-/

namespace Namespacer.Concrete

variable {μ ν : Type}

/-! ## The nodes of a tree -/

mutual

/-- The nodes of a tree in pre-order. -/
def nodes : Concrete μ → List (Concrete μ)
  | node mark kind named field start stop children =>
    node mark kind named field start stop children :: nodesAll children

/-- The nodes of some trees. -/
def nodesAll : List (Concrete μ) → List (Concrete μ)
  | [] => []
  | n :: rest => nodes n ++ nodesAll rest

end

/-- The nodes below a node. -/
def descendants (n : Concrete μ) : List (Concrete μ) := nodesAll n.children

theorem nodes_eq (n : Concrete μ) : n.nodes = n :: n.descendants := by
  cases n
  rw [nodes, descendants, children]

theorem mem_nodesAll {m : Concrete μ} {trees : List (Concrete μ)} :
    m ∈ nodesAll trees ↔ ∃ n ∈ trees, m ∈ n.nodes := by
  induction trees with
  | nil => simp [nodesAll]
  | cons n trees ih => simp [nodesAll, ih]

theorem mem_nodes_self (n : Concrete μ) : n ∈ n.nodes := by simp [nodes_eq]

theorem mem_descendants_of_mem_children {c n : Concrete μ} (h : c ∈ n.children) : c ∈ n.descendants :=
  mem_nodesAll.mpr ⟨c, h, mem_nodes_self c⟩

theorem mem_nodes_of_mem_descendants {m n : Concrete μ} (h : m ∈ n.descendants) : m ∈ n.nodes := by
  rw [nodes_eq]
  exact List.mem_cons_of_mem n h

theorem size_eq (n : Concrete μ) : n.size = 1 + sizeAll n.children := by
  cases n
  rw [size, children]

theorem size_le_sizeAll {n : Concrete μ} {trees : List (Concrete μ)} (h : n ∈ trees) :
    n.size ≤ sizeAll trees := by
  induction trees with
  | nil => cases h
  | cons first trees ih =>
    rw [sizeAll]
    rcases List.mem_cons.mp h with rfl | hrest
    · omega
    · have := ih hrest
      omega

theorem size_lt_of_mem_children {c n : Concrete μ} (h : c ∈ n.children) : c.size < n.size := by
  have hle := size_le_sizeAll h
  rw [size_eq n]
  omega

/-- An induction over trees: a property holds of a node if it holds of its children. -/
theorem induction_children {P : Concrete μ → Prop}
    (step : ∀ n, (∀ c ∈ n.children, P c) → P n) (n : Concrete μ) : P n :=
  step n fun c hc =>
    have := size_lt_of_mem_children hc
    induction_children step c
termination_by n.size

/-- The nodes of a node below are nodes below. -/
theorem mem_nodes_trans {l m n : Concrete μ} (hl : l ∈ m.nodes) (hm : m ∈ n.nodes) :
    l ∈ n.nodes := by
  induction n using induction_children with
  | step n ih =>
    rw [nodes_eq] at hm
    rcases List.mem_cons.mp hm with rfl | hmem
    · exact hl
    · obtain ⟨c, hc, hmc⟩ := mem_nodesAll.mp hmem
      exact mem_nodes_of_mem_descendants (mem_nodesAll.mpr ⟨c, hc, ih c hc hmc⟩)

theorem mem_descendants_of_mem_nodes {l m n : Concrete μ} (hl : l ∈ m.nodes) (hm : m ∈ n.descendants) :
    l ∈ n.descendants := by
  obtain ⟨c, hc, hmc⟩ := mem_nodesAll.mp hm
  exact mem_nodesAll.mpr ⟨c, hc, mem_nodes_trans hl hmc⟩

theorem mem_children_of_mem_visible {c n : Concrete μ} (h : c ∈ n.visible) : c ∈ n.children :=
  (List.mem_filter.mp h).1

theorem mem_children_of_childAt? {c n : Concrete μ} {field : String}
    (h : n.childAt? field = some c) : c ∈ n.children :=
  List.mem_of_find?_eq_some h

/-! ## Maps that keep what a reader sees -/

theorem orElse_map {α β : Type} (f : α → β) (a b : Option α) :
    (a.map f <|> b.map f) = (a <|> b).map f := by
  cases a <;> rfl

/-- A map between trees that keeps the kinds and ranges of nodes, and the visible children and
those with a field name. Other children may come and go. -/
structure KeepsView (h : Concrete μ → Concrete ν) : Prop where
  kind (n : Concrete μ) : (h n).kind = n.kind
  start (n : Concrete μ) : (h n).start = n.start
  stop (n : Concrete μ) : (h n).stop = n.stop
  visible (n : Concrete μ) : (h n).visible = n.visible.map h
  childAt? (n : Concrete μ) (field : String) : (h n).childAt? field = (n.childAt? field).map h
  childrenAt (n : Concrete μ) (field : String) :
    (h n).childrenAt field = (n.childrenAt field).map h

/-- A map between trees that changes nothing but marks. -/
structure Relabels (h : Concrete μ → Concrete ν) : Prop where
  kind (n : Concrete μ) : (h n).kind = n.kind
  named (n : Concrete μ) : (h n).named = n.named
  field (n : Concrete μ) : (h n).field = n.field
  start (n : Concrete μ) : (h n).start = n.start
  stop (n : Concrete μ) : (h n).stop = n.stop
  children (n : Concrete μ) : (h n).children = n.children.map h

theorem Relabels.keepsView {h : Concrete μ → Concrete ν} (hh : Relabels h) : KeepsView h where
  kind := hh.kind
  start := hh.start
  stop := hh.stop
  visible n := by
    have hvisible (c : Concrete μ) : (h c).isVisible = c.isVisible := by
      simp only [isVisible, hh.named, hh.kind]
    simp [visible, hh.children, List.filter_map, Function.comp_def, hvisible]
  childAt? n field := by
    simp only [childAt?, hh.children, List.find?_map, Function.comp_def, hh.field]
  childrenAt n field := by
    simp [childrenAt, hh.children, List.filter_map, Function.comp_def, hh.field]

namespace KeepsView

variable {h : Concrete μ → Concrete ν} (hh : KeepsView h) (source : Text)
include hh

theorem text (n : Concrete μ) : (h n).text source = n.text source := by
  simp only [Concrete.text, hh.start, hh.stop]

theorem name? (n : Concrete μ) : (h n).name? source = n.name? source := by
  simp only [Concrete.name?, hh.kind, hh.text]

theorem bind_name? (n : Option (Concrete μ)) :
    (n.map h).bind (Concrete.name? source) = n.bind (Concrete.name? source) := by
  cases n <;> simp [hh.name?]

theorem map_text (n : Option (Concrete μ)) :
    (n.map h).map (Concrete.text source) = n.map (Concrete.text source) := by
  cases n <;> simp [hh.text]

theorem declaredName? (n : Option (Concrete μ)) :
    Concrete.declaredName? source (n.map h) = Concrete.declaredName? source n := by
  cases n <;> simp [Concrete.declaredName?, hh.text]

end KeepsView

theorem typeNames_eq (source : Text) (n : Concrete μ) :
    typeNames source n =
      if isBuiltInTypeKind n.kind then []
      else if isNameKind n.kind then (n.name? source).toList
      else n.visible.flatMap (typeNames source) := by
  have hall : ∀ trees : List (Concrete μ),
      typeNamesAll source trees = (trees.filter Concrete.isVisible).flatMap (typeNames source) := by
    intro trees
    induction trees with
    | nil => rfl
    | cons n trees ih =>
      rw [typeNamesAll, ih]
      cases hvisible : n.isVisible <;> simp [hvisible]
  cases n
  rw [typeNames, hall, kind, visible, children]

namespace KeepsView

variable {h : Concrete μ → Concrete ν} (hh : KeepsView h) (source : Text) (convert : Concrete ν → Tree)
include hh

theorem typeNames (n : Concrete μ) : typeNames source (h n) = typeNames source n := by
  induction n using induction_children with
  | step n ih =>
    have hvisible : (n.visible.map h).flatMap (Concrete.typeNames source) =
        n.visible.flatMap (Concrete.typeNames source) := by
      rw [List.flatMap_map]
      exact List.flatMap_congr fun c hc => ih c (mem_children_of_mem_visible hc)
    rw [typeNames_eq, typeNames_eq source n, hh.kind, hh.name?, hh.visible, hvisible]

theorem typeNames? (n : Option (Concrete μ)) :
    Concrete.typeNames? source (n.map h) = Concrete.typeNames? source n := by
  cases n <;> simp [Concrete.typeNames?, hh.typeNames]

theorem declaredType? (n : Concrete μ) : (h n).declaredType? = n.declaredType?.map h := by
  simp only [Concrete.declaredType?, hh.childAt?, hh.visible, List.find?_map, Function.comp_def,
    hh.kind]
  cases n.childAt? "type" <;> rfl

theorem clauseNames (n : Concrete μ) : (h n).clauseNames source = n.clauseNames source := by
  simp [Concrete.clauseNames, hh.visible, List.filterMap_map, hh.name?]

theorem bodyOf (n : Concrete μ) : (h n).bodyOf convert = n.bodyOf (convert ∘ h) := by
  simp [Concrete.bodyOf, hh.childAt?]

theorem visibleTrees (n : Option (Concrete μ)) :
    Concrete.visibleTrees convert (n.map h) = Concrete.visibleTrees (convert ∘ h) n := by
  cases n <;> simp [Concrete.visibleTrees, hh.visible]

theorem addMember (declaration : ClassDeclaration Tree) (c : Concrete μ) :
    Concrete.addMember source convert declaration (h c) =
      Concrete.addMember source (convert ∘ h) declaration c := by
  simp only [Concrete.addMember, hh.kind, hh.clauseNames, hh.visible, List.map_map]

theorem classOf (n : Concrete μ) : (h n).classOf source convert = n.classOf source (convert ∘ h) := by
  simp only [Concrete.classOf, hh.visible, hh.childAt?, hh.declaredName?, hh.kind, List.foldl_map,
    hh.addMember]

theorem creationAdd (creation : Creation) (c : Concrete μ) :
    Creation.add source convert creation (h c) = Creation.add source (convert ∘ h) creation c := by
  have harguments := hh.visibleTrees convert (some c)
  rw [Option.map_some] at harguments
  simp only [Creation.add, hh.kind, hh.name?, hh.classOf, hh.visible, List.find?_map,
    Function.comp_def (fun n => Concrete.kind n == "arguments"), hh.visibleTrees, harguments]

theorem creationOf (n : Concrete μ) :
    (h n).creationOf source convert = n.creationOf source (convert ∘ h) := by
  simp only [Concrete.creationOf, hh.visible, List.foldl_map, hh.creationAdd, hh.classOf]

theorem caughtTypes (n : Concrete μ) : (h n).caughtTypes source = n.caughtTypes source := by
  rw [Concrete.caughtTypes, hh.childAt?, hh.visible, Concrete.caughtTypes]
  cases n.childAt? "type" <;>
    simp [hh.typeNames, List.filter_map, List.flatMap_map, Function.comp_def, hh.kind]

theorem plain (n : Concrete μ) : (h n).plain convert = n.plain (convert ∘ h) := by
  simp [Concrete.plain, hh.kind, hh.visible]

theorem shaped (n : Concrete μ) (shape : Shape) :
    (h n).shaped source convert shape = n.shaped source (convert ∘ h) shape := by
  cases shape with
  | tryCatch =>
    simp only [Concrete.shaped, hh.bodyOf, hh.visible, List.filter_map, Function.comp_def, hh.kind,
      List.map_map, List.getLast?_map, Option.map_map]
  | _ =>
    simp only [Concrete.shaped, hh.classOf, hh.childAt?, hh.declaredName?, hh.visibleTrees, hh.bodyOf,
      hh.typeNames?, hh.declaredType?, hh.visible, hh.caughtTypes, hh.creationOf, hh.map_text,
      hh.bind_name?, hh.childrenAt, hh.kind, List.head?_map, List.getLast?_map, orElse_map,
      List.filter_map, List.map_map, Option.map_map, Function.comp_def]

/-- Building a tree and a map that keeps what a reader sees can be done in either order. -/
theorem build (n : Concrete μ) : (h n).build source convert = n.build source (convert ∘ h) := by
  simp only [Concrete.build, hh.kind, hh.shaped, hh.plain]

end KeepsView

/-! ## The recursion -/

/-- A tree is built from the kind and the children of a node alone. -/
theorem build_eq_of_children (source : Text) (convert : Concrete μ → Tree) {n m : Concrete μ}
    (hkind : n.kind = m.kind) (hchildren : n.children = m.children) :
    n.build source convert = m.build source convert := by
  cases n
  cases m
  simp only [kind, children] at hkind hchildren
  subst hkind hchildren
  rfl

theorem withTreesAll_eq_map (source : Text) (trees : List (Concrete μ)) :
    withTreesAll source trees = trees.map (withTrees source) := by
  induction trees with
  | nil => rfl
  | cons n trees ih => rw [withTreesAll, ih, List.map_cons]

theorem relabels_withTrees (source : Text) : Relabels (withTrees (μ := μ) source) where
  kind n := by cases n; rw [withTrees]; rfl
  named n := by cases n; rw [withTrees]; rfl
  field n := by cases n; rw [withTrees]; rfl
  start n := by cases n; rw [withTrees]; rfl
  stop n := by cases n; rw [withTrees]; rfl
  children n := by
    cases n
    rw [withTrees]
    exact withTreesAll_eq_map source _

/-- The tree of a node is built from the trees of the nodes below it. -/
theorem toTree_eq (source : Text) (n : Concrete μ) :
    n.toTree source = n.build source (toTree source) := by
  have hmark : (withTrees source n).mark = (withTrees source n).build source mark := by
    cases n
    rw [withTrees]
    exact build_eq_of_children source mark rfl rfl
  rw [toTree, hmark, (relabels_withTrees source).keepsView.build]
  rfl

theorem toTree_eq_of_children (source : Text) {n m : Concrete μ} (hkind : n.kind = m.kind)
    (hchildren : n.children = m.children) : n.toTree source = m.toTree source := by
  rw [toTree_eq, toTree_eq, build_eq_of_children source _ hkind hchildren]

/-- What a node is to its parent does not change its tree. -/
theorem toTree_withField (source : Text) (field : String) (n : Concrete μ) :
    (n.withField field).toTree source = n.toTree source := by
  cases n
  exact toTree_eq_of_children source rfl rfl

/-! ## The trees that are asked for -/

theorem mem_visible? {c : Option (Concrete μ)} {d : Concrete μ} (h : d ∈ visible? c) :
    ∃ n, c = some n ∧ d ∈ n.visible := by
  cases c with
  | none => cases h
  | some n => exact ⟨n, rfl, h⟩

theorem mem_memberNodes {d n : Concrete μ} :
    d ∈ memberNodes n ↔ ∃ c ∈ n.visible, holdsMembers c.kind = true ∧ d ∈ c.visible := by
  simp [memberNodes, and_assoc]

section Agreement

variable {source : Text} {f g : Concrete μ → Tree} {n : Concrete μ}

theorem map_toList_congr {c : Option (Concrete μ)} (h : ∀ d ∈ c.toList, f d = g d) :
    c.map f = c.map g :=
  Option.map_congr fun d hd => h d (by simp [hd])

theorem bodyOf_congr (h : ∀ c ∈ (n.childAt? "body").toList, f c = g c) :
    n.bodyOf f = n.bodyOf g := by
  rw [bodyOf, bodyOf, map_toList_congr h]

theorem visibleTrees_congr {c : Option (Concrete μ)} (h : ∀ d ∈ visible? c, f d = g d) :
    visibleTrees f c = visibleTrees g c :=
  List.map_congr_left h

theorem classOf_congr (h : ∀ c ∈ memberNodes n, f c = g c) :
    n.classOf source f = n.classOf source g := by
  apply List.foldl_ext
  intro declaration c hc
  have hmembers (hlist : holdsMembers c.kind = true) : c.visible.map f = c.visible.map g :=
    List.map_congr_left fun d hd => h d (mem_memberNodes.mpr ⟨c, hc, hlist, hd⟩)
  rw [addMember, addMember]
  split
  · rfl
  · rfl
  · rename_i hkind
    rw [hmembers (by rw [hkind]; rfl)]
  · rename_i hkind
    rw [hmembers (by rw [hkind]; rfl)]
  · rfl

theorem creationAdd_congr {c : Concrete μ} (h : ∀ d ∈ creationNodesOf c, f d = g d)
    (creation : Creation) : creation.add source f c = creation.add source g c := by
  rw [creationNodesOf] at h
  rw [Creation.add, Creation.add]
  split
  · rfl
  · rename_i hname
    rw [if_neg hname] at h
    split
    · rename_i hkind
      simp only [hkind, List.mem_append] at h
      rw [classOf_congr fun d hd => h d (.inl hd), visibleTrees_congr fun d hd => h d (.inr hd)]
    · rename_i hkind
      simp only [hkind] at h
      have harguments : visibleTrees f (some c) = visibleTrees g (some c) := visibleTrees_congr h
      rw [harguments]
    · rfl
    · rfl

/-- What has been read of two object creations leaves the same to be asked for. -/
structure Creation.SameKind (creation other : Creation) : Prop where
  what : creation.what = .unknown ↔ other.what = .unknown
  declaresClass : creation.declaresClass = other.declaresClass

/-- The trees do not decide whether a creation declares a class of its own. -/
theorem Creation.SameKind.add {creation other : Creation} (h : creation.SameKind other)
    (c : Concrete μ) : (creation.add source f c).SameKind (other.add source g c) := by
  rw [Creation.add, Creation.add]
  split
  · exact ⟨Iff.rfl, h.declaresClass⟩
  · split
    · exact ⟨by simp, h.declaresClass⟩
    · exact ⟨h.what, h.declaresClass⟩
    · exact ⟨h.what, rfl⟩
    · exact h

theorem Creation.SameKind.foldl {creation other : Creation} (h : creation.SameKind other)
    (trees : List (Concrete μ)) : (trees.foldl (Creation.add source f) creation).SameKind
      (trees.foldl (Creation.add source g) other) := by
  induction trees generalizing creation other with
  | nil => exact h
  | cons c trees ih => exact ih (h.add c)

theorem creationOf_congr (h : ∀ c ∈ creationNodes source n, f c = g c) :
    n.creationOf source f = n.creationOf source g := by
  rw [creationNodes] at h
  have hfold : n.visible.foldl (Creation.add source f) {} =
      n.visible.foldl (Creation.add source g) {} := by
    apply List.foldl_ext
    intro creation c hc
    exact creationAdd_congr (fun d hd =>
      h d (List.mem_append_left _ (List.mem_flatMap.mpr ⟨c, hc, hd⟩))) creation
  have hkind : (n.visible.foldl (Creation.add source g) {}).SameKind
      (n.visible.foldl (Creation.add source fun _ => default) {}) :=
    Creation.SameKind.foldl ⟨Iff.rfl, rfl⟩ n.visible
  simp only [creationOf, hfold]
  split
  · rename_i hwhat hclass
    have hmembers : ∀ c ∈ memberNodes n, f c = g c := by
      intro c hc
      refine h c (List.mem_append_right _ ?_)
      simp only [hkind.what.mp hwhat, ← hkind.declaresClass, hclass]
      exact hc
    rw [classOf_congr hmembers]
  · rfl

theorem tryCatch_congr (h : ∀ c ∈ n.visible.flatMap tryNodesOf, f c = g c) :
    (n.visible.filter (·.kind == "catch_clause")).map f =
        (n.visible.filter (·.kind == "catch_clause")).map g ∧
      (n.visible.filter (·.kind == "finally_clause")).getLast?.map (bodyOf f) =
        (n.visible.filter (·.kind == "finally_clause")).getLast?.map (bodyOf g) := by
  constructor
  · apply List.map_congr_left
    intro c hc
    obtain ⟨hmem, hkind⟩ := List.mem_filter.mp hc
    refine h c (List.mem_flatMap.mpr ⟨c, hmem, ?_⟩)
    simp [tryNodesOf, beq_iff_eq.mp hkind]
  · apply Option.map_congr
    intro c hc
    obtain ⟨hmem, hkind⟩ := List.mem_filter.mp (List.mem_of_getLast? hc)
    refine bodyOf_congr fun d hd => h d (List.mem_flatMap.mpr ⟨c, hmem, ?_⟩)
    simpa only [tryNodesOf, beq_iff_eq.mp hkind] using hd

theorem shaped_congr (shape : Shape) (h : ∀ c ∈ shapedNodes source n shape, f c = g c) :
    n.shaped source f shape = n.shaped source g shape := by
  cases shape with
  | declaration => rw [shaped, shaped, classOf_congr h]
  | function =>
    simp only [shapedNodes, List.forall_mem_append] at h
    rw [shaped, shaped, visibleTrees_congr h.1, bodyOf_congr h.2]
  | parameter => rfl
  | property =>
    rw [shapedNodes] at h
    rw [shaped, shaped, List.map_congr_left h]
  | tryCatch =>
    simp only [shapedNodes, List.forall_mem_append] at h
    rw [shaped, shaped, (tryCatch_congr h.1).1, (tryCatch_congr h.1).2, bodyOf_congr h.2]
  | catchClause => rw [shaped, shaped, bodyOf_congr h]
  | creation => exact creationOf_congr h
  | scopedCall => rw [shaped, shaped, visibleTrees_congr h]
  | scopedAccess => rfl
  | binary =>
    simp only [shapedNodes] at h
    simp only [shaped]
    split
    · rename_i htest
      rw [if_pos htest] at h
      rw [map_toList_congr h]
    · rename_i htest
      rw [if_neg htest, List.forall_mem_append] at h
      rw [map_toList_congr h.1, map_toList_congr h.2]
  | assignment =>
    simp only [shapedNodes, List.forall_mem_append] at h
    rw [shaped, shaped, map_toList_congr h.1, map_toList_congr h.2]
  | conditional =>
    simp only [shapedNodes, List.forall_mem_append] at h
    rw [shaped, shaped, map_toList_congr h.1.1, map_toList_congr h.1.2, map_toList_congr h.2]
  | ifThen =>
    simp only [shapedNodes, List.forall_mem_append] at h
    rw [shaped, shaped, map_toList_congr h.1.1, bodyOf_congr h.1.2, List.map_congr_left h.2]
  | elseBranch => rw [shaped, shaped, bodyOf_congr h]
  | throwing => rw [shaped, shaped, map_toList_congr h]
  | returning => rw [shaped, shaped, map_toList_congr h]
  | printing =>
    rw [shapedNodes] at h
    rw [shaped, shaped, List.map_congr_left h]
  | prefixed => rw [shaped, shaped, map_toList_congr h]
  | element => rw [shaped, shaped, map_toList_congr h]
  | call =>
    simp only [shapedNodes, List.forall_mem_append] at h
    rw [shaped, shaped, map_toList_congr h.1, visibleTrees_congr h.2]
  | memberCall =>
    simp only [shapedNodes, List.forall_mem_append] at h
    rw [shaped, shaped, map_toList_congr h.1, visibleTrees_congr h.2]
  | memberAccess => rw [shaped, shaped, map_toList_congr h]
  | statement => rw [shaped, shaped, map_toList_congr h]

/-- Maps that agree on the nodes that are asked for build the same tree. -/
theorem build_congr_requested (h : ∀ c ∈ n.requested source, f c = g c) :
    n.build source f = n.build source g := by
  rw [requested] at h
  rw [build, build]
  split
  · rename_i shape hshape
    rw [hshape] at h
    exact shaped_congr shape h
  · rename_i hshape
    simp only [hshape] at h
    rw [plain, plain]
    cases hclosed : isOpaqueKind n.kind with
    | true => rfl
    | false =>
      rw [if_neg (by simp [hclosed])] at h
      rw [List.map_congr_left h]

end Agreement

/-! ## Where they are -/

/-- A property of nodes goes down: a node passes it on to its children, unless its content is
never looked at. Nodes in the fields for parameters and arguments pass it on in any case, as
they are looked into whatever they are. -/
def GoesDown (P : Concrete μ → Prop) : Prop :=
  ∀ d, P d → isOpaqueKind d.kind = false ∨ d.field = some "parameters" ∨
    d.field = some "arguments" → ∀ c ∈ d.children, P c

section GoesDown

variable {source : Text} {P : Concrete μ → Prop} {n : Concrete μ}

theorem isOpaqueKind_of_holdsMembers {kind : String} (h : holdsMembers kind = true) :
    isOpaqueKind kind = false := by
  rw [holdsMembers.eq_def] at h
  split at h
  · rfl
  · rfl
  · cases h

theorem isOpaqueKind_of_ofKind? {kind : String} {shape : Shape}
    (h : Shape.ofKind? kind = some shape) : isOpaqueKind kind = false := by
  rw [isOpaqueKind.eq_def]
  split <;> first | rfl | cases h

theorem GoesDown.of_visible {d : Concrete μ} (hdown : GoesDown P) (hd : P d)
    (hkind : isOpaqueKind d.kind = false) : ∀ c ∈ d.visible, P c :=
  fun c hc => hdown d hd (.inl hkind) c (mem_children_of_mem_visible hc)

theorem GoesDown.of_memberNodes (hdown : GoesDown P) (hchildren : ∀ c ∈ n.children, P c) :
    ∀ c ∈ memberNodes n, P c := by
  intro c hc
  obtain ⟨list, hlist, hkind, hmem⟩ := mem_memberNodes.mp hc
  exact hdown.of_visible (hchildren list (mem_children_of_mem_visible hlist))
    (isOpaqueKind_of_holdsMembers hkind) c hmem

theorem GoesDown.of_creationNodesOf (hdown : GoesDown P) (hn : P n) :
    ∀ c ∈ creationNodesOf n, P c := by
  intro c hc
  rw [creationNodesOf] at hc
  split at hc
  · cases hc
  split at hc
  · rename_i hkind
    have hchildren : ∀ d ∈ n.children, P d := hdown n hn (.inl (by rw [hkind]; rfl))
    rcases List.mem_append.mp hc with hmember | hargument
    · exact hdown.of_memberNodes hchildren c hmember
    · obtain ⟨arguments, hfind, hmem⟩ := mem_visible? hargument
      have harguments : arguments.kind = "arguments" := by
        simpa using List.find?_some hfind
      exact hdown.of_visible
        (hchildren arguments (mem_children_of_mem_visible (List.mem_of_find?_eq_some hfind)))
        (by rw [harguments]; rfl) c hmem
  · rename_i hkind
    exact hdown.of_visible hn (by rw [hkind]; rfl) c hc
  · cases hc

theorem GoesDown.of_tryNodesOf (hdown : GoesDown P) (hn : P n) : ∀ c ∈ tryNodesOf n, P c := by
  intro c hc
  rw [tryNodesOf] at hc
  split at hc
  · rwa [List.mem_singleton.mp hc]
  · rename_i hkind
    exact hdown n hn (.inl (by rw [hkind]; rfl)) c
      (mem_children_of_childAt? (Option.mem_toList.mp hc))
  · cases hc

/-- A property that goes down holds of all nodes that are asked for, if it holds of the
children. -/
theorem GoesDown.of_requested (hdown : GoesDown P) (hchildren : ∀ c ∈ n.children, P c) :
    ∀ c ∈ n.requested source, P c := by
  have hvisible : ∀ c ∈ n.visible, P c := fun c hc =>
    hchildren c (mem_children_of_mem_visible hc)
  have hat (field : String) : ∀ c ∈ (n.childAt? field).toList, P c := fun c hc =>
    hchildren c (mem_children_of_childAt? (Option.mem_toList.mp hc))
  have hinside {field : String} (hfield : field = "parameters" ∨ field = "arguments") :
      ∀ c ∈ visible? (n.childAt? field), P c := by
    intro c hc
    obtain ⟨d, hd, hmem⟩ := mem_visible? hc
    have hdfield : d.field = some field := by simpa using List.find?_some hd
    refine hdown d (hchildren d (mem_children_of_childAt? hd)) (.inr ?_) c
      (mem_children_of_mem_visible hmem)
    rw [hdfield]
    exact hfield.imp (congrArg some) (congrArg some)
  have hhead : ∀ c ∈ n.visible.head?.toList, P c := fun c hc =>
    hvisible c (List.mem_of_mem_head? (Option.mem_toList.mp hc))
  have hlast : ∀ c ∈ n.visible.getLast?.toList, P c := fun c hc =>
    hvisible c (List.mem_of_getLast? (Option.mem_toList.mp hc))
  rw [requested]
  split
  · rename_i shape _
    cases shape with
    | declaration => exact hdown.of_memberNodes hchildren
    | function => exact List.forall_mem_append.mpr ⟨hinside (.inl rfl), hat "body"⟩
    | parameter => exact List.forall_mem_nil P
    | property => exact fun c hc => hvisible c (List.mem_filter.mp hc).1
    | tryCatch =>
      refine List.forall_mem_append.mpr ⟨fun c hc => ?_, hat "body"⟩
      obtain ⟨d, hd, hmem⟩ := List.mem_flatMap.mp hc
      exact hdown.of_tryNodesOf (hvisible d hd) c hmem
    | catchClause => exact hat "body"
    | creation =>
      refine List.forall_mem_append.mpr ⟨fun c hc => ?_, ?_⟩
      · obtain ⟨d, hd, hmem⟩ := List.mem_flatMap.mp hc
        exact hdown.of_creationNodesOf (hvisible d hd) c hmem
      · split
        · exact hdown.of_memberNodes hchildren
        · exact List.forall_mem_nil P
    | scopedCall => exact hinside (.inr rfl)
    | scopedAccess => exact List.forall_mem_nil P
    | binary =>
      rw [shapedNodes]
      split
      · exact hat "left"
      · exact List.forall_mem_append.mpr ⟨hat "left", hat "right"⟩
    | assignment => exact List.forall_mem_append.mpr ⟨hat "left", hat "right"⟩
    | conditional =>
      exact List.forall_mem_append.mpr
        ⟨List.forall_mem_append.mpr ⟨hat "condition", hat "body"⟩, hat "alternative"⟩
    | ifThen =>
      refine List.forall_mem_append.mpr
        ⟨List.forall_mem_append.mpr ⟨hat "condition", hat "body"⟩, fun c hc => ?_⟩
      exact hchildren c (List.mem_filter.mp (List.mem_filter.mp hc).1).1
    | elseBranch => exact hat "body"
    | throwing => exact hhead
    | returning => exact hhead
    | printing => exact hvisible
    | prefixed =>
      intro c hc
      rw [shapedNodes, Option.mem_toList] at hc
      cases hargument : n.childAt? "argument" with
      | some d => exact hat "argument" c (by rw [hargument] at hc ⊢; exact Option.mem_toList.mpr hc)
      | none => exact hlast c (by rw [hargument] at hc; exact Option.mem_toList.mpr hc)
    | element => exact hlast
    | call => exact List.forall_mem_append.mpr ⟨hat "function", hinside (.inr rfl)⟩
    | memberCall => exact List.forall_mem_append.mpr ⟨hat "object", hinside (.inr rfl)⟩
    | memberAccess => exact hat "object"
    | statement => exact hhead
  · split
    · exact List.forall_mem_nil P
    · exact hvisible

end GoesDown

theorem goesDown_descendants (n : Concrete μ) : GoesDown (· ∈ n.descendants) :=
  fun _ hd _ _ hc => mem_descendants_of_mem_nodes
    (mem_nodes_of_mem_descendants (mem_descendants_of_mem_children hc)) hd

theorem mem_descendants_of_mem_requested {source : Text} {c n : Concrete μ}
    (h : c ∈ n.requested source) : c ∈ n.descendants :=
  (goesDown_descendants n).of_requested (fun _ hc => mem_descendants_of_mem_children hc) c h

/-- Maps that agree below a node build the same tree of it. -/
theorem build_congr {source : Text} {f g : Concrete μ → Tree} {n : Concrete μ}
    (h : ∀ c ∈ n.descendants, f c = g c) : n.build source f = n.build source g :=
  build_congr_requested fun c hc => h c (mem_descendants_of_mem_requested hc)

/-- A map that keeps what a reader sees of a tree keeps its syntax tree. -/
theorem KeepsView.toTree {h : Concrete μ → Concrete ν} (hh : KeepsView h) (source : Text)
    (n : Concrete μ) : (h n).toTree source = n.toTree source := by
  -- Trees are made of trees of grandchildren too, so this is shown for all nodes below at once.
  suffices hall : ∀ m ∈ n.nodes, (h m).toTree source = m.toTree source from
    hall n (mem_nodes_self n)
  induction n using induction_children with
  | step n ih =>
    have hbelow : ∀ m ∈ n.descendants, (h m).toTree source = m.toTree source := by
      intro m hm
      obtain ⟨c, hc, hmc⟩ := mem_nodesAll.mp hm
      exact ih c hc m hmc
    intro m hm
    rw [nodes_eq] at hm
    rcases List.mem_cons.mp hm with rfl | hmem
    · rw [toTree_eq, hh.build, toTree_eq source m]
      exact build_congr hbelow
    · exact hbelow m hmem

end Namespacer.Concrete
