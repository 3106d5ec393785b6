import Namespacer.Proofs.Positions

/-!
# Where a mentioned name is written

A mention of a type carries a name and a context, but not a place. Every
mention with a name comes from a name node of the concrete tree, and the context
says where that node stands.

* `TakesName`: the positions of name nodes, one for each context.
* `traced_toTree`: every name that the tree of a node mentions is written at such a
  position below the node.
-/

namespace Namespacer.Concrete

variable {μ : Type}

/-- Whether a node takes the name of a type from another one, in some context. -/
inductive TakesName (source : Text) (n w : Concrete μ) : Context → Prop where
  /-- From the clause of an extended type. -/
  | extended {clause : Concrete μ} (hclause : clause ∈ n.visible)
      (hkind : clause.kind = "base_clause") (hw : w ∈ clause.visible) :
      TakesName source n w .extended
  /-- From the clause of implemented types. -/
  | implemented {clause : Concrete μ} (hclause : clause ∈ n.visible)
      (hkind : clause.kind = "class_interface_clause") (hw : w ∈ clause.visible) :
      TakesName source n w .implemented
  /-- From the type that a function returns. -/
  | returned {type : Concrete μ} (hn : Shape.ofKind? n.kind = some .function)
      (htype : n.childAt? "return_type" = some type) (hw : w ∈ type.nodes) :
      TakesName source n w .returned
  /-- From the type of a parameter. -/
  | parameter {type : Concrete μ} (hn : Shape.ofKind? n.kind = some .parameter)
      (htype : n.declaredType? = some type) (hw : w ∈ type.nodes) :
      TakesName source n w .parameter
  /-- From the type of a property. -/
  | property {type : Concrete μ} (hn : Shape.ofKind? n.kind = some .property)
      (htype : n.declaredType? = some type) (hw : w ∈ type.nodes) :
      TakesName source n w .property
  /-- From the types that a clause catches. -/
  | caught {type : Concrete μ} (hn : Shape.ofKind? n.kind = some .catchClause)
      (htype : type ∈ n.children) (hw : w ∈ type.nodes) : TakesName source n w .caught
  /-- From the creation of an object. -/
  | created (hn : Shape.ofKind? n.kind = some .creation) (hw : w ∈ n.visible) :
      TakesName source n w .created
  /-- From a look-up of a member or from a type test. -/
  | operand {context : Context} (hw : n.typeOperand? source = some (w, context)) :
      TakesName source n w context

/-- Whether every name among some mentions is written below a node. -/
def Traced (source : Text) (n : Concrete μ) (mentions : List Mention) : Prop :=
  ∀ name context, ⟨some name, context⟩ ∈ mentions →
    ∃ m ∈ n.nodes, ∃ w, TakesName source m w context ∧ w.name? source = some name

/-- Whether every name that a tree mentions is written below a node. -/
abbrev TracedTree (source : Text) (n : Concrete μ) (tree : Tree) : Prop :=
  Traced source n tree.mentions

/-! ## Mentions of several trees -/

section Collecting

variable {source : Text} {n m : Concrete μ} {mentions others : List Mention} {trees : List Tree}

theorem traced_nil : Traced source n [] := by
  intro name context h
  cases h

theorem traced_append (hmentions : Traced source n mentions) (hothers : Traced source n others) :
    Traced source n (mentions ++ others) := by
  intro name context h
  rcases List.mem_append.mp h with h | h
  · exact hmentions name context h
  · exact hothers name context h

theorem Traced.mono (h : Traced source m mentions) (hm : m ∈ n.nodes) :
    Traced source n mentions := by
  intro name context hmem
  obtain ⟨l, hl, w, hw⟩ := h name context hmem
  exact ⟨l, mem_nodes_trans hl hm, w, hw⟩

theorem traced_mentionsAll (h : ∀ tree ∈ trees, TracedTree source n tree) :
    Traced source n (Tree.mentionsAll trees) := by
  intro name context hmem
  obtain ⟨tree, htree, hmention⟩ := Tree.mem_mentionsAll.mp hmem
  exact h tree htree name context hmention

/-- Names that are taken from some nodes. -/
theorem traced_mentionsOf {context : Context} {names : List Name} (hm : m ∈ n.nodes)
    (h : ∀ name ∈ names, ∃ w, TakesName source m w context ∧ w.name? source = some name) :
    Traced source n (Tree.mentionsOf context names) := by
  intro name context' hmem
  obtain ⟨found, hfound, heq⟩ := List.mem_map.mp hmem
  simp only [Mention.mk.injEq, Option.some.injEq] at heq
  obtain ⟨rfl, rfl⟩ := heq
  exact ⟨m, hm, h found hfound⟩

/-- A name that is taken from a node that may be missing. -/
theorem traced_operand {context : Context} {operand : Option (Concrete μ)}
    (h : ∀ w, operand = some w → TakesName source n w context) :
    Traced source n [⟨operand.bind (name? source), context⟩] := by
  intro name context' hmem
  rw [List.mem_singleton, Mention.mk.injEq] at hmem
  obtain ⟨hname, rfl⟩ := hmem
  obtain ⟨w, hw, hname⟩ := Option.bind_eq_some_iff.mp hname.symm
  exact ⟨n, mem_nodes_self n, w, h w hw, hname⟩

end Collecting

/-! ## Type expressions -/

theorem exists_of_mem_typeNames {source : Text} {name : Name} (n : Concrete μ)
    (h : name ∈ typeNames source n) : ∃ w ∈ n.nodes, w.name? source = some name := by
  induction n using induction_children with
  | step n ih =>
    rw [typeNames_eq] at h
    split at h
    · cases h
    · split at h
      · exact ⟨n, mem_nodes_self n, Option.mem_toList.mp h⟩
      · obtain ⟨c, hc, hname⟩ := List.mem_flatMap.mp h
        have hchild := mem_children_of_mem_visible hc
        obtain ⟨w, hw, hname⟩ := ih c hchild hname
        exact ⟨w, mem_nodes_of_mem_descendants (mem_nodesAll.mpr ⟨c, hchild, hw⟩), hname⟩

theorem exists_of_mem_typeNames? {source : Text} {name : Name} {type : Option (Concrete μ)}
    (h : name ∈ typeNames? source type) :
    ∃ t, type = some t ∧ ∃ w ∈ t.nodes, w.name? source = some name := by
  cases type with
  | none => cases h
  | some t => exact ⟨t, rfl, exists_of_mem_typeNames t h⟩

/-- The names of a type that may be missing. -/
theorem traced_typeNames? {source : Text} {n : Concrete μ} {context : Context}
    {type : Option (Concrete μ)}
    (h : ∀ t w, type = some t → w ∈ t.nodes → TakesName source n w context) :
    Traced source n (Tree.mentionsOf context (typeNames? source type)) := by
  refine traced_mentionsOf (mem_nodes_self n) fun name hname => ?_
  obtain ⟨t, ht, w, hw, hname⟩ := exists_of_mem_typeNames? hname
  exact ⟨w, h t w ht hw, hname⟩

theorem exists_of_mem_caughtTypes {source : Text} {name : Name} {n : Concrete μ}
    (h : name ∈ n.caughtTypes source) :
    ∃ type ∈ n.children, ∃ w ∈ type.nodes, w.name? source = some name := by
  rw [caughtTypes] at h
  split at h
  · rename_i type htype
    exact ⟨type, mem_children_of_childAt? htype, exists_of_mem_typeNames type h⟩
  · obtain ⟨type, htype, hname⟩ := List.mem_flatMap.mp h
    have hvisible := (List.mem_filter.mp htype).1
    exact ⟨type, mem_children_of_mem_visible hvisible, exists_of_mem_typeNames type hname⟩

/-! ## Trees below a node -/

section Building

variable {source : Text} {convert : Concrete μ → Tree} {n m : Concrete μ}

/-- Trees that are made of nodes below a node. -/
def AllBelow (convert : Concrete μ → Tree) (n : Concrete μ) (trees : List Tree) : Prop :=
  ∀ tree ∈ trees, ∃ c ∈ n.descendants, tree = convert c

theorem allBelow_nil : AllBelow convert n [] := by
  intro tree htree
  cases htree

theorem allBelow_append {trees others : List Tree} (h : AllBelow convert n trees)
    (hothers : AllBelow convert n others) : AllBelow convert n (trees ++ others) := by
  intro tree htree
  rcases List.mem_append.mp htree with htree | htree
  · exact h tree htree
  · exact hothers tree htree

theorem allBelow_map {nodes : List (Concrete μ)} (h : ∀ c ∈ nodes, c ∈ n.descendants) :
    AllBelow convert n (nodes.map convert) := by
  intro tree htree
  obtain ⟨c, hc, rfl⟩ := List.mem_map.mp htree
  exact ⟨c, h c hc, rfl⟩

theorem allBelow_toList {node : Option (Concrete μ)} (h : ∀ c, node = some c → c ∈ n.descendants) :
    AllBelow convert n (node.map convert).toList := by
  cases node with
  | none => exact allBelow_nil
  | some c =>
    intro tree htree
    exact ⟨c, h c rfl, List.mem_singleton.mp htree⟩

theorem mem_descendants_of_childAt? {c : Concrete μ} {field : String}
    (h : n.childAt? field = some c) : c ∈ n.descendants :=
  mem_descendants_of_mem_children (mem_children_of_childAt? h)

theorem mem_descendants_of_mem_visible {c : Concrete μ} (hc : c ∈ n.visible) : c ∈ n.descendants :=
  mem_descendants_of_mem_children (mem_children_of_mem_visible hc)

theorem allBelow_visible : AllBelow convert n (n.visible.map convert) :=
  allBelow_map fun _ hc => mem_descendants_of_mem_visible hc

theorem allBelow_childAt? (field : String) :
    AllBelow convert n ((n.childAt? field).map convert).toList :=
  allBelow_toList fun _ hc => mem_descendants_of_childAt? hc

theorem AllBelow.mono {c : Concrete μ} {trees : List Tree} (h : AllBelow convert c trees)
    (hc : c ∈ n.descendants) : AllBelow convert n trees := by
  intro tree htree
  obtain ⟨d, hd, heq⟩ := h tree htree
  exact ⟨d, mem_descendants_of_mem_nodes (mem_nodes_of_mem_descendants hd) hc, heq⟩

theorem allBelow_visibleTrees {node : Option (Concrete μ)}
    (h : ∀ c, node = some c → c ∈ n.descendants) :
    AllBelow convert n (visibleTrees convert node) := by
  cases node with
  | none => exact allBelow_nil
  | some c => exact allBelow_visible.mono (h c rfl)

/-! ## Classes and creations -/

/-- What is known of a class comes from the node that declares it. -/
structure TracedClass (source : Text) (convert : Concrete μ → Tree) (m : Concrete μ)
    (declaration : ClassDeclaration Tree) : Prop where
  extended : ∀ name ∈ declaration.extended,
    ∃ w, TakesName source m w .extended ∧ w.name? source = some name
  implemented : ∀ name ∈ declaration.implemented,
    ∃ w, TakesName source m w .implemented ∧ w.name? source = some name
  body : AllBelow convert m declaration.body

theorem tracedClass_addMember {declaration : ClassDeclaration Tree} {c : Concrete μ}
    (h : TracedClass source convert m declaration) (hc : c ∈ m.visible) :
    TracedClass source convert m (addMember source convert declaration c) := by
  have hclause {name : Name} (hname : name ∈ c.clauseNames source) :
      ∃ w ∈ c.visible, w.name? source = some name := List.mem_filterMap.mp hname
  have hbody : AllBelow convert m (c.visible.map convert) :=
    allBelow_visible.mono (mem_descendants_of_mem_visible hc)
  unfold addMember
  split
  · rename_i hkind
    refine ⟨fun name hname => ?_, h.implemented, h.body⟩
    rcases List.mem_append.mp hname with hname | hname
    · exact h.extended name hname
    · obtain ⟨w, hw, hname⟩ := hclause hname
      exact ⟨w, .extended hc hkind hw, hname⟩
  · rename_i hkind
    refine ⟨h.extended, fun name hname => ?_, h.body⟩
    rcases List.mem_append.mp hname with hname | hname
    · exact h.implemented name hname
    · obtain ⟨w, hw, hname⟩ := hclause hname
      exact ⟨w, .implemented hc hkind hw, hname⟩
  · exact ⟨h.extended, h.implemented, hbody⟩
  · exact ⟨h.extended, h.implemented, hbody⟩
  · exact h

theorem tracedClass_classOf (m : Concrete μ) :
    TracedClass source convert m (m.classOf source convert) := by
  refine List.foldlRecOn m.visible (addMember source convert) ⟨?_, ?_, ?_⟩ ?_
  · intro name hname
    cases hname
  · intro name hname
    cases hname
  · exact allBelow_nil
  · intro declaration h c hc
    exact tracedClass_addMember h hc

/-- What is known of a creation comes from the node that creates the object. -/
structure TracedCreation (source : Text) (convert : Concrete μ → Tree) (m : Concrete μ)
    (creation : Creation) : Prop where
  named : ∀ name, creation.what = .named name →
    ∃ w ∈ m.visible, w.name? source = some name
  inPlace : ∀ declaration, creation.what = .inPlace declaration →
    ∃ c ∈ m.visible, declaration = c.classOf source convert
  arguments : AllBelow convert m creation.arguments

theorem tracedCreation_add {creation : Creation} {c : Concrete μ}
    (h : TracedCreation source convert m creation) (hc : c ∈ m.visible) :
    TracedCreation source convert m (Creation.add source convert creation c) := by
  have hbelow : c ∈ m.descendants := mem_descendants_of_mem_visible hc
  unfold Creation.add
  split
  · refine ⟨fun name hname => ?_, fun declaration hdeclaration => ?_, h.arguments⟩
    · dsimp only at hname
      split at hname
      · rename_i found hfound
        cases hname
        exact ⟨c, hc, hfound⟩
      · cases hname
    · dsimp only at hdeclaration
      split at hdeclaration
      · cases hdeclaration
      · cases hdeclaration
  · split
    · refine ⟨fun name hname => (by cases hname), fun declaration hdeclaration => ?_, ?_⟩
      · cases hdeclaration
        exact ⟨c, hc, rfl⟩
      · refine (allBelow_visibleTrees fun d hd => ?_).mono hbelow
        exact mem_descendants_of_mem_visible (List.mem_of_find?_eq_some hd)
    · exact ⟨h.named, h.inPlace, allBelow_visible.mono hbelow⟩
    · exact ⟨h.named, h.inPlace, h.arguments⟩
    · exact h

theorem tracedCreation_foldl (m : Concrete μ) :
    TracedCreation source convert m (m.visible.foldl (Creation.add source convert) {}) := by
  refine List.foldlRecOn m.visible (Creation.add source convert) ⟨?_, ?_, ?_⟩ ?_
  · intro name hname
    cases hname
  · intro declaration hdeclaration
    cases hdeclaration
  · exact allBelow_nil
  · intro creation h c hc
    exact tracedCreation_add h hc

/-! ## Trees of nodes -/

/-- A tree is traced if what it mentions itself is, and its parts are. -/
theorem tracedTree_of_parts {tree : Tree} (hown : Traced source n tree.ownMentions)
    (hparts : ∀ part ∈ tree.parts, TracedTree source n part) : TracedTree source n tree := by
  rw [TracedTree, Tree.mentions_eq]
  exact traced_append hown (traced_mentionsAll hparts)

theorem AllBelow.traced {trees : List Tree} (h : AllBelow convert n trees)
    (hbelow : ∀ c ∈ n.descendants, TracedTree source n (convert c)) :
    ∀ tree ∈ trees, TracedTree source n tree := by
  intro tree htree
  obtain ⟨c, hc, rfl⟩ := h tree htree
  exact hbelow c hc

/-- A tree that only leads to trees of nodes below is traced if these are. -/
theorem AllBelow.tracedTree {tree : Tree} (hparts : AllBelow convert n tree.parts)
    (hown : tree.ownMentions = [])
    (hbelow : ∀ c ∈ n.descendants, TracedTree source n (convert c)) : TracedTree source n tree :=
  tracedTree_of_parts (hown ▸ traced_nil) (hparts.traced hbelow)

theorem tracedTree_classDecl {declaration : ClassDeclaration Tree}
    (h : TracedClass source convert m declaration) (hm : m ∈ n.nodes)
    (hbelow : ∀ c ∈ m.descendants, TracedTree source n (convert c)) :
    TracedTree source n (.classDecl declaration) := by
  refine tracedTree_of_parts ?_ ?_
  · exact traced_append (traced_mentionsOf hm h.extended) (traced_mentionsOf hm h.implemented)
  · intro part hpart
    obtain ⟨c, hc, rfl⟩ := h.body part hpart
    exact hbelow c hc

theorem tracedTree_new {creation : Creation} (h : TracedCreation source convert n creation)
    (hshape : Shape.ofKind? n.kind = some .creation)
    (hbelow : ∀ c ∈ n.descendants, TracedTree source n (convert c)) :
    TracedTree source n (.new creation.what creation.arguments) := by
  have harguments := h.arguments.traced hbelow
  cases hwhat : creation.what with
  | unknown =>
    refine tracedTree_of_parts ?_ harguments
    intro name context hmem
    simp [Tree.ownMentions] at hmem
  | named name =>
    refine tracedTree_of_parts ?_ harguments
    obtain ⟨w, hw, hname⟩ := h.named name hwhat
    have hmention : ∀ other ∈ [name], ∃ w, TakesName source n w .created ∧
        w.name? source = some other := by
      intro other hother
      rw [List.mem_singleton.mp hother]
      exact ⟨w, .created hshape hw, hname⟩
    exact traced_mentionsOf (mem_nodes_self n) hmention
  | inPlace declaration =>
    obtain ⟨c, hc, rfl⟩ := h.inPlace declaration hwhat
    have hchild := mem_descendants_of_mem_visible hc
    refine tracedTree_of_parts traced_nil ?_
    intro part hpart
    rcases List.mem_cons.mp hpart with rfl | hpart
    · refine tracedTree_classDecl (tracedClass_classOf c) (mem_nodes_of_mem_descendants hchild) ?_
      intro d hd
      exact hbelow d (mem_descendants_of_mem_nodes (mem_nodes_of_mem_descendants hd) hchild)
    · exact harguments part hpart

theorem tracedTree_creationOf (hshape : Shape.ofKind? n.kind = some .creation)
    (hbelow : ∀ c ∈ n.descendants, TracedTree source n (convert c)) :
    TracedTree source n (n.creationOf source convert) := by
  have h : TracedCreation source convert n (n.visible.foldl (Creation.add source convert) {}) :=
    tracedCreation_foldl n
  rw [creationOf]
  split
  · -- The members of the class stand in the creation itself.
    refine tracedTree_of_parts traced_nil ?_
    intro part hpart
    rcases List.mem_cons.mp hpart with rfl | hpart
    · exact tracedTree_classDecl (tracedClass_classOf n) (mem_nodes_self n) hbelow
    · exact h.arguments.traced hbelow part hpart
  · exact tracedTree_new h hshape hbelow

theorem tracedTree_staticLookup {operand : Option (Concrete μ)}
    (h : n.typeOperand? source = operand.map (·, .staticLookup)) :
    TracedTree source n (.staticLookup (operand.bind (name? source))) := by
  refine tracedTree_of_parts (traced_operand fun w hw => .operand ?_) ?_
  · rw [h, hw]
    rfl
  · intro part hpart
    cases hpart

/-- A node of a shape is traced if the nodes below it are. -/
theorem traced_shaped {shape : Shape} (hshape : Shape.ofKind? n.kind = some shape)
    (hbelow : ∀ c ∈ n.descendants, TracedTree source n (convert c)) :
    TracedTree source n (n.shaped source convert shape) := by
  have hbody : AllBelow convert n (n.bodyOf convert) := allBelow_childAt? "body"
  have harguments (field : String) : AllBelow convert n (visibleTrees convert (n.childAt? field)) :=
    allBelow_visibleTrees fun _ hc => mem_descendants_of_childAt? hc
  have hfiltered (p : Concrete μ → Bool) : AllBelow convert n ((n.visible.filter p).map convert) :=
    allBelow_map fun _ hc => mem_descendants_of_mem_visible (List.mem_filter.mp hc).1
  have hfirst : AllBelow convert n (n.visible.head?.map convert).toList :=
    allBelow_toList fun _ hc => mem_descendants_of_mem_visible (List.mem_of_head? hc)
  have hobject : TracedTree source n (.propertyLookup ((n.childAt? "object").map convert)) :=
    (allBelow_childAt? "object").tracedTree rfl hbelow
  cases shape with
  | declaration => exact tracedTree_classDecl (tracedClass_classOf n) (mem_nodes_self n) hbelow
  | creation => exact tracedTree_creationOf hshape hbelow
  | function =>
    refine tracedTree_of_parts ?_ ((allBelow_append (harguments _) hbody).traced hbelow)
    exact traced_typeNames? fun type w htype hw => .returned hshape htype hw
  | parameter =>
    refine tracedTree_of_parts ?_ (by simp [shaped, Tree.parts])
    exact traced_typeNames? fun type w htype hw => .parameter hshape htype hw
  | property =>
    refine tracedTree_of_parts ?_ ((hfiltered _).traced hbelow)
    exact traced_typeNames? fun type w htype hw => .property hshape htype hw
  | catchClause =>
    refine tracedTree_of_parts ?_ (hbody.traced hbelow)
    refine traced_mentionsOf (mem_nodes_self n) fun name hname => ?_
    obtain ⟨type, htype, w, hw, hname⟩ := exists_of_mem_caughtTypes hname
    exact ⟨w, .caught hshape htype hw, hname⟩
  | tryCatch =>
    have hfinally : AllBelow convert n
        (((n.visible.filter (·.kind == "finally_clause")).getLast?.map
          (bodyOf convert)).getD []) := by
      cases hlast : (n.visible.filter (·.kind == "finally_clause")).getLast? with
      | none => exact allBelow_nil
      | some c =>
        have hc := (List.mem_filter.mp (List.mem_of_getLast? hlast)).1
        exact (allBelow_childAt? "body").mono (mem_descendants_of_mem_visible hc)
    refine tracedTree_of_parts traced_nil ?_
    exact (allBelow_append (allBelow_append hbody (hfiltered _)) hfinally).traced hbelow
  | scopedCall =>
    refine tracedTree_of_parts traced_nil ?_
    intro part hpart
    rcases List.mem_append.mp hpart with hpart | hpart
    · rw [Option.toList_some, List.mem_singleton] at hpart
      rw [hpart]
      exact tracedTree_staticLookup (by rw [typeOperand?, hshape])
    · exact (harguments _).traced hbelow part hpart
  | scopedAccess => exact tracedTree_staticLookup (by rw [typeOperand?, hshape])
  | binary =>
    rw [shaped]
    split
    · rename_i hoperator
      refine tracedTree_of_parts (traced_operand fun w hw => .operand ?_) ?_
      · have htest : n.isTypeTest source := ⟨hshape, hoperator⟩
        rw [typeOperand?, hshape]
        simp only [if_pos htest, hw, Option.map_some]
      · intro part hpart
        cases hpart
    · exact (allBelow_append (allBelow_childAt? _) (allBelow_childAt? _)).tracedTree rfl hbelow
  | assignment =>
    exact (allBelow_append (allBelow_childAt? _) (allBelow_childAt? _)).tracedTree rfl hbelow
  | conditional =>
    refine (allBelow_append (allBelow_append ?_ ?_) ?_).tracedTree rfl hbelow
    all_goals exact allBelow_childAt? _
  | ifThen =>
    refine (allBelow_append (allBelow_append (allBelow_childAt? _) hbody) ?_).tracedTree rfl hbelow
    refine allBelow_map fun c hc => mem_descendants_of_mem_children ?_
    exact (List.mem_filter.mp (List.mem_filter.mp hc).1).1
  | elseBranch => exact hbody.tracedTree rfl hbelow
  | throwing => exact hfirst.tracedTree rfl hbelow
  | returning => exact hfirst.tracedTree rfl hbelow
  | statement => exact hfirst.tracedTree rfl hbelow
  | printing => exact allBelow_visible.tracedTree rfl hbelow
  | prefixed =>
    refine (allBelow_toList fun c hc => ?_).tracedTree rfl hbelow
    rcases hargument : n.childAt? "argument" with _ | argument
    · rw [hargument] at hc
      exact mem_descendants_of_mem_visible (List.mem_of_getLast? hc)
    · rw [hargument] at hc
      cases hc
      exact mem_descendants_of_childAt? hargument
  | element =>
    refine (allBelow_toList fun c hc => ?_).tracedTree rfl hbelow
    exact mem_descendants_of_mem_visible (List.mem_of_getLast? hc)
  | call => exact (allBelow_append (allBelow_childAt? _) (harguments _)).tracedTree rfl hbelow
  | memberAccess => exact hobject
  | memberCall =>
    refine tracedTree_of_parts traced_nil ?_
    intro part hpart
    rcases List.mem_append.mp hpart with hpart | hpart
    · rw [Option.toList_some, List.mem_singleton] at hpart
      rw [hpart]
      exact hobject
    · exact (harguments _).traced hbelow part hpart

end Building

/-- Every name that the tree of a node mentions is written below the node, at a position of
the context in which it is mentioned. -/
theorem traced_toTree (source : Text) (n : Concrete μ) :
    TracedTree source n (n.toTree source) := by
  -- Trees are made of trees of grandchildren too, so the claim is made for all nodes below.
  suffices h : ∀ m ∈ n.nodes, TracedTree source m (m.toTree source) from h n (mem_nodes_self n)
  induction n using induction_children with
  | step n ih =>
    intro m hm
    rw [nodes_eq, List.mem_cons] at hm
    rcases hm with rfl | hm
    · have hbelow : ∀ c ∈ m.descendants, TracedTree source m (c.toTree source) := by
        intro c hc
        obtain ⟨child, hchild, hmem⟩ := mem_nodesAll.mp hc
        exact (ih child hchild c hmem).mono (mem_nodes_of_mem_descendants hc)
      rw [toTree_eq, build]
      split
      · rename_i shape hshape
        exact traced_shaped hshape hbelow
      · rw [plain]
        split
        · exact tracedTree_of_parts traced_nil (by simp [Tree.parts])
        · exact allBelow_visible.tracedTree rfl hbelow
    · obtain ⟨child, hchild, hmem⟩ := mem_nodesAll.mp hm
      exact ih child hchild m hmem

end Namespacer.Concrete
