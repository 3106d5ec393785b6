import Namespacer.Proofs.NameOrigins
import Namespacer.Proofs.StackConversion

/-!
# References come from names alone

The trees of a source keep more of it than the references do: the names of classes, functions
and parameters are in a tree, and no reference comes from them. So two sources that agree at
the names and operators of a concrete tree may have different syntax trees, but the trees
mention the same types.

* `mentions_build`: what a node mentions is determined by what the nodes below it mention and
  by the names and operators among them.
* `references_convert`: a reference is the name of a name node that is no reserved word, and
  nothing but names and operators has a say in the references.
-/

namespace Namespacer.Concrete

variable {μ : Type}

/-! ## The node that a name is written at -/

theorem name?_cases {source : Text} {w : Concrete μ} {name : Name} (h : w.name? source = some name) :
    isNameKind w.kind = true ∧
      nonClassNames.contains (Text.lower (Text.strip (w.text source))) = false ∧
      name = Name.ofText (Text.strip (w.text source)) := by
  rw [name?] at h
  split at h
  · rename_i hkind
    dsimp only at h
    split at h
    · cases h
    · rename_i hreserved
      rw [Bool.or_eq_true, not_or, Bool.not_eq_true, Bool.not_eq_true] at hreserved
      exact ⟨hkind, hreserved.2, (Option.some.inj h).symm⟩
  · cases h

theorem mem_children_of_orElse {n : Concrete μ} {first second : Option (Concrete μ)}
    (hfirst : ∀ c, first = some c → c ∈ n.children)
    (hsecond : ∀ c, second = some c → c ∈ n.children) {c : Concrete μ}
    (h : (first <|> second) = some c) : c ∈ n.children := by
  cases first with
  | none => exact hsecond c h
  | some d => exact hfirst c h

theorem mem_children_of_declaredType? {n c : Concrete μ} (h : n.declaredType? = some c) :
    c ∈ n.children :=
  mem_children_of_orElse (fun _ hd => mem_children_of_childAt? hd)
    (fun _ hd => mem_children_of_mem_visible (List.mem_of_find?_eq_some hd)) h

theorem mem_children_of_scope {n c : Concrete μ}
    (h : (n.childAt? "scope" <|> n.visible.head?) = some c) : c ∈ n.children :=
  mem_children_of_orElse (fun _ hd => mem_children_of_childAt? hd)
    (fun _ hd => mem_children_of_mem_visible (List.mem_of_head? hd)) h

theorem mem_children_of_typeOperand? {source : Text} {n w : Concrete μ} {context : Context}
    (h : n.typeOperand? source = some (w, context)) : w ∈ n.children := by
  have hmap {operand : Option (Concrete μ)} {context' : Context}
      (heq : operand.map (·, context') = some (w, context)) : operand = some w := by
    obtain ⟨found, hfound, hpair⟩ := Option.map_eq_some_iff.mp heq
    rw [hfound, (Prod.mk.inj hpair).1]
  rw [typeOperand?] at h
  split at h
  · exact mem_children_of_mem_visible (List.mem_of_head? (hmap h))
  · exact mem_children_of_childAt? (hmap h)
  · exact mem_children_of_scope (hmap h)
  · split at h
    · exact mem_children_of_childAt? (hmap h)
    · cases h
  · cases h

/-- A name is taken from a node below the one that takes it. -/
theorem TakesName.mem_nodes {source : Text} {n w : Concrete μ} {context : Context}
    (h : TakesName source n w context) : w ∈ n.nodes := by
  have hbelow {c : Concrete μ} (hc : c ∈ n.children) (hw : w ∈ c.nodes) : w ∈ n.nodes :=
    mem_nodes_of_mem_descendants (mem_nodesAll.mpr ⟨c, hc, hw⟩)
  have hvisible {c : Concrete μ} (hw : w ∈ c.visible) : w ∈ c.nodes :=
    mem_nodes_of_mem_descendants (mem_descendants_of_mem_visible hw)
  cases h with
  | extended hclause _ hw => exact hbelow (mem_children_of_mem_visible hclause) (hvisible hw)
  | implemented hclause _ hw => exact hbelow (mem_children_of_mem_visible hclause) (hvisible hw)
  | returned _ htype hw => exact hbelow (mem_children_of_childAt? htype) hw
  | parameter _ htype hw => exact hbelow (mem_children_of_declaredType? htype) hw
  | property _ htype hw => exact hbelow (mem_children_of_declaredType? htype) hw
  | caught _ htype hw => exact hbelow htype hw
  | created _ hw => exact hvisible hw
  | operand hw => exact hbelow (mem_children_of_typeOperand? hw) (mem_nodes_self w)

/-! ## Two sources -/

/-- Whether two sources have the same text at each name below a node, and at each node in the
place of an operator. -/
def SameNames (source other : Text) (n : Concrete μ) : Prop :=
  ∀ w ∈ n.nodes, isNameKind w.kind = true ∨ w.field = some "operator" →
    w.text source = w.text other

theorem SameNames.mono {source other : Text} {n m : Concrete μ} (h : SameNames source other n)
    (hm : m ∈ n.nodes) : SameNames source other m :=
  fun w hw hread => h w (mem_nodes_trans hw hm) hread

theorem SameNames.child {source other : Text} {n c : Concrete μ} (h : SameNames source other n)
    (hc : c ∈ n.children) : SameNames source other c :=
  h.mono (mem_nodes_of_mem_descendants (mem_descendants_of_mem_children hc))

section Names

variable {source other : Text} {n : Concrete μ}

theorem SameNames.name? (h : SameNames source other n) : n.name? source = n.name? other := by
  rw [Concrete.name?, Concrete.name?]
  split
  · rename_i hkind
    rw [h n (mem_nodes_self n) (.inl hkind)]
  · rfl

theorem SameNames.bind_name? (h : SameNames source other n) {node : Option (Concrete μ)}
    (hnode : ∀ c, node = some c → c ∈ n.children) :
    node.bind (Concrete.name? source) = node.bind (Concrete.name? other) := by
  cases node with
  | none => rfl
  | some c => exact (h.child (hnode c rfl)).name?

theorem SameNames.typeNames (h : SameNames source other n) :
    typeNames source n = typeNames other n := by
  induction n using induction_children with
  | step n ih =>
    have hvisible : n.visible.flatMap (Concrete.typeNames source) =
        n.visible.flatMap (Concrete.typeNames other) := by
      apply List.flatMap_congr
      intro c hc
      have hchild := mem_children_of_mem_visible hc
      exact ih c hchild (h.child hchild)
    rw [typeNames_eq, typeNames_eq other n, h.name?, hvisible]

theorem SameNames.typeNames? (h : SameNames source other n) {node : Option (Concrete μ)}
    (hnode : ∀ c, node = some c → c ∈ n.children) :
    Concrete.typeNames? source node = Concrete.typeNames? other node := by
  cases node with
  | none => rfl
  | some c => exact (h.child (hnode c rfl)).typeNames

theorem SameNames.clauseNames (h : SameNames source other n) :
    n.clauseNames source = n.clauseNames other := by
  apply List.filterMap_congr
  intro c hc
  exact (h.child (mem_children_of_mem_visible hc)).name?

theorem SameNames.caughtTypes (h : SameNames source other n) :
    n.caughtTypes source = n.caughtTypes other := by
  rw [Concrete.caughtTypes, Concrete.caughtTypes]
  split
  · rename_i type htype
    exact (h.child (mem_children_of_childAt? htype)).typeNames
  · apply List.flatMap_congr
    intro c hc
    exact (h.child (mem_children_of_mem_visible (List.mem_filter.mp hc).1)).typeNames

theorem SameNames.operator (h : SameNames source other n) :
    (n.childAt? "operator").map (text source) = (n.childAt? "operator").map (text other) := by
  apply Option.map_congr
  intro c hc
  have hfield := List.find?_some hc
  exact h c (mem_nodes_of_mem_descendants (mem_descendants_of_childAt? hc))
    (.inr (beq_iff_eq.mp hfield))

end Names

/-! ## What two conversions mention -/

/-- Whether two conversions mention the same types at each node below a node. -/
def SameMentions (f g : Concrete μ → Tree) (n : Concrete μ) : Prop :=
  ∀ c ∈ n.descendants, (f c).mentions = (g c).mentions

section Mentions

variable {source other : Text} {f g : Concrete μ → Tree} {n : Concrete μ}

theorem SameMentions.child (h : SameMentions f g n) {c : Concrete μ} (hc : c ∈ n.children) :
    SameMentions f g c :=
  fun d hd => h d (mem_descendants_of_mem_nodes (mem_nodes_of_mem_descendants hd)
    (mem_descendants_of_mem_children hc))

theorem SameMentions.map (h : SameMentions f g n) {nodes : List (Concrete μ)}
    (hnodes : ∀ c ∈ nodes, c ∈ n.children) :
    Tree.mentionsAll (nodes.map f) = Tree.mentionsAll (nodes.map g) := by
  induction nodes with
  | nil => rfl
  | cons c nodes ih =>
    rw [List.forall_mem_cons] at hnodes
    rw [List.map_cons, List.map_cons, Tree.mentionsAll, Tree.mentionsAll, ih hnodes.2,
      h c (mem_descendants_of_mem_children hnodes.1)]

theorem SameMentions.map? (h : SameMentions f g n) {node : Option (Concrete μ)}
    (hnode : ∀ c, node = some c → c ∈ n.children) :
    Tree.mentions? (node.map f) = Tree.mentions? (node.map g) := by
  cases node with
  | none => rfl
  | some c => exact h c (mem_descendants_of_mem_children (hnode c rfl))

theorem SameMentions.visible (h : SameMentions f g n) :
    Tree.mentionsAll (n.visible.map f) = Tree.mentionsAll (n.visible.map g) :=
  h.map fun _ hc => mem_children_of_mem_visible hc

theorem SameMentions.childAt? (h : SameMentions f g n) (field : String) :
    Tree.mentions? ((n.childAt? field).map f) = Tree.mentions? ((n.childAt? field).map g) :=
  h.map? fun _ hc => mem_children_of_childAt? hc

theorem SameMentions.bodyOf (h : SameMentions f g n) :
    Tree.mentionsAll (n.bodyOf f) = Tree.mentionsAll (n.bodyOf g) := by
  rw [Concrete.bodyOf, Concrete.bodyOf, Tree.mentionsAll_toList, Tree.mentionsAll_toList,
    h.childAt?]

theorem SameMentions.visibleTrees (h : SameMentions f g n) {node : Option (Concrete μ)}
    (hnode : ∀ c, node = some c → c ∈ n.children) :
    Tree.mentionsAll (visibleTrees f node) = Tree.mentionsAll (visibleTrees g node) := by
  cases node with
  | none => rfl
  | some c => exact (h.child (hnode c rfl)).visible

/-! ### Classes and creations -/

/-- Whether two classes mention the same types. -/
structure SameClass (first second : ClassDeclaration Tree) : Prop where
  extended : first.extended = second.extended
  implemented : first.implemented = second.implemented
  body : Tree.mentionsAll first.body = Tree.mentionsAll second.body

theorem SameClass.mentions {first second : ClassDeclaration Tree} (h : SameClass first second) :
    (Tree.classDecl first).mentions = (Tree.classDecl second).mentions := by
  simp only [Tree.mentions_eq, Tree.ownMentions, Tree.headMentions, Tree.parts, h.extended,
    h.implemented, h.body]

theorem sameClass_addMember {first second : ClassDeclaration Tree} {c : Concrete μ}
    (h : SameClass first second) (hnames : SameNames source other c)
    (hbelow : SameMentions f g c) :
    SameClass (addMember source f first c) (addMember other g second c) := by
  unfold addMember
  split
  · exact ⟨by rw [h.extended, hnames.clauseNames], h.implemented, h.body⟩
  · exact ⟨h.extended, by rw [h.implemented, hnames.clauseNames], h.body⟩
  · exact ⟨h.extended, h.implemented, hbelow.visible⟩
  · exact ⟨h.extended, h.implemented, hbelow.visible⟩
  · exact h

theorem sameClass_classOf (hnames : SameNames source other n) (hbelow : SameMentions f g n) :
    SameClass (n.classOf source f) (n.classOf other g) := by
  apply List.foldl_rel
  · exact ⟨rfl, rfl, rfl⟩
  · intro c hc first second h
    have hchild := mem_children_of_mem_visible hc
    exact sameClass_addMember h (hnames.child hchild) (hbelow.child hchild)

/-- Whether the objects that are created mention the same types. -/
inductive SameCreated : Created Tree → Created Tree → Prop where
  | unknown : SameCreated .unknown .unknown
  | named (name : Name) : SameCreated (.named name) (.named name)
  | inPlace {first second : ClassDeclaration Tree} (h : SameClass first second) :
      SameCreated (.inPlace first) (.inPlace second)

theorem SameCreated.mentions {first second : Created Tree} (h : SameCreated first second)
    {arguments others : List Tree}
    (harguments : Tree.mentionsAll arguments = Tree.mentionsAll others) :
    (Tree.new first arguments).mentions = (Tree.new second others).mentions := by
  cases h with
  | unknown => simp only [Tree.mentions_eq, Tree.ownMentions, Tree.parts, harguments]
  | named name => simp only [Tree.mentions_eq, Tree.ownMentions, Tree.parts, harguments]
  | inPlace h =>
    rw [Tree.mentions_eq, Tree.mentions_eq (.new _ others)]
    simp only [Tree.ownMentions, Tree.parts, Tree.mentionsAll, h.mentions, harguments]

/-- Whether what was read of two creations mentions the same types. -/
structure SameCreation (first second : Creation) : Prop where
  what : SameCreated first.what second.what
  arguments : Tree.mentionsAll first.arguments = Tree.mentionsAll second.arguments
  declaresClass : first.declaresClass = second.declaresClass

theorem sameCreation_add {first second : Creation} {c : Concrete μ}
    (h : SameCreation first second) (hnames : SameNames source other c)
    (hbelow : SameMentions f g c) :
    SameCreation (Creation.add source f first c) (Creation.add other g second c) := by
  unfold Creation.add
  split
  · refine ⟨?_, h.arguments, h.declaresClass⟩
    dsimp only
    rw [hnames.name?]
    split
    · exact .named _
    · exact .unknown
  · split
    · refine ⟨.inPlace (sameClass_classOf hnames hbelow), ?_, h.declaresClass⟩
      apply hbelow.visibleTrees
      intro d hd
      exact mem_children_of_mem_visible (List.mem_of_find?_eq_some hd)
    · exact ⟨h.what, hbelow.visible, h.declaresClass⟩
    · exact ⟨h.what, h.arguments, rfl⟩
    · exact h

theorem mentions_creationOf (hnames : SameNames source other n) (hbelow : SameMentions f g n) :
    (n.creationOf source f).mentions = (n.creationOf other g).mentions := by
  have h : SameCreation (n.visible.foldl (Creation.add source f) {})
      (n.visible.foldl (Creation.add other g) {}) := by
    apply List.foldl_rel
    · exact ⟨.unknown, rfl, rfl⟩
    · intro c hc first second h
      have hchild := mem_children_of_mem_visible hc
      exact sameCreation_add h (hnames.child hchild) (hbelow.child hchild)
  rw [creationOf, creationOf]
  generalize n.visible.foldl (Creation.add source f) {} = first at h
  generalize n.visible.foldl (Creation.add other g) {} = second at h
  obtain ⟨what, arguments, declares⟩ := first
  obtain ⟨what', arguments', declares'⟩ := second
  obtain ⟨hwhat, harguments, hdeclares⟩ := h
  dsimp only at hwhat harguments hdeclares ⊢
  subst hdeclares
  cases hwhat with
  | unknown =>
    cases declares with
    | true => exact (SameCreated.inPlace (sameClass_classOf hnames hbelow)).mentions harguments
    | false => exact SameCreated.unknown.mentions harguments
  | named name => exact (SameCreated.named name).mentions harguments
  | inPlace h => exact (SameCreated.inPlace h).mentions harguments

/-! ### Nodes -/

/-- What a node of a shape mentions is determined by the names and operators below it and by
what the nodes below it mention. -/
theorem mentions_shaped (hnames : SameNames source other n) (hbelow : SameMentions f g n)
    (shape : Shape) :
    (n.shaped source f shape).mentions = (n.shaped other g shape).mentions := by
  have hat := hbelow.childAt?
  have hbody := hbelow.bodyOf
  have hvisible := hbelow.visible
  have htypes (field : String) :
      typeNames? source (n.childAt? field) = typeNames? other (n.childAt? field) :=
    hnames.typeNames? fun _ hc => mem_children_of_childAt? hc
  have hdeclared : typeNames? source n.declaredType? = typeNames? other n.declaredType? :=
    hnames.typeNames? fun _ hc => mem_children_of_declaredType? hc
  have harguments (field : String) : Tree.mentionsAll (visibleTrees f (n.childAt? field)) =
      Tree.mentionsAll (visibleTrees g (n.childAt? field)) :=
    hbelow.visibleTrees fun _ hc => mem_children_of_childAt? hc
  have hname (field : String) :
      (n.childAt? field).bind (name? source) = (n.childAt? field).bind (name? other) :=
    hnames.bind_name? fun _ hc => mem_children_of_childAt? hc
  have hfiltered (p : Concrete μ → Bool) : Tree.mentionsAll ((n.visible.filter p).map f) =
      Tree.mentionsAll ((n.visible.filter p).map g) :=
    hbelow.map fun _ hc => mem_children_of_mem_visible (List.mem_filter.mp hc).1
  have hfirst : Tree.mentions? (n.visible.head?.map f) = Tree.mentions? (n.visible.head?.map g) :=
    hbelow.map? fun _ hc => mem_children_of_mem_visible (List.mem_of_head? hc)
  have hlast : Tree.mentions? (n.visible.getLast?.map f) =
      Tree.mentions? (n.visible.getLast?.map g) :=
    hbelow.map? fun _ hc => mem_children_of_mem_visible (List.mem_of_getLast? hc)
  cases shape with
  | declaration => exact (sameClass_classOf hnames hbelow).mentions
  | creation => exact mentions_creationOf hnames hbelow
  | function =>
    simp only [shaped, Tree.mentions, htypes, harguments, hbody]
  | parameter => simp only [shaped, Tree.mentions, hdeclared]
  | property => simp only [shaped, Tree.mentions, hdeclared, hfiltered]
  | tryCatch =>
    have hfinally : Tree.mentionsAll (((n.visible.filter (·.kind == "finally_clause")).getLast?.map
          (bodyOf f)).getD []) =
        Tree.mentionsAll (((n.visible.filter (·.kind == "finally_clause")).getLast?.map
          (bodyOf g)).getD []) := by
      cases hclause : (n.visible.filter (·.kind == "finally_clause")).getLast? with
      | none => rfl
      | some c =>
        have hc := (List.mem_filter.mp (List.mem_of_getLast? hclause)).1
        exact (hbelow.child (mem_children_of_mem_visible hc)).bodyOf
    simp only [shaped, Tree.mentions, hbody, hfiltered, hfinally]
  | catchClause => simp only [shaped, Tree.mentions, hnames.caughtTypes, hbody]
  | scopedCall => simp only [shaped, Tree.mentions, Tree.mentions?, hname, harguments]
  | scopedAccess =>
    have hscope := hnames.bind_name? fun _ hc => mem_children_of_scope hc
    simp only [shaped, Tree.mentions, hscope]
  | binary =>
    simp only [shaped, hnames.operator]
    split
    · simp only [Tree.mentions, hname]
    · simp only [Tree.mentions, hat]
  | ifThen =>
    have halternatives :
        Tree.mentionsAll (((n.childrenAt "alternative").filter (·.kind != "comment")).map f) =
          Tree.mentionsAll (((n.childrenAt "alternative").filter (·.kind != "comment")).map g) :=
      hbelow.map fun _ hc => (List.mem_filter.mp (List.mem_filter.mp hc).1).1
    simp only [shaped, Tree.mentions, hat, hbody, halternatives]
  | prefixed =>
    have hargument : Tree.mentions? ((n.childAt? "argument" <|> n.visible.getLast?).map f) =
        Tree.mentions? ((n.childAt? "argument" <|> n.visible.getLast?).map g) := by
      refine hbelow.map? fun c hc => mem_children_of_orElse ?_ ?_ hc
      · exact fun _ hd => mem_children_of_childAt? hd
      · exact fun _ hd => mem_children_of_mem_visible (List.mem_of_getLast? hd)
    simp only [shaped, Tree.mentions, hargument]
  | _ => simp only [shaped, Tree.mentions, Tree.mentions?, hat, hbody, hvisible, hfirst, hlast,
      harguments]

theorem mentions_build (hnames : SameNames source other n) (hbelow : SameMentions f g n) :
    (n.build source f).mentions = (n.build other g).mentions := by
  rw [build, build]
  split
  · exact mentions_shaped hnames hbelow _
  · rw [plain, plain]
    split
    · rfl
    · simp only [Tree.mentions, hbelow.visible]

end Mentions

/-- Sources that agree at the names and operators of a concrete tree mention the same types. -/
theorem mentions_toTree {source other : Text} {n : Concrete μ} (h : SameNames source other n) :
    (n.toTree source).mentions = (n.toTree other).mentions := by
  -- As trees are made of trees of grandchildren too, the claim is made for all nodes below.
  suffices hall : ∀ m ∈ n.nodes, (m.toTree source).mentions = (m.toTree other).mentions from
    hall n (mem_nodes_self n)
  induction n using induction_children with
  | step n ih =>
    have hbelow : SameMentions (toTree source) (toTree other) n := by
      intro m hm
      obtain ⟨c, hc, hmc⟩ := mem_nodesAll.mp hm
      exact ih c hc (h.child hc) m hmc
    intro m hm
    rw [nodes_eq] at hm
    rcases List.mem_cons.mp hm with rfl | hm
    · rw [toTree_eq, toTree_eq other]
      exact mentions_build h hbelow
    · exact hbelow m hm

/-- The references of a converted tree are what the tree of the recursion mentions. -/
theorem references_eq_map_mentions (source : Text) (n : Concrete μ) :
    Tree.references (some (convert source n.numbered)) =
      (n.toTree source).mentions.map Mention.reference := by
  rw [convert_numbered, Tree.references, Option.map_some, Option.getD_some,
    Tree.collect_eq_mentions]

/-- Every reference with a name comes from a name node whose text is no reserved word, and
sources that agree at the names and operators of a tree have the same references. -/
theorem references_convert (source : Text) (n : Concrete μ) :
    (∀ reference ∈ Tree.references (some (convert source n.numbered)),
      ∀ name, reference.name = some name → name ≠ [] ∧ ∃ w ∈ n.nodes, isNameKind w.kind = true ∧
        nonClassNames.contains (Text.lower (Text.strip (w.text source))) = false ∧
        name = (Name.ofText (Text.strip (w.text source))).text) ∧
      ∀ other, SameNames source other n →
        Tree.references (some (convert source n.numbered)) =
          Tree.references (some (convert other n.numbered)) := by
  constructor
  · intro reference hreference name hname
    rw [references_eq_map_mentions] at hreference
    obtain ⟨⟨found, context⟩, hmention, rfl⟩ := List.mem_map.mp hreference
    obtain ⟨hfound, hne⟩ := Option.filter_eq_some_iff.mp hname
    obtain ⟨found, rfl, rfl⟩ := Option.map_eq_some_iff.mp hfound
    obtain ⟨m, hm, w, htakes, hnode⟩ := traced_toTree source n found context hmention
    obtain ⟨hkind, hreserved, rfl⟩ := name?_cases hnode
    exact ⟨by simpa using hne, w, mem_nodes_trans htakes.mem_nodes hm, hkind, hreserved, rfl⟩
  · intro other hnames
    rw [references_eq_map_mentions, references_eq_map_mentions, mentions_toTree hnames]

/-- The tree of the creation of an `A` with a literal of seven characters. -/
def creationNode : Concrete Unit :=
  .node () "object_creation_expression" true none 0 14
    [.node () "new" false none 0 3 [],
      .node () "name" true none 4 5 [],
      .node () "arguments" true none 5 14
        [.node () "argument" true none 6 13 [.node () "string" true none 6 13 []]]]

/-- A literal that reads like a creation makes no reference. -/
theorem references_convert_literal :
    Tree.references (some (convert "new A('new B')".toList creationNode.numbered)) =
        Tree.references (some (convert "new A('hello')".toList creationNode.numbered)) ∧
      ∀ reference ∈ Tree.references (some (convert "new A('new B')".toList creationNode.numbered)),
        reference = ⟨some ['A'], .created⟩ := by
  refine ⟨(references_convert "new A('new B')".toList creationNode).2 "new A('hello')".toList ?_, ?_⟩
  · unfold SameNames
    decide +kernel
  · rw [references_eq_map_mentions]
    decide +kernel

end Namespacer.Concrete
