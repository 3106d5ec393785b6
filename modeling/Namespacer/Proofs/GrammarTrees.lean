import Namespacer.Proofs.Positions

/-!
# Trees that follow the grammar of the language

The grammar of the language fixes which children a node has: the operands of an
operator stand in the fields `left` and `right`, a class has one list of
members, a name or a type holds nothing but names and types. `FollowsGrammar`
says this about every node of a concrete tree, as far as the conversion counts
on it, whoever built the tree. What the conversion makes of the tree is not part
of it.

* `FollowsGrammar.sound`: a tree that follows the grammar is sound.
-/

namespace Namespacer.Concrete

variable {μ : Type}

/-- A node with nothing below it that has a shape, as a name, a type or a
modifier is. -/
inductive IsPlain : Concrete μ → Prop where
  | intro (n : Concrete μ) (shapeless : Shape.ofKind? n.kind = none)
      (children : isOpaqueKind n.kind = false → ∀ c ∈ n.visible, IsPlain c) : IsPlain n

/-- A child that holds a list of items, alone in its field. -/
def IsListAt (field : String) (n c : Concrete μ) : Prop :=
  n.childAt? field = some c ∧ Shape.ofKind? c.kind = none

/-- A block to be run finally, with nothing but its body. -/
def IsFinallyClause (c : Concrete μ) : Prop :=
  c.kind = "finally_clause" ∧ ∀ d ∈ c.visible, IsPlain d ∨ c.childAt? "body" = some d

/-- The child that lists the members of a class, the last one if there are several. -/
def memberList? (n : Concrete μ) : Option (Concrete μ) :=
  (n.visible.filter (holdsMembers ·.kind)).getLast?

/-- A class that is declared where an object of it is created, with nothing
beside its members but arguments. -/
def IsAnonymousClass (c : Concrete μ) : Prop :=
  ∀ d ∈ c.visible, IsPlain d ∨ c.memberList? = some d ∨
    d.kind = "arguments" ∧ c.visible.find? (·.kind == "arguments") = some d

/-- Kinds of nodes that say what an object is created of. -/
def saysWhat (kind : String) : Bool := isNameKind kind || kind == "anonymous_class"

/-- Kinds of nodes with the arguments of a creation. -/
def givesArguments (kind : String) : Bool := kind == "arguments" || kind == "anonymous_class"

/-- The places for children of a node of a shape that are more than plain. -/
def HasPlace (n c : Concrete μ) : Shape → Prop
  | .declaration => n.memberList? = some c
  | .function => IsListAt "parameters" n c ∨ n.childAt? "body" = some c ∨
      c.kind = "anonymous_function_use_clause"
  | .parameter => c.field = some "default_value" ∨ isMemberListKind c.kind
  | .property => c.kind = "property_element" ∨ isMemberListKind c.kind
  | .tryCatch => n.childAt? "body" = some c ∨ c.kind = "catch_clause" ∨ IsFinallyClause c
  | .catchClause | .elseBranch => n.childAt? "body" = some c
  | .creation => c.kind ≠ "anonymous_class" ∨ IsAnonymousClass c
  | .scopedCall => c.field ≠ some "arguments" ∨ IsListAt "arguments" n c
  | .scopedAccess | .printing | .element => True
  | .binary | .assignment => n.childAt? "left" = some c ∨ n.childAt? "right" = some c
  | .conditional => n.childAt? "condition" = some c ∨ n.childAt? "body" = some c ∨
      n.childAt? "alternative" = some c
  | .ifThen => n.childAt? "condition" = some c ∨ n.childAt? "body" = some c ∨
      c.field = some "alternative"
  | .throwing | .returning | .statement => n.visible.head? = some c
  | .prefixed => (n.childAt? "argument" <|> n.visible.getLast?) = some c
  | .call => n.childAt? "function" = some c ∨ IsListAt "arguments" n c
  | .memberCall => n.childAt? "object" = some c ∨ c.field = some "name" ∨
      IsListAt "arguments" n c
  | .memberAccess => n.childAt? "object" = some c ∨ c.field = some "name"

/-- A node whose children are where the grammar has them. -/
structure Fits (n : Concrete μ) : Prop where
  /-- A token holds nothing. -/
  token : n.named = false → n.children = []
  /-- Text outside of the program holds nothing of it. -/
  interpolation : n.kind = "text_interpolation" → IsPlain n
  places : ∀ shape, Shape.ofKind? n.kind = some shape → ∀ c ∈ n.visible,
    IsPlain c ∨ HasPlace n c shape
  /-- An object is created of one thing and with one list of arguments. -/
  creation : Shape.ofKind? n.kind = some .creation →
    (n.visible.filter (saysWhat ·.kind)).length ≤ 1 ∧
      (n.visible.filter (givesArguments ·.kind)).length ≤ 1

/-- A tree whose nodes have their children where the grammar has them. -/
inductive FollowsGrammar : Concrete μ → Prop where
  | intro (n : Concrete μ) (fits : Fits n) (children : ∀ c ∈ n.children, FollowsGrammar c) :
      FollowsGrammar n

/-! ## What the conversion finds in such a tree -/

variable {source : Text} {n c : Concrete μ}

theorem IsPlain.silent (h : IsPlain n) : (n.toTree source).Silent := by
  intro P hP
  induction h with
  | intro n shapeless _ ih =>
    intro hn
    obtain ⟨hopen, c, hc, hbelow⟩ := exists_visible_of_plain shapeless hP hn
    exact ih hopen c hc hbelow

theorem IsPlain.gives (h : IsPlain c) : Gives source n c := gives_of_silent h.silent

theorem eq_singleton_of_mem {α : Type} {l : List α} {a : α} (hlength : l.length ≤ 1) (ha : a ∈ l) :
    l = [a] := by
  obtain ⟨b, rfl⟩ := List.length_eq_one_iff.mp
    (Nat.le_antisymm hlength (List.length_pos_of_mem ha))
  rw [List.mem_singleton.mp ha]

theorem field_of_childAt? {field : String} (h : n.childAt? field = some c) : c.field = some field := by
  simpa using List.find?_some h

/-- What is found in a list of members or of items is found in each node that looks at them. -/
theorem IsListAt.gives {field : String} (h : IsListAt field n c)
    (hparts : ∀ tree ∈ visibleTrees (toTree source) (n.childAt? field),
      tree ∈ (n.toTree source).parts) : Gives source n c :=
  gives_of_visible_parts h.2 fun _ hd => hparts _ (by rw [h.1]; exact mem_visibleTrees hd)

theorem shapeless_of_holdsMembers {kind : String} (h : holdsMembers kind = true) :
    Shape.ofKind? kind = none := by
  unfold holdsMembers at h
  split at h
  · rfl
  · rfl
  · cases h

/-- A child that holds no members does not change the members of a class. -/
theorem body_foldl_addMember {convert : Concrete μ → Tree} (declaration : ClassDeclaration Tree)
    {children : List (Concrete μ)} (h : ∀ c ∈ children, holdsMembers c.kind = false) :
    (children.foldl (addMember source convert) declaration).body = declaration.body := by
  induction children generalizing declaration with
  | nil => rfl
  | cons c children ih =>
    rw [List.forall_mem_cons] at h
    rw [List.foldl_cons, ih _ h.2]
    unfold addMember
    split <;> simp_all [holdsMembers]

theorem holdsMembers_of_memberList? (h : n.memberList? = some c) : holdsMembers c.kind = true := by
  have hmem : c ∈ n.visible.filter (holdsMembers ·.kind) := List.mem_of_getLast? h
  exact (List.mem_filter.mp hmem).2

/-- The members of a class are those that its list of members holds. -/
theorem body_classOf {convert : Concrete μ → Tree} (n : Concrete μ) (h : n.memberList? = some c) :
    (n.classOf source convert).body = c.visible.map convert := by
  obtain ⟨lists, hlists⟩ := List.getLast?_eq_some_iff.mp h
  obtain ⟨before, after, hvisible, -, hlast⟩ := List.filter_eq_append_iff.mp hlists
  obtain ⟨between, others, rfl, -, hc, hothers⟩ := List.filter_eq_cons_iff.mp hlast
  have hnone : ∀ d ∈ others, holdsMembers d.kind = false := by
    simpa [List.filter_eq_nil_iff] using hothers
  rw [classOf, hvisible, List.foldl_append, List.foldl_append, List.foldl_cons,
    body_foldl_addMember _ hnone]
  unfold addMember
  split <;> simp_all [holdsMembers]

/-! ## Creations -/

section Creations

variable {convert : Concrete μ → Tree}

theorem Creation.arguments_foldl_add (creation : Creation) {children : List (Concrete μ)}
    (h : ∀ c ∈ children, givesArguments c.kind = false) :
    (children.foldl (Creation.add source convert) creation).arguments = creation.arguments := by
  induction children generalizing creation with
  | nil => rfl
  | cons c children ih =>
    rw [List.forall_mem_cons] at h
    rw [List.foldl_cons, ih _ h.2]
    unfold Creation.add
    split
    · rfl
    · split <;> simp_all [givesArguments]

theorem Creation.what_foldl_add (creation : Creation) {children : List (Concrete μ)}
    (h : ∀ c ∈ children, saysWhat c.kind = false) :
    (children.foldl (Creation.add source convert) creation).what = creation.what := by
  induction children generalizing creation with
  | nil => rfl
  | cons c children ih =>
    rw [List.forall_mem_cons] at h
    rw [List.foldl_cons, ih _ h.2]
    unfold Creation.add
    split
    · simp_all [saysWhat]
    · split <;> simp_all [saysWhat]

variable (source convert) in
/-- The arguments of a creation are those that its only child with arguments gives. -/
theorem arguments_creation (h : n.visible.filter (givesArguments ·.kind) = [c]) :
    ∃ before : Creation, (n.visible.foldl (Creation.add source convert) {}).arguments =
      (Creation.add source convert before c).arguments := by
  obtain ⟨before, after, hvisible, -, hc, hafter⟩ := List.filter_eq_cons_iff.mp h
  refine ⟨before.foldl (Creation.add source convert) {}, ?_⟩
  rw [hvisible, List.foldl_append, List.foldl_cons, Creation.arguments_foldl_add]
  simpa [List.filter_eq_nil_iff] using hafter

variable (source convert) in
/-- An object is created of what the only child that says it says. -/
theorem what_creation (h : n.visible.filter (saysWhat ·.kind) = [c]) :
    ∃ before : Creation, (n.visible.foldl (Creation.add source convert) {}).what =
      (Creation.add source convert before c).what := by
  obtain ⟨before, after, hvisible, -, hc, hafter⟩ := List.filter_eq_cons_iff.mp h
  refine ⟨before.foldl (Creation.add source convert) {}, ?_⟩
  rw [hvisible, List.foldl_append, List.foldl_cons, Creation.what_foldl_add]
  simpa [List.filter_eq_nil_iff] using hafter

/-- The arguments of a creation are looked at whatever is created. -/
theorem mem_parts_creationOf {tree : Tree}
    (h : tree ∈ (n.visible.foldl (Creation.add source convert) {}).arguments) :
    tree ∈ (n.creationOf source convert).parts := by
  rw [creationOf]
  generalize n.visible.foldl (Creation.add source convert) {} = creation at h
  obtain ⟨what, arguments, declaresClass⟩ := creation
  cases what <;> cases declaresClass <;> simp_all [Tree.parts]

theorem Creation.add_arguments (creation : Creation) (hkind : c.kind = "arguments") :
    Creation.add source convert creation c =
      { creation with arguments := visibleTrees convert (some c) } := by
  simp [Creation.add, hkind, isNameKind]

theorem Creation.add_anonymous (creation : Creation) (hkind : c.kind = "anonymous_class") :
    Creation.add source convert creation c =
      { creation with
        what := .inPlace (c.classOf source convert)
        arguments := visibleTrees convert (c.visible.find? (·.kind == "arguments")) } := by
  simp [Creation.add, hkind, isNameKind]

/-- A creation with a class declared on the spot. -/
theorem creationOf_anonymous (hkind : c.kind = "anonymous_class")
    (hwhat : n.visible.filter (saysWhat ·.kind) = [c])
    (harguments : n.visible.filter (givesArguments ·.kind) = [c]) :
    n.creationOf source convert = .new (.inPlace (c.classOf source convert))
      (visibleTrees convert (c.visible.find? (·.kind == "arguments"))) := by
  obtain ⟨first, hfirst⟩ := what_creation source convert hwhat
  obtain ⟨second, hsecond⟩ := arguments_creation source convert harguments
  rw [Creation.add_anonymous first hkind] at hfirst
  rw [Creation.add_anonymous second hkind] at hsecond
  rw [creationOf]
  generalize n.visible.foldl (Creation.add source convert) {} = creation at hfirst hsecond
  simp only [hfirst, hsecond]

/-- A creation that says what it creates by a name mentions the name. -/
theorem mem_mentions_creationOf {name : Name} (hwhat : n.visible.filter (saysWhat ·.kind) = [c])
    (hkind : isNameKind c.kind = true) (hname : name? source c = some name) :
    ⟨some name, .created⟩ ∈ (n.creationOf source convert).mentions := by
  obtain ⟨before, h⟩ := what_creation source convert hwhat
  have hcreated : (n.visible.foldl (Creation.add source convert) {}).what = .named name := by
    rw [h]
    simp [Creation.add, hkind, hname]
  rw [creationOf, hcreated]
  simp [Tree.mentions]

/-- What is found in a class declared on the spot is found in the creation. -/
theorem IsAnonymousClass.gives (h : IsAnonymousClass c) (hshape : Shape.ofKind? n.kind = some .creation)
    (hkind : c.kind = "anonymous_class") (hwhat : n.visible.filter (saysWhat ·.kind) = [c])
    (harguments : n.visible.filter (givesArguments ·.kind) = [c]) : Gives source n c := by
  refine Or.inr (Or.inr fun P hP hbelow => ?_)
  obtain ⟨-, d, hd, hfound⟩ := exists_visible_of_plain (by rw [hkind]; rfl) hP hbelow
  rw [toTree_of_shape hshape, shaped, creationOf_anonymous hkind hwhat harguments]
  rcases h d hd with hplain | hbody | ⟨hdkind, hfirst⟩
  · exact absurd hfound (hplain.silent P hP)
  · have hshapeless := shapeless_of_holdsMembers (holdsMembers_of_memberList? hbody)
    obtain ⟨-, e, he, hfound⟩ := exists_visible_of_plain hshapeless hP hfound
    refine hP.part List.mem_cons_self (hP.part ?_ hfound)
    rw [Tree.parts, body_classOf c hbody]
    exact List.mem_map_of_mem he
  · obtain ⟨-, e, he, hfound⟩ := exists_visible_of_plain (by rw [hdkind]; rfl) hP hfound
    refine hP.part ?_ hfound
    rw [Tree.parts, hfirst]
    exact List.mem_cons_of_mem _ (mem_visibleTrees he)

/-- What is found in the arguments of a creation is found in the creation. -/
theorem gives_of_arguments (hshape : Shape.ofKind? n.kind = some .creation)
    (hkind : c.kind = "arguments") (harguments : n.visible.filter (givesArguments ·.kind) = [c]) :
    Gives source n c := by
  refine gives_of_visible_parts (by rw [hkind]; rfl) fun d hd => ?_
  obtain ⟨before, h⟩ := arguments_creation source (toTree source) harguments
  rw [toTree_of_shape hshape, shaped]
  apply mem_parts_creationOf
  rw [h, Creation.add_arguments before hkind]
  exact mem_visibleTrees hd

end Creations

/-! ## Every place is looked at or hidden -/

/-- What is found in a block to be run finally is found around it, if no other one follows. -/
theorem IsFinallyClause.gives (h : IsFinallyClause c)
    (hshape : Shape.ofKind? n.kind = some .tryCatch) : Gives source n c := by
  obtain ⟨hkind, hbody⟩ := h
  by_cases hlast : (n.visible.filter (·.kind == "finally_clause")).getLast? = some c
  · refine Or.inr (Or.inr fun P hP hbelow => ?_)
    obtain ⟨-, d, hd, hfound⟩ := exists_visible_of_plain (by rw [hkind]; rfl) hP hbelow
    rcases hbody d hd with hplain | hat
    · exact absurd hfound (hplain.silent P hP)
    · refine hP.part ?_ hfound
      rw [toTree_of_shape hshape, shaped, hlast, Option.map_some, Option.getD_some, Tree.parts]
      simp [bodyOf, hat]
  · exact Or.inr (Or.inl (.finallyBlock hshape ⟨hkind, hlast⟩))

/-- What is found in a child is found around it, or the child is hidden. -/
theorem HasPlace.gives {shape : Shape} (h : HasPlace n c shape) (hfits : Fits n)
    (hshape : Shape.ofKind? n.kind = some shape) (hc : c ∈ n.visible) : Gives source n c := by
  have htree : n.toTree source = n.shaped source (toTree source) shape := toTree_of_shape hshape
  -- A child that the conversion converts as it stands.
  have hpart (hmem : c.toTree source ∈ (n.shaped source (toTree source) shape).parts) :
      Gives source n c := gives_of_mem_parts (by rwa [htree])
  cases shape with
  | declaration =>
    refine gives_of_visible_parts (shapeless_of_holdsMembers (holdsMembers_of_memberList? h))
      fun d hd => ?_
    rw [htree, shaped, Tree.parts, body_classOf n h]
    exact List.mem_map_of_mem hd
  | function =>
    rcases h with hlist | hbody | hcaptured
    · refine hlist.gives fun tree htree' => ?_
      rw [htree, shaped, Tree.parts]
      exact List.mem_append_left _ htree'
    · exact hpart (by simp [shaped, bodyOf, hbody, Tree.parts])
    · exact Or.inr (Or.inl (.captured hshape hcaptured))
  | parameter =>
    rcases h with hdefault | hhooks
    · exact Or.inr (Or.inl (.parameterDefault hshape hdefault))
    · exact Or.inr (Or.inl (.parameterHooks hshape hhooks))
  | property =>
    rcases h with helement | hhooks
    · apply hpart
      rw [shaped, Tree.parts]
      exact List.mem_map_of_mem (List.mem_filter.mpr ⟨hc, by simp [helement]⟩)
    · exact Or.inr (Or.inl (.propertyHooks hshape hhooks))
  | tryCatch =>
    rcases h with hbody | hcatch | hfinally
    · exact hpart (by simp [shaped, bodyOf, hbody, Tree.parts])
    · apply hpart
      have hmem : c ∈ n.visible.filter (·.kind == "catch_clause") :=
        List.mem_filter.mpr ⟨hc, by simp [hcatch]⟩
      rw [shaped, Tree.parts]
      exact List.mem_append_left _ (List.mem_append_right _ (List.mem_map_of_mem hmem))
    · exact hfinally.gives hshape
  | catchClause | elseBranch => exact hpart (by simp [shaped, bodyOf, show _ = _ from h, Tree.parts])
  | creation =>
    obtain ⟨hwhat, harguments⟩ := hfits.creation hshape
    by_cases hanonymous : c.kind = "anonymous_class"
    · refine IsAnonymousClass.gives (h.resolve_left (absurd hanonymous)) hshape hanonymous ?_ ?_
      · exact eq_singleton_of_mem hwhat (List.mem_filter.mpr ⟨hc, by simp [saysWhat, hanonymous]⟩)
      · exact eq_singleton_of_mem harguments
          (List.mem_filter.mpr ⟨hc, by simp [givesArguments, hanonymous]⟩)
    · by_cases hkind : c.kind = "arguments"
      · exact gives_of_arguments hshape hkind (eq_singleton_of_mem harguments
          (List.mem_filter.mpr ⟨hc, by simp [givesArguments, hkind]⟩))
      · exact Or.inr (Or.inl (.designator hshape ⟨hkind, hanonymous⟩))
  | scopedCall =>
    rcases h with hfield | hlist
    · exact Or.inr (Or.inl (.scopedCall hshape hfield))
    · refine hlist.gives fun tree htree' => ?_
      rw [htree, shaped, Tree.parts]
      exact List.mem_append_right _ htree'
  | scopedAccess => exact Or.inr (Or.inl (.scopedAccess hshape))
  | binary =>
    by_cases htest : n.isTypeTest source
    · refine Or.inr (Or.inl (.typeTest htest ?_))
      exact h.imp field_of_childAt? field_of_childAt?
    · have hoperator : ¬ Text.lower (((n.childAt? "operator").map (text source)).getD []) =
          "instanceof".toList := fun htext => htest ⟨hshape, htext⟩
      apply hpart
      rw [shaped, if_neg hoperator]
      rcases h with hat | hat <;> simp [hat, Tree.parts]
  | assignment => exact hpart (by rcases h with hat | hat <;> simp [shaped, hat, Tree.parts])
  | conditional =>
    exact hpart (by rcases h with hat | hat | hat <;> simp [shaped, hat, Tree.parts])
  | ifThen =>
    rcases h with hat | hat | hfield
    · exact hpart (by simp [shaped, hat, Tree.parts])
    · exact hpart (by simp [shaped, bodyOf, hat, Tree.parts])
    · apply hpart
      have hcomment : c.kind ≠ "comment" := by
        have hvisible := List.of_mem_filter hc
        simp only [isVisible, Bool.and_eq_true, bne_iff_ne] at hvisible
        exact hvisible.2
      have hmem : c ∈ (n.childrenAt "alternative").filter (·.kind != "comment") := by
        simp [childrenAt, mem_children_of_mem_visible hc, hfield, hcomment]
      rw [shaped, Tree.parts]
      exact List.mem_append_right _ (List.mem_map_of_mem hmem)
  | throwing | returning | statement => exact hpart (by simp [shaped, show _ = _ from h, Tree.parts])
  | printing => exact hpart (List.mem_map_of_mem hc)
  | prefixed => exact hpart (by simp [shaped, show _ = _ from h, Tree.parts])
  | element =>
    by_cases hlast : n.visible.getLast? = some c
    · exact hpart (by simp [shaped, hlast, Tree.parts])
    · exact Or.inr (Or.inl (.key hshape hlast))
  | call =>
    rcases h with hat | hlist
    · exact hpart (by simp [shaped, hat, Tree.parts])
    · refine hlist.gives fun tree htree' => ?_
      rw [htree, shaped, Tree.parts]
      exact List.mem_append_right _ htree'
  | memberCall =>
    rcases h with hat | hname | hlist
    · refine Or.inr (Or.inr fun P hP hbelow => ?_)
      have hlookup : P (.propertyLookup (some (c.toTree source))) :=
        hP.part (by simp [Tree.parts]) hbelow
      refine hP.part ?_ hlookup
      simp [htree, shaped, hat, Tree.parts]
    · exact Or.inr (Or.inl (.methodName hshape hname))
    · refine hlist.gives fun tree htree' => ?_
      rw [htree, shaped, Tree.parts]
      exact List.mem_append_right _ htree'
  | memberAccess =>
    rcases h with hat | hname
    · exact hpart (by simp [shaped, hat, Tree.parts])
    · exact Or.inr (Or.inl (.memberName hshape hname))

theorem Fits.gives (h : Fits n) (hc : c ∈ n.visible) : Gives source n c := by
  cases hshape : Shape.ofKind? n.kind with
  | some shape =>
    rcases h.places shape hshape c hc with hplain | hplace
    · exact hplain.gives
    · exact hplace.gives h hshape hc
  | none =>
    cases hopen : isOpaqueKind n.kind with
    | true => exact Or.inl hopen
    | false =>
      apply gives_of_mem_parts
      have hvisible : n.visible.isEmpty = false :=
        List.isEmpty_eq_false_iff_exists_mem.mpr ⟨c, hc⟩
      simp only [toTree_of_plain hshape, plain, hopen, hvisible, Bool.or_self, Bool.false_eq_true,
        if_false, Tree.parts]
      exact List.mem_map_of_mem hc

/-- The type operand of a node is mentioned by the node. -/
theorem Fits.reports (h : Fits n) {operand : Concrete μ} {context : Context} {name : Name}
    (hoperand : n.typeOperand? source = some (operand, context))
    (hname : operand.name? source = some name) :
    ⟨some name, context⟩ ∈ (n.toTree source).mentions := by
  by_cases hshape : Shape.ofKind? n.kind = some .creation
  · rw [typeOperand?, hshape] at hoperand
    obtain ⟨first, hfirst, heq⟩ := Option.map_eq_some_iff.mp hoperand
    cases heq
    have hkind : isNameKind operand.kind = true := by
      rw [name?] at hname
      split at hname
      · assumption
      · cases hname
    have hwhat : n.visible.filter (saysWhat ·.kind) = [operand] :=
      eq_singleton_of_mem (h.creation hshape).1
        (List.mem_filter.mpr ⟨List.mem_of_head? hfirst, by simp [saysWhat, hkind]⟩)
    rw [toTree_of_shape hshape, shaped]
    exact mem_mentions_creationOf hwhat hkind hname
  · exact mem_mentions_of_typeOperand? hshape hoperand hname

/-- A tree that follows the grammar is sound. -/
theorem FollowsGrammar.sound (h : FollowsGrammar n) : Sound source n := by
  induction h with
  | intro n fits _ ih =>
    exact ⟨n, ih, fun _ hc => fits.gives hc, fits.token, fun _ _ _ => fits.reports⟩

end Namespacer.Concrete
