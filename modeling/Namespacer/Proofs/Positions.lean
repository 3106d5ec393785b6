import Namespacer.Proofs.Conversion
import Namespacer.Proofs.TreeSearch

/-!
# Positions that are looked at

A concrete tree says where a type may be named: in the creation of an object,
in the look-up of a member of a type, in a type test. The conversion looks into
most children of a node and passes over some. `Hidden` lists the positions that
it passes over, and `Reaches` walks down a tree without entering one of them.

A tree is `Sound` if below each of its nodes everything is either looked at or
hidden. This is a matter of which children a node of each kind has, so it is up
to the grammar of the trees.

* `Sound.mem_mentions`: in a sound tree, the type operand of every node that is
  reached is mentioned.
-/

namespace Namespacer

/-- Kinds of nodes with members between braces. -/
def isMemberListKind : String → Bool
  | "declaration_list" | "enum_declaration_list" | "property_hook_list" => true
  | _ => false

namespace Tree

/-- A property that a tree takes over from its parts. A tree without a shape of its own has it
from nowhere else. -/
structure Rises (P : Tree → Prop) : Prop where
  part {tree part : Tree} (h : part ∈ tree.parts) (hpart : P part) : P tree
  leaf (label : String) : ¬ P (.leaf label)
  block {label : String} {children : List Tree} (h : P (.block label children)) :
    ∃ child ∈ children, P child

/-- Nothing is found below a tree. -/
def Silent (tree : Tree) : Prop := ∀ P, Rises P → ¬ P tree

theorem rises_mem_mentions (mention : Mention) : Rises fun tree => mention ∈ tree.mentions where
  part := fun {tree part} h hpart => by
    rw [mentions_eq tree]
    exact List.mem_append_right _ (mem_mentionsAll.mpr ⟨part, h, hpart⟩)
  leaf := fun label => by simp [mentions]
  block := fun h => by simpa [mentions, mem_mentionsAll] using h

end Tree

namespace Concrete

variable {μ : Type}

/-- Whether a node is a type test. -/
def isTypeTest (source : Text) (n : Concrete μ) : Prop :=
  Shape.ofKind? n.kind = some .binary ∧
    Text.lower (((n.childAt? "operator").map (text source)).getD []) = "instanceof".toList

instance (source : Text) (n : Concrete μ) : Decidable (n.isTypeTest source) :=
  inferInstanceAs (Decidable (_ ∧ _))

/-- The operand of a node that is written where a type may be named, and the
context in which it would be reported. -/
def typeOperand? (source : Text) (n : Concrete μ) : Option (Concrete μ × Context) :=
  match Shape.ofKind? n.kind with
  | some .creation => n.visible.head?.map (·, .created)
  | some .scopedCall => (n.childAt? "scope").map (·, .staticLookup)
  | some .scopedAccess => (n.childAt? "scope" <|> n.visible.head?).map (·, .staticLookup)
  | some .binary => if n.isTypeTest source then (n.childAt? "right").map (·, .instanceOf) else none
  | _ => none

/-- The children of a node that the conversion passes over. -/
inductive Hidden (source : Text) (n c : Concrete μ) : Prop where
  /-- The default value of a parameter. -/
  | parameterDefault (hn : Shape.ofKind? n.kind = some .parameter)
      (hc : c.field = some "default_value")
  /-- The hooks of a parameter. -/
  | parameterHooks (hn : Shape.ofKind? n.kind = some .parameter) (hc : isMemberListKind c.kind)
  /-- The hooks of a property. -/
  | propertyHooks (hn : Shape.ofKind? n.kind = some .property) (hc : isMemberListKind c.kind)
  /-- The variables that a closure takes with it. -/
  | captured (hn : Shape.ofKind? n.kind = some .function)
      (hc : c.kind = "anonymous_function_use_clause")
  /-- The key of an array element. -/
  | key (hn : Shape.ofKind? n.kind = some .element) (hc : n.visible.getLast? ≠ some c)
  /-- What the member of a type is called on, and the name of the member. -/
  | scopedCall (hn : Shape.ofKind? n.kind = some .scopedCall) (hc : c.field ≠ some "arguments")
  /-- What the member of a type is read from, and the name of the member. -/
  | scopedAccess (hn : Shape.ofKind? n.kind = some .scopedAccess)
  /-- The name of a method that is called. -/
  | methodName (hn : Shape.ofKind? n.kind = some .memberCall) (hc : c.field = some "name")
  /-- The name of a member that is read. -/
  | memberName (hn : Shape.ofKind? n.kind = some .memberAccess) (hc : c.field = some "name")
  /-- The class of an object being created, unless it is declared on the spot. -/
  | designator (hn : Shape.ofKind? n.kind = some .creation)
      (hc : c.kind ≠ "arguments" ∧ c.kind ≠ "anonymous_class")
  /-- The operands of a type test. -/
  | typeTest (hn : n.isTypeTest source) (hc : c.field = some "left" ∨ c.field = some "right")
  /-- A block to be run finally, if another one follows. -/
  | finallyBlock (hn : Shape.ofKind? n.kind = some .tryCatch)
      (hc : c.kind = "finally_clause" ∧
        (n.visible.filter (·.kind == "finally_clause")).getLast? ≠ some c)

/-- The subject of a type test. -/
def IsSubject (source : Text) (n c : Concrete μ) : Prop :=
  n.isTypeTest source ∧ c.field = some "left"

/-- Going down from a node to one below it, never into a node whose content is
never looked at nor to a child that is to be avoided. -/
inductive Reaches (avoided : Concrete μ → Concrete μ → Prop) : Concrete μ → Concrete μ → Prop where
  | self (n : Concrete μ) : Reaches avoided n n
  | child {n c m : Concrete μ} (hopen : isOpaqueKind n.kind = false) (hc : c ∈ n.children)
      (havoided : ¬ avoided n c) (h : Reaches avoided c m) : Reaches avoided n m

/-- What is found below a child is found below its parent, unless the conversion passes over the
child. -/
def Gives (source : Text) (n c : Concrete μ) : Prop :=
  isOpaqueKind n.kind = true ∨ Hidden source n c ∨
    ∀ P, Tree.Rises P → P (c.toTree source) → P (n.toTree source)

/-- A tree in which every node gives what is found below its children. -/
inductive Sound (source : Text) : Concrete μ → Prop where
  | intro (n : Concrete μ)
      (children : ∀ c ∈ n.children, Sound source c)
      (gives : ∀ c ∈ n.visible, Gives source n c)
      (named : n.named = false → n.children = [])
      (reports : ∀ operand context name, n.typeOperand? source = some (operand, context) →
        operand.name? source = some name → ⟨some name, context⟩ ∈ (n.toTree source).mentions) :
      Sound source n

/-! ## Going down a sound tree -/

/-- The shapes of nodes that have hidden children. -/
def hidingShapes : List Shape :=
  [.parameter, .property, .function, .element, .scopedCall, .scopedAccess, .memberCall,
    .memberAccess, .creation, .binary, .tryCatch]

/-- A node of any other shape hides nothing. -/
theorem Hidden.shape {source : Text} {n c : Concrete μ} (h : Hidden source n c) :
    ∃ shape ∈ hidingShapes, Shape.ofKind? n.kind = some shape := by
  cases h with
  | typeTest hn => exact ⟨.binary, by decide, hn.1⟩
  | parameterDefault hn | parameterHooks hn | propertyHooks hn | captured hn | key hn
  | scopedCall hn | scopedAccess hn | methodName hn | memberName hn | designator hn
  | finallyBlock hn => exact ⟨_, by decide, hn⟩

/-- Which children are hidden depends on the kind and the children of a node alone. -/
theorem Hidden.congr {source : Text} {n m c : Concrete μ} (h : Hidden source n c)
    (hkind : n.kind = m.kind) (hchildren : n.children = m.children) : Hidden source m c := by
  have hvisible : n.visible = m.visible := by rw [visible, visible, hchildren]
  have htest : n.isTypeTest source → m.isTypeTest source := by
    rw [isTypeTest, isTypeTest, hkind, childAt?, childAt?, hchildren]
    exact id
  cases h with
  | parameterDefault hn hc => exact .parameterDefault (hkind ▸ hn) hc
  | parameterHooks hn hc => exact .parameterHooks (hkind ▸ hn) hc
  | propertyHooks hn hc => exact .propertyHooks (hkind ▸ hn) hc
  | captured hn hc => exact .captured (hkind ▸ hn) hc
  | key hn hc => exact .key (hkind ▸ hn) (hvisible ▸ hc)
  | scopedCall hn hc => exact .scopedCall (hkind ▸ hn) hc
  | scopedAccess hn => exact .scopedAccess (hkind ▸ hn)
  | methodName hn hc => exact .methodName (hkind ▸ hn) hc
  | memberName hn hc => exact .memberName (hkind ▸ hn) hc
  | designator hn hc => exact .designator (hkind ▸ hn) hc
  | typeTest hn hc => exact .typeTest (htest hn) hc
  | finallyBlock hn hc => exact .finallyBlock (hkind ▸ hn) (hvisible ▸ hc)

/-- The node at the end of a path of child numbers, if the path leads through
nodes that are looked into and allowed. -/
def follow? (allowed : Concrete μ → Bool) : (path : List Nat) → Concrete μ → Option (Concrete μ)
  | [], n => some n
  | index :: path, n =>
    if allowed n && !isOpaqueKind n.kind then n.children[index]?.bind (follow? allowed path) else none

theorem reaches_of_follow? {avoided : Concrete μ → Concrete μ → Prop} {allowed : Concrete μ → Bool}
    (hallowed : ∀ n c, allowed n = true → ¬ avoided n c) {path : List Nat} {n m : Concrete μ}
    (h : follow? allowed path n = some m) : Reaches avoided n m := by
  induction path generalizing n with
  | nil =>
    cases h
    exact .self _
  | cons index path ih =>
    rw [follow?] at h
    split at h
    · rename_i hn
      rw [Bool.and_eq_true, Bool.not_eq_true'] at hn
      obtain ⟨c, hc, hm⟩ := Option.bind_eq_some_iff.mp h
      exact .child hn.2 (List.mem_of_getElem? hc) (hallowed n c hn.1) (ih hm)
    · cases h

/-- Whether a node hides none of its children. -/
def hidesNothing (n : Concrete μ) : Bool := hidingShapes.all (Shape.ofKind? n.kind != some ·)

theorem not_hidden_of_hidesNothing {source : Text} (n c : Concrete μ) (h : n.hidesNothing = true) :
    ¬ Hidden source n c := by
  intro hhidden
  obtain ⟨shape, hshape, hkind⟩ := hhidden.shape
  simpa [hkind] using List.all_eq_true.mp h shape hshape

/-- Whether a node is no type test. -/
def testsNoType (source : Text) (n : Concrete μ) : Bool := !decide (n.isTypeTest source)

theorem not_isSubject_of_testsNoType {source : Text} (n c : Concrete μ)
    (h : n.testsNoType source = true) : ¬ IsSubject source n c := by
  intro hsubject
  simp [testsNoType, hsubject.1] at h

theorem typeOperand?_of_childless {source : Text} {n : Concrete μ} (h : n.children = []) :
    n.typeOperand? source = none := by
  have hvisible : n.visible = [] := by rw [visible, h, List.filter_nil]
  have hat (field : String) : n.childAt? field = none := by rw [childAt?, h, List.find?_nil]
  rw [typeOperand?]
  split <;> simp [hvisible, hat]

theorem Reaches.eq_of_childless {avoided : Concrete μ → Concrete μ → Prop} {n m : Concrete μ}
    (h : Reaches avoided n m) (hn : n.children = []) : m = n := by
  cases h with
  | self => rfl
  | child _ hc => simp [hn] at hc

theorem Reaches.eq_of_isOpaqueKind {avoided : Concrete μ → Concrete μ → Prop} {n m : Concrete μ}
    (h : Reaches avoided n m) (hn : isOpaqueKind n.kind = true) : m = n := by
  cases h with
  | self => rfl
  | child hopen => simp [hn] at hopen

/-- In a sound tree, the type operand of every node that is reached is mentioned. -/
theorem Sound.mem_mentions {source : Text} {n m operand : Concrete μ} {context : Context}
    {name : Name} (hn : Sound source n) (hm : Reaches (Hidden source) n m)
    (hoperand : m.typeOperand? source = some (operand, context))
    (hname : operand.name? source = some name) :
    ⟨some name, context⟩ ∈ (n.toTree source).mentions := by
  induction hm with
  | self n =>
    obtain ⟨_, _, _, _, hreports⟩ := hn
    exact hreports operand context name hoperand hname
  | @child n c m hopen hc havoided hreach ih =>
    obtain ⟨_, hchildren, hgives, _, _⟩ := hn
    have hchild := hchildren c hc
    cases hvisible : c.isVisible with
    | true =>
      rcases hgives c (List.mem_filter.mpr ⟨hc, hvisible⟩) with h | h | h
      · simp [hopen] at h
      · exact absurd h havoided
      · exact h _ (Tree.rises_mem_mentions _) (ih hchild hoperand)
    | false =>
      -- An invisible node holds nothing, so the node that is reached is this one.
      have hself : m = c ∧ c.typeOperand? source = none := by
        rcases Bool.and_eq_false_iff.mp hvisible with hnamed | hcomment
        · obtain ⟨_, _, _, hleaf, _⟩ := hchild
          have hchildless := hleaf hnamed
          exact ⟨hreach.eq_of_childless hchildless, typeOperand?_of_childless hchildless⟩
        · have hkind : c.kind = "comment" := by simpa using hcomment
          have hshape : Shape.ofKind? c.kind = none := by rw [hkind]; rfl
          refine ⟨hreach.eq_of_isOpaqueKind (by rw [hkind]; rfl), ?_⟩
          rw [typeOperand?, hshape]
      rw [hself.1, hself.2] at hoperand
      cases hoperand

/-! ## What a node gives -/

section Gives

variable {source : Text} {n c : Concrete μ}

theorem toTree_of_shape {shape : Shape} (h : Shape.ofKind? n.kind = some shape) :
    n.toTree source = n.shaped source (toTree source) shape := by
  rw [toTree_eq, build, h]

theorem toTree_of_plain (h : Shape.ofKind? n.kind = none) :
    n.toTree source = n.plain (toTree source) := by
  rw [toTree_eq, build, h]

theorem gives_of_silent (h : (c.toTree source).Silent) : Gives source n c :=
  Or.inr (Or.inr fun P hP hc => absurd hc (h P hP))

theorem gives_of_mem_parts (h : c.toTree source ∈ (n.toTree source).parts) : Gives source n c :=
  Or.inr (Or.inr fun _ hP hc => hP.part h hc)

/-- Below a node without a way of its own is nothing but what is below its visible children, if
its content is looked at. -/
theorem exists_visible_of_plain (h : Shape.ofKind? n.kind = none) {P : Tree → Prop}
    (hP : Tree.Rises P) (hn : P (n.toTree source)) :
    isOpaqueKind n.kind = false ∧ ∃ c ∈ n.visible, P (c.toTree source) := by
  rw [toTree_of_plain h, plain] at hn
  split at hn
  · exact absurd hn (hP.leaf _)
  · rename_i hopen
    simp only [Bool.or_eq_true, not_or, Bool.not_eq_true] at hopen
    obtain ⟨tree, htree, hn⟩ := hP.block hn
    obtain ⟨c, hc, rfl⟩ := List.mem_map.mp htree
    exact ⟨hopen.1, c, hc, hn⟩

/-- A child without a way of its own is looked at through its visible children. -/
theorem gives_of_visible_parts (h : Shape.ofKind? c.kind = none)
    (hparts : ∀ d ∈ c.visible, d.toTree source ∈ (n.toTree source).parts) : Gives source n c := by
  refine Or.inr (Or.inr fun P hP hc => ?_)
  obtain ⟨-, d, hd, hc⟩ := exists_visible_of_plain h hP hc
  exact hP.part (hparts d hd) hc

theorem mem_visibleTrees {d : Concrete μ} (hd : d ∈ c.visible) :
    d.toTree source ∈ visibleTrees (toTree source) (some c) := by
  simp only [visibleTrees, Option.map_some, Option.getD_some]
  exact List.mem_map_of_mem hd

/-- The type operand of a node is mentioned where nothing but the shape decides it. -/
theorem mem_mentions_of_typeOperand? (hn : Shape.ofKind? n.kind ≠ some .creation)
    {operand : Concrete μ} {context : Context} {name : Name}
    (hoperand : n.typeOperand? source = some (operand, context))
    (hname : operand.name? source = some name) :
    ⟨some name, context⟩ ∈ (n.toTree source).mentions := by
  rw [typeOperand?] at hoperand
  split at hoperand
  · contradiction
  · rename_i hshape
    obtain ⟨_, hscope, heq⟩ := Option.map_eq_some_iff.mp hoperand
    cases heq
    rw [toTree_of_shape hshape, shaped, hscope, Option.bind_some, hname]
    simp [Tree.mentions, Tree.mentions?]
  · rename_i hshape
    obtain ⟨_, hscope, heq⟩ := Option.map_eq_some_iff.mp hoperand
    cases heq
    rw [toTree_of_shape hshape, shaped, hscope, Option.bind_some, hname]
    simp [Tree.mentions]
  · rename_i hshape
    split at hoperand
    · rename_i htest
      obtain ⟨_, hright, heq⟩ := Option.map_eq_some_iff.mp hoperand
      cases heq
      rw [toTree_of_shape hshape, shaped]
      simp [htest.2, hright, hname, Tree.mentions]
    · cases hoperand
  · cases hoperand

end Gives

end Concrete

end Namespacer
