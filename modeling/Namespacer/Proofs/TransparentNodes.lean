import Namespacer.Proofs.StackConversion

/-!
# Comments and punctuation are transparent

Comments may stand between any two tokens, and the punctuation of a construct is among its
children. Neither is visible, and a syntax tree is made of visible children and of children with
a field name only. So a tree without its comments and punctuation, apart from those that have a
field name, is converted to the same syntax tree.

* `pruned`: the tree without its transparent nodes.
* `keepsView_pruned`: a reader sees the same of both trees.
* `convert_pruned`: both have the same syntax tree.
-/

namespace Namespacer.Concrete

variable {μ : Type}

/-- Whether a node is a comment or anonymous and has no field name. -/
def isTransparent (n : Concrete μ) : Bool :=
  n.field.isNone && (n.kind == "comment" || !n.named)

mutual

/-- The tree without the transparent nodes below its root, and all that is below them. -/
def pruned : Concrete μ → Concrete μ
  | node mark kind named field start stop children =>
    node mark kind named field start stop (prunedAll children)

/-- Those of some trees that are not transparent, each without the transparent nodes below it. -/
def prunedAll : List (Concrete μ) → List (Concrete μ)
  | [] => []
  | n :: rest => if n.isTransparent then prunedAll rest else pruned n :: prunedAll rest

end

theorem prunedAll_eq (trees : List (Concrete μ)) :
    prunedAll trees = (trees.filter (!·.isTransparent)).map pruned := by
  induction trees with
  | nil => rfl
  | cons n trees ih =>
    rw [prunedAll, ih]
    cases htransparent : n.isTransparent <;> simp [htransparent]

theorem children_pruned (n : Concrete μ) :
    n.pruned.children = (n.children.filter (!·.isTransparent)).map pruned := by
  cases n
  rw [pruned]
  exact prunedAll_eq _

@[simp] theorem mark_pruned (n : Concrete μ) : n.pruned.mark = n.mark := by
  cases n
  rfl

@[simp] theorem kind_pruned (n : Concrete μ) : n.pruned.kind = n.kind := by
  cases n
  rfl

@[simp] theorem named_pruned (n : Concrete μ) : n.pruned.named = n.named := by
  cases n
  rfl

@[simp] theorem field_pruned (n : Concrete μ) : n.pruned.field = n.field := by
  cases n
  rfl

@[simp] theorem isTransparent_pruned (n : Concrete μ) :
    n.pruned.isTransparent = n.isTransparent := by
  simp [isTransparent]

/-- A visible node is not transparent. -/
theorem isTransparent_of_isVisible {n : Concrete μ} (h : n.isVisible = true) :
    n.isTransparent = false := by
  obtain ⟨hnamed, hkind⟩ := Bool.and_eq_true_iff.mp h
  rw [bne_iff_ne] at hkind
  simp [isTransparent, hnamed, hkind]

/-- A node with a field name is not transparent. -/
theorem isTransparent_of_field {n : Concrete μ} {field : String} (h : n.field = some field) :
    n.isTransparent = false := by
  simp [isTransparent, h]

/-- What a predicate picks from the children of a node stays, if it picks no transparent node. -/
theorem filter_children_pruned {p : Concrete μ → Bool} (n : Concrete μ)
    (hpruned : ∀ c, p c.pruned = p c) (h : ∀ c, p c = true → c.isTransparent = false) :
    n.pruned.children.filter p = (n.children.filter p).map pruned := by
  have hpicked : ∀ c ∈ n.children, (p c.pruned && !c.isTransparent) = p c := by
    intro c _
    rw [hpruned]
    cases hc : p c with
    | false => rfl
    | true => simp [h c hc]
  rw [children_pruned, List.filter_map, List.filter_filter]
  exact congrArg _ (List.filter_congr hpicked)

/-- A reader sees the same of a tree and of the tree without its transparent nodes. -/
theorem keepsView_pruned : KeepsView (pruned (μ := μ)) where
  kind := kind_pruned
  start n := by cases n; rfl
  stop n := by cases n; rfl
  visible n := filter_children_pruned n (fun c => by simp [isVisible])
    fun _ => isTransparent_of_isVisible
  childAt? n field := by
    rw [childAt?, childAt?, ← List.head?_filter, ← List.head?_filter, ← List.head?_map]
    exact congrArg _ (filter_children_pruned n (fun c => by simp)
      fun c hc => isTransparent_of_field (beq_iff_eq.mp hc))
  childrenAt n field := filter_children_pruned n (fun c => by simp)
    fun c hc => isTransparent_of_field (beq_iff_eq.mp hc)

theorem sublist_nodesAll_prunedAll {trees : List (Concrete μ)}
    (h : ∀ c ∈ trees, (c.pruned.nodes.map mark).Sublist (c.nodes.map mark)) :
    ((nodesAll (prunedAll trees)).map mark).Sublist ((nodesAll trees).map mark) := by
  induction trees with
  | nil => exact List.Sublist.slnil
  | cons c trees ih =>
    obtain ⟨hc, hrest⟩ := List.forall_mem_cons.mp h
    rw [prunedAll, nodesAll, List.map_append]
    split
    · exact (ih hrest).trans (List.sublist_append_right _ _)
    · rw [nodesAll, List.map_append]
      exact hc.append (ih hrest)

/-- The nodes that are left keep their marks and their order. -/
theorem sublist_nodes_pruned (n : Concrete μ) :
    (n.pruned.nodes.map mark).Sublist (n.nodes.map mark) := by
  induction n using induction_children with
  | step n ih =>
    rw [nodes_eq, nodes_eq n, List.map_cons, List.map_cons, mark_pruned, descendants, descendants,
      children_pruned, ← prunedAll_eq]
    exact (sublist_nodesAll_prunedAll ih).cons_cons _

/-- No transparent node is left below the root. -/
theorem isTransparent_of_mem_pruned (n : Concrete μ) :
    ∀ m ∈ n.pruned.descendants, m.isTransparent = false := by
  induction n using induction_children with
  | step n ih =>
    intro m hm
    rw [descendants, children_pruned] at hm
    obtain ⟨c, hc, hmc⟩ := mem_nodesAll.mp hm
    obtain ⟨d, hd, rfl⟩ := List.mem_map.mp hc
    obtain ⟨hchild, hkept⟩ := List.mem_filter.mp hd
    rw [nodes_eq] at hmc
    rcases List.mem_cons.mp hmc with rfl | hbelow
    · simpa using hkept
    · exact ih d hchild m hbelow

/-- Without its comments and anonymous nodes that have no field name, a tree is converted to the
same syntax tree. -/
theorem convert_pruned (source : Text) (root : Concrete Nat)
    (hmarks : (root.nodes.map mark).Nodup) :
    convert source root.pruned = convert source root ∧
      ∀ m ∈ root.pruned.descendants, m.isTransparent = false := by
  refine ⟨?_, isTransparent_of_mem_pruned root⟩
  have hpruned : (root.pruned.nodes.map mark).Nodup := hmarks.sublist (sublist_nodes_pruned root)
  rw [convert_eq_toTree source hpruned, convert_eq_toTree source hmarks]
  exact keepsView_pruned.toTree source root

/-- The tree of `return /*A*/ new A;` with its comment and punctuation. -/
def commentedNode : Concrete Nat :=
  .node 0 "return_statement" true none 0 19
    [.node 1 "return" false none 0 6 [], .node 2 "comment" true none 7 12 [],
      .node 3 "object_creation_expression" true none 13 18
        [.node 4 "new" false none 13 16 [], .node 5 "name" true none 17 18 []],
      .node 6 ";" false none 18 19 []]

/-- The same tree with neither. -/
def uncommentedNode : Concrete Nat :=
  .node 0 "return_statement" true none 0 19
    [.node 3 "object_creation_expression" true none 13 18
      [.node 5 "name" true none 17 18 []]]

theorem convert_pruned_commented :
    (commentedNode.nodes.map mark).Nodup ∧
      convert "return /*A*/ new A;".toList uncommentedNode =
        convert "return /*A*/ new A;".toList commentedNode :=
  ⟨by decide, (convert_pruned "return /*A*/ new A;".toList commentedNode (by decide)).1⟩

end Namespacer.Concrete
