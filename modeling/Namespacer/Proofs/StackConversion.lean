import Mathlib.Algebra.GroupWithZero.Nat
import Namespacer.Proofs.Conversion

/-!
# The conversion with a stack

The stack visits the children of a node before the node, the last child first, and keeps the
finished trees in a table under the marks of their nodes. Nodes whose content is never looked at
are finished without their children, so a node may ask for a tree that is not in the table; then
this tree is made on the spot, with all that it asks for in turn.

* `adds_ensure`: the tree of a node is in the table once it was asked for.
* `IsConversion`: the invariant of the visits. The table holds no tree but the right ones, and
  everything below a node that waits for its children is finished or still to come.
* `convert_eq_toTree`: the conversion with a stack gives the tree of the recursion.
* `visitAll_root`: the stack is emptied, and if what stands in the fields for parameters and
  arguments is looked into, no tree is ever made on the spot.
-/

namespace Namespacer.Concrete

variable {μ : Type}

/-! ## Finished trees -/

/-- A table holds no tree for a node of a tree but its own. -/
def IsTableOf (source : Text) (root : Concrete Nat) (finished : Finished) : Prop :=
  ∀ m ∈ root.nodes, ∀ tree, finished[m.mark]? = some tree → tree = m.toTree source

/-- A table goes on to another one that has the tree of a node too. -/
structure Adds (source : Text) (root : Concrete Nat) (finished next : Finished)
    (n : Concrete Nat) : Prop where
  table : IsTableOf source root next
  grows : ∀ mark ∈ finished, mark ∈ next
  holds : n.mark ∈ next

section Table

variable {source : Text} {root : Concrete Nat} {finished : Finished} {n : Concrete Nat}
  {ensure : Finished → Concrete Nat → Finished}

theorem finishedTree_eq (h : IsTableOf source root finished) (hn : n ∈ root.nodes)
    (hmark : n.mark ∈ finished) : finishedTree finished n = n.toTree source := by
  obtain ⟨tree, htree⟩ := Option.isSome_iff_exists.mp
    (Std.TreeMap.isSome_getElem?_iff_mem.mpr hmark)
  rw [finishedTree, htree, Option.getD_some]
  exact h n hn tree htree

theorem isTableOf_insert (hmarks : (root.nodes.map mark).Nodup)
    (h : IsTableOf source root finished) (hn : n ∈ root.nodes) :
    IsTableOf source root (finished.insert n.mark (n.toTree source)) := by
  intro m hm tree htree
  rw [Std.TreeMap.getElem?_insert] at htree
  split at htree
  · rename_i heq
    have hmark : n.mark = m.mark := Std.LawfulEqOrd.eq_of_compare heq
    cases htree
    rw [List.inj_on_of_nodup_map hmarks hn hm hmark]
  · exact h m hm tree htree

/-- Seeing to some nodes, one after another. -/
theorem adds_foldl (nodes : List (Concrete Nat))
    (hensure : ∀ c ∈ nodes, ∀ finished, IsTableOf source root finished →
      Adds source root finished (ensure finished c) c) (h : IsTableOf source root finished) :
    IsTableOf source root (nodes.foldl ensure finished) ∧
      (∀ mark ∈ finished, mark ∈ nodes.foldl ensure finished) ∧
        ∀ c ∈ nodes, c.mark ∈ nodes.foldl ensure finished := by
  induction nodes generalizing finished with
  | nil => exact ⟨h, fun _ hmark => hmark, List.forall_mem_nil _⟩
  | cons c nodes ih =>
    have hadds := hensure c List.mem_cons_self finished h
    obtain ⟨htable, hgrows, hholds⟩ :=
      ih (fun d hd => hensure d (List.mem_cons_of_mem c hd)) hadds.table
    refine ⟨htable, fun mark hmark => hgrows mark (hadds.grows mark hmark), ?_⟩
    exact List.forall_mem_cons.mpr ⟨hgrows c.mark hadds.holds, hholds⟩

/-- A node is built from the right trees, if the nodes that it asks for are seen to. -/
theorem adds_addTree (hmarks : (root.nodes.map mark).Nodup) (hn : n ∈ root.nodes)
    (hensure : ∀ c ∈ n.requested source, ∀ finished, IsTableOf source root finished →
      Adds source root finished (ensure finished c) c) (h : IsTableOf source root finished) :
    Adds source root finished (addTree source ensure finished n) n := by
  obtain ⟨htable, hgrows, hholds⟩ := adds_foldl (n.requested source) hensure h
  have hbuild : n.build source (finishedTree ((n.requested source).foldl ensure finished)) =
      n.toTree source := by
    rw [toTree_eq]
    apply build_congr_requested
    intro c hc
    have hbelow := mem_nodes_of_mem_descendants (mem_descendants_of_mem_requested hc)
    exact finishedTree_eq htable (mem_nodes_trans hbelow hn) (hholds c hc)
  rw [addTree, hbuild]
  refine ⟨isTableOf_insert hmarks htable hn, fun mark hmark => ?_, ?_⟩
  · exact Std.TreeMap.mem_insert.mpr (.inr (hgrows mark hmark))
  · exact Std.TreeMap.mem_insert_self

theorem size_lt_of_mem_descendants {c n : Concrete μ} (h : c ∈ n.descendants) :
    c.size < n.size := by
  induction n using induction_children with
  | step n ih =>
    obtain ⟨d, hd, hcd⟩ := mem_nodesAll.mp h
    have hlt := size_lt_of_mem_children hd
    rw [nodes_eq] at hcd
    rcases List.mem_cons.mp hcd with rfl | hbelow
    · exact hlt
    · have := ih d hd hbelow
      omega

theorem adds_of_contains (h : IsTableOf source root finished) (hmark : n.mark ∈ finished) :
    Adds source root finished finished n :=
  ⟨h, fun _ hmark => hmark, hmark⟩

theorem adds_ensureWithin (hmarks : (root.nodes.map mark).Nodup) {depth : Nat}
    (hdepth : n.size ≤ depth) (hn : n ∈ root.nodes) (h : IsTableOf source root finished) :
    Adds source root finished (ensureWithin source depth finished n) n := by
  induction depth generalizing finished n with
  | zero =>
    have := size_eq n
    omega
  | succ depth ih =>
    rw [ensureWithin]
    split
    · exact adds_of_contains h (Std.TreeMap.mem_iff_contains.mpr ‹_›)
    · refine adds_addTree hmarks hn (fun c hc finished htable => ?_) h
      have hbelow := mem_descendants_of_mem_requested hc
      have hsize := size_lt_of_mem_descendants hbelow
      exact ih (by omega) (mem_nodes_trans (mem_nodes_of_mem_descendants hbelow) hn) htable

/-- The tree of a node is in the table once it was asked for. -/
theorem adds_ensure (hmarks : (root.nodes.map mark).Nodup) (hn : n ∈ root.nodes)
    (h : IsTableOf source root finished) :
    Adds source root finished (Concrete.ensure source finished n) n := by
  rw [Concrete.ensure]
  split
  · exact adds_of_contains h (Std.TreeMap.mem_iff_contains.mpr ‹_›)
  · exact adds_ensureWithin hmarks (Nat.le_refl _) hn h

/-- A finished tree is not made again. -/
theorem foldl_ensure_of_mem {nodes : List (Concrete Nat)} (h : ∀ c ∈ nodes, c.mark ∈ finished) :
    nodes.foldl (Concrete.ensure source) finished = finished := by
  induction nodes with
  | nil => rfl
  | cons c nodes ih =>
    obtain ⟨hc, hrest⟩ := List.forall_mem_cons.mp h
    rw [List.foldl_cons, Concrete.ensure, if_pos (Std.TreeMap.mem_iff_contains.mp hc)]
    exact ih hrest

end Table

/-! ## Visits -/

/-- A visit of a node comes to another one: the node itself, or one that a visit of a child
comes to. There is nothing below a node whose content is never looked at. -/
inductive Visits : Concrete μ → Concrete μ → Prop where
  | self (n : Concrete μ) : Visits n n
  | inside {n c d : Concrete μ} (hopen : isOpaqueKind n.kind = false) (hc : c ∈ n.children)
      (h : Visits c d) : Visits n d

theorem Visits.child {n d c : Concrete μ} (h : Visits n d) (hopen : isOpaqueKind d.kind = false)
    (hc : c ∈ d.children) : Visits n c := by
  induction h with
  | self n => exact .inside hopen hc (.self c)
  | inside hn hmem _ ih => exact .inside hn hmem (ih hopen hc)

/-- Everything below a node that waits for its children satisfies `P` or comes before it on the
stack. -/
def IsOrdered : (P : Concrete Nat → Prop) → List (Concrete Nat × Bool) → Prop
  | _, [] => True
  | P, (n, childrenDone) :: stack =>
    (childrenDone = true → ∀ c ∈ n.children, ∀ d, Visits c d → P d) ∧
      IsOrdered (fun d => P d ∨ Visits n d) stack

theorem IsOrdered.mono {P Q : Concrete Nat → Prop} {stack : List (Concrete Nat × Bool)}
    (h : IsOrdered P stack) (hPQ : ∀ d, P d → Q d) : IsOrdered Q stack := by
  induction stack generalizing P Q with
  | nil => trivial
  | cons entry stack ih =>
    refine ⟨fun hdone c hc d hd => hPQ d (h.1 hdone c hc d hd), ih h.2 fun d => ?_⟩
    exact Or.imp_left (hPQ d)

theorem isOrdered_append {P : Concrete Nat → Prop} (nodes : List (Concrete Nat))
    {stack : List (Concrete Nat × Bool)}
    (h : IsOrdered (fun d => P d ∨ ∃ c ∈ nodes, Visits c d) stack) :
    IsOrdered P (nodes.map (·, false) ++ stack) := by
  induction nodes generalizing P with
  | nil => exact h.mono fun d hd => hd.resolve_right (by simp)
  | cons c nodes ih =>
    refine ⟨nofun, ih (h.mono fun d hd => ?_)⟩
    rw [List.exists_mem_cons_iff] at hd
    tauto

/-- The visits of the nodes of a tree have come to a stack and a table. -/
structure IsConversion (source : Text) (root : Concrete Nat) (stack : List (Concrete Nat × Bool))
    (finished : Finished) : Prop where
  nodes : ∀ entry ∈ stack, entry.1 ∈ root.nodes
  table : IsTableOf source root finished
  pending : root.mark ∈ finished ∨ ∃ childrenDone, (root, childrenDone) ∈ stack
  ordered : IsOrdered (·.mark ∈ finished) stack

section Stack

variable {source : Text} {root n : Concrete Nat} {childrenDone : Bool}
  {stack : List (Concrete Nat × Bool)} {finished : Finished}

theorem isConversion_root (source : Text) (root : Concrete Nat) :
    IsConversion source root [(root, false)] {} where
  nodes := by simpa using mem_nodes_self root
  table := by
    intro m _ tree htree
    simp at htree
  pending := .inr ⟨false, List.mem_cons_self⟩
  ordered := ⟨nofun, trivial⟩

/-- Building the first node of the stack. -/
theorem IsConversion.build (h : IsConversion source root ((n, childrenDone) :: stack) finished)
    (hmarks : (root.nodes.map mark).Nodup)
    (hbuilt : (childrenDone || isOpaqueKind n.kind) = true) :
    IsConversion source root stack (addTree source (ensure source) finished n) := by
  have hn : n ∈ root.nodes := h.nodes _ List.mem_cons_self
  have hadds : Adds source root finished (addTree source (ensure source) finished n) n := by
    refine adds_addTree hmarks hn (fun c hc finished htable => ?_) h.table
    have hbelow := mem_nodes_of_mem_descendants (mem_descendants_of_mem_requested hc)
    exact adds_ensure hmarks (mem_nodes_trans hbelow hn) htable
  refine ⟨fun entry hentry => h.nodes entry (List.mem_cons_of_mem _ hentry), hadds.table, ?_, ?_⟩
  · rcases h.pending with hfinished | ⟨done, hroot⟩
    · exact .inl (hadds.grows _ hfinished)
    · rcases List.mem_cons.mp hroot with heq | hroot
      · cases heq
        exact .inl hadds.holds
      · exact .inr ⟨done, hroot⟩
  · refine h.ordered.2.mono fun d hd => ?_
    rcases hd with hfinished | hvisits
    · exact hadds.grows _ hfinished
    · cases hvisits with
      | self => exact hadds.holds
      | inside hopen hc hvisits =>
        rw [hopen, Bool.or_false] at hbuilt
        exact hadds.grows _ (h.ordered.1 hbuilt _ hc d hvisits)

/-- Putting the first node of the stack back behind its children. -/
theorem IsConversion.expand (h : IsConversion source root ((n, childrenDone) :: stack) finished) :
    IsConversion source root (n.children.reverse.map (·, false) ++ (n, true) :: stack)
      finished := by
  have hn : n ∈ root.nodes := h.nodes _ List.mem_cons_self
  refine ⟨?_, h.table, ?_, isOrdered_append _ ⟨fun _ c hc d hd => ?_, ?_⟩⟩
  · refine List.forall_mem_append.mpr ⟨?_, List.forall_mem_cons.mpr ⟨hn, fun entry hentry => ?_⟩⟩
    · intro entry hentry
      obtain ⟨c, hc, rfl⟩ := List.mem_map.mp hentry
      have hbelow := mem_descendants_of_mem_children (List.mem_reverse.mp hc)
      exact mem_nodes_trans (mem_nodes_of_mem_descendants hbelow) hn
    · exact h.nodes entry (List.mem_cons_of_mem _ hentry)
  · refine h.pending.imp_right fun ⟨done, hroot⟩ => ?_
    rcases List.mem_cons.mp hroot with heq | hroot
    · cases heq
      exact ⟨true, List.mem_append_right _ List.mem_cons_self⟩
    · exact ⟨done, List.mem_append_right _ (List.mem_cons_of_mem _ hroot)⟩
  · exact .inr ⟨c, List.mem_reverse.mpr hc, hd⟩
  · exact h.ordered.2.mono fun d => Or.imp_left .inl

/-- The visits keep their invariant. -/
theorem IsConversion.visitAll (h : IsConversion source root stack finished)
    (hmarks : (root.nodes.map mark).Nodup) (steps : Nat) :
    IsConversion source root (visitAll source steps stack finished).1
      (visitAll source steps stack finished).2 := by
  induction steps generalizing stack finished with
  | zero => exact h
  | succ steps ih =>
    match stack with
    | [] => exact h
    | (n, childrenDone) :: stack =>
      rw [Concrete.visitAll]
      split
      · exact ih (h.build hmarks ‹_›)
      · exact ih h.expand

/-- The nodes that the first node of the stack asks for are finished, if nothing is asked for
below a node whose content is never looked at. -/
theorem IsConversion.mem_of_mem_requested
    (h : IsConversion source root ((n, childrenDone) :: stack) finished)
    (hfields : ∀ m ∈ root.nodes, m.field = some "parameters" ∨ m.field = some "arguments" →
      isOpaqueKind m.kind = false)
    (hbuilt : (childrenDone || isOpaqueKind n.kind) = true) :
    ∀ c ∈ n.requested source, c.mark ∈ finished := by
  have hn : n ∈ root.nodes := h.nodes _ List.mem_cons_self
  cases hclosed : isOpaqueKind n.kind with
  | true =>
    have hshape : Shape.ofKind? n.kind = none := by
      by_contra hne
      obtain ⟨shape, hshape⟩ := Option.ne_none_iff_exists'.mp hne
      rw [isOpaqueKind_of_ofKind? hshape] at hclosed
      cases hclosed
    rw [requested, hshape]
    simp [hclosed]
  | false =>
    rw [hclosed, Bool.or_false] at hbuilt
    -- What is asked for is visited below the node, so it is finished by the invariant.
    have hdown : GoesDown fun d => d ∈ root.nodes ∧ ∃ c ∈ n.children, Visits c d := by
      rintro d ⟨hd, c, hc, hvisits⟩ hlooked e he
      have hopen : isOpaqueKind d.kind = false := hlooked.elim id (hfields d hd)
      have hbelow := mem_nodes_of_mem_descendants (mem_descendants_of_mem_children he)
      exact ⟨mem_nodes_trans hbelow hd, c, hc, hvisits.child hopen he⟩
    have hchildren : ∀ c ∈ n.children, c ∈ root.nodes ∧ ∃ d ∈ n.children, Visits d c := by
      intro c hc
      have hbelow := mem_nodes_of_mem_descendants (mem_descendants_of_mem_children hc)
      exact ⟨mem_nodes_trans hbelow hn, c, hc, .self c⟩
    intro c hc
    obtain ⟨-, d, hd, hvisits⟩ := hdown.of_requested hchildren c hc
    exact h.ordered.1 hbuilt d hd c hvisits

end Stack

/-! ## The end of the visits -/

/-- The number of visits that the nodes of a stack take at most. -/
def visitsLeft (stack : List (Concrete Nat × Bool)) : Nat :=
  (stack.map fun (n, childrenDone) => if childrenDone then 1 else 2 * n.size).sum

theorem visitsLeft_append (nodes : List (Concrete Nat)) (stack : List (Concrete Nat × Bool)) :
    visitsLeft (nodes.reverse.map (·, false) ++ stack) = 2 * sizeAll nodes + visitsLeft stack := by
  induction nodes generalizing stack with
  | nil => simp [visitsLeft, sizeAll]
  | cons n nodes ih =>
    rw [List.reverse_cons, List.map_append, List.append_assoc, ih, sizeAll]
    simp only [visitsLeft, List.map_cons, List.map_nil, List.singleton_append, List.sum_cons,
      Bool.false_eq_true, if_false]
    omega

/-- With enough visits the stack is emptied. -/
theorem visitAll_stack_eq_nil (source : Text) {steps : Nat} {stack : List (Concrete Nat × Bool)}
    (finished : Finished) (h : visitsLeft stack ≤ steps) :
    (visitAll source steps stack finished).1 = [] := by
  induction steps generalizing stack finished with
  | zero =>
    match stack with
    | [] => rfl
    | (n, childrenDone) :: stack =>
      have hsize := size_eq n
      simp only [visitsLeft, List.map_cons, List.sum_cons] at h
      split at h <;> omega
  | succ steps ih =>
    match stack with
    | [] => rfl
    | (n, childrenDone) :: stack =>
      have hsize := size_eq n
      rw [visitAll]
      split
      · refine ih _ ?_
        simp only [visitsLeft, List.map_cons, List.sum_cons] at h ⊢
        split at h <;> omega
      · rename_i hopen
        have hdone : childrenDone = false := (Bool.or_eq_false_iff.mp (by simpa using hopen)).1
        refine ih _ ?_
        rw [visitsLeft_append]
        simp only [hdone, visitsLeft, List.map_cons, List.sum_cons, Bool.false_eq_true, if_false,
          if_true] at h ⊢
        omega

/-! ## Trees without marks -/

mutual

/-- The tree without its marks. -/
def erase : Concrete μ → Concrete Unit
  | node _ kind named field start stop children =>
    node () kind named field start stop (eraseAll children)

/-- Some trees without their marks. -/
def eraseAll : List (Concrete μ) → List (Concrete Unit)
  | [] => []
  | n :: rest => erase n :: eraseAll rest

end

theorem eraseAll_eq_map (trees : List (Concrete μ)) : eraseAll trees = trees.map erase := by
  induction trees with
  | nil => rfl
  | cons n trees ih => rw [eraseAll, ih, List.map_cons]

theorem relabels_erase : Relabels (erase (μ := μ)) where
  kind n := by cases n; rw [erase]; rfl
  named n := by cases n; rw [erase]; rfl
  field n := by cases n; rw [erase]; rfl
  start n := by cases n; rw [erase]; rfl
  stop n := by cases n; rw [erase]; rfl
  children n := by
    cases n
    rw [erase]
    exact eraseAll_eq_map _

/-- The marks of a tree do not change its syntax tree. -/
theorem toTree_erase (source : Text) (n : Concrete μ) : n.erase.toTree source = n.toTree source :=
  relabels_erase.keepsView.toTree source n

mutual

/-- Numbering a tree uses one number for each node, in pre-order, and changes nothing else. -/
theorem numberedFrom_spec (next : Nat) : ∀ n : Concrete μ,
    (numberedFrom next n).2 = next + n.size ∧
      (numberedFrom next n).1.nodes.map mark = List.range' next n.size ∧
      (numberedFrom next n).1.erase = n.erase
  | node mark kind named field start stop children => by
    obtain ⟨hlast, hmarks, herase⟩ := numberedAllFrom_spec (next + 1) children
    refine ⟨?_, ?_, ?_⟩
    · rw [numberedFrom, size, hlast]
      omega
    · rw [numberedFrom, size, nodes, List.map_cons, hmarks, Nat.add_comm 1, List.range'_succ]
      rfl
    · rw [numberedFrom, erase, erase, herase]

theorem numberedAllFrom_spec (next : Nat) : ∀ trees : List (Concrete μ),
    (numberedAllFrom next trees).2 = next + sizeAll trees ∧
      (nodesAll (numberedAllFrom next trees).1).map mark = List.range' next (sizeAll trees) ∧
      eraseAll (numberedAllFrom next trees).1 = eraseAll trees
  | [] => ⟨rfl, rfl, rfl⟩
  | n :: rest => by
    obtain ⟨hlast, hmarks, herase⟩ := numberedFrom_spec next n
    obtain ⟨hlasts, hmarksAll, heraseAll⟩ := numberedAllFrom_spec (next + n.size) rest
    simp only [numberedAllFrom, hlast]
    refine ⟨?_, ?_, ?_⟩
    · rw [hlasts, sizeAll]
      omega
    · rw [nodesAll, List.map_append, hmarks, hmarksAll, sizeAll, List.range'_append_1]
    · rw [eraseAll, eraseAll, herase, heraseAll]

end

/-- The nodes of a numbered tree have numbers of their own. -/
theorem nodup_marks_numbered (n : Concrete μ) : (n.numbered.nodes.map mark).Nodup := by
  rw [numbered, (numberedFrom_spec 0 n).2.1]
  exact List.nodup_range'

theorem toTree_numbered (source : Text) (n : Concrete μ) :
    n.numbered.toTree source = n.toTree source := by
  rw [← toTree_erase, numbered, (numberedFrom_spec 0 n).2.2, toTree_erase]

/-! ## The two conversions agree -/

/-- The stack is emptied, and the table then holds the tree of the root. -/
theorem exists_visitAll_root (source : Text) {root : Concrete Nat}
    (hmarks : (root.nodes.map mark).Nodup) :
    ∃ finished, visitAll source (2 * root.size) [(root, false)] {} = ([], finished) ∧
      finished[root.mark]? = some (root.toTree source) := by
  have hstack : (visitAll source (2 * root.size) [(root, false)] {}).1 = [] :=
    visitAll_stack_eq_nil source {} (by simp [visitsLeft])
  have hend := (isConversion_root source root).visitAll hmarks (2 * root.size)
  refine ⟨_, Prod.ext hstack rfl, ?_⟩
  have hmark : root.mark ∈ (visitAll source (2 * root.size) [(root, false)] {}).2 := by
    refine hend.pending.resolve_right ?_
    rw [hstack]
    simp
  obtain ⟨tree, htree⟩ := Option.isSome_iff_exists.mp
    (Std.TreeMap.isSome_getElem?_iff_mem.mpr hmark)
  rw [htree, hend.table root (mem_nodes_self root) tree htree]

/-- The conversion with a stack gives the tree of the recursion. -/
theorem convert_eq_toTree (source : Text) {root : Concrete Nat}
    (hmarks : (root.nodes.map mark).Nodup) : convert source root = root.toTree source := by
  obtain ⟨finished, hvisit, htree⟩ := exists_visitAll_root source hmarks
  rw [convert, hvisit, finishedTree, htree, Option.getD_some]

theorem convert_numbered (source : Text) (n : Concrete μ) :
    convert source n.numbered = n.toTree source := by
  rw [convert_eq_toTree source (nodup_marks_numbered n), toTree_numbered]

/-- For a tree whose nodes have marks of their own, the visits come to an end, and the
conversion gives the tree that the recursion builds of each node and the trees that the node asks
for. If what stands in the fields for parameters and arguments is looked into, all trees that a
node asks for are in the table whenever the node is built, and it is built from the table as it
is. -/
theorem visitAll_root (source : Text) (root : Concrete Nat)
    (hmarks : (root.nodes.map mark).Nodup) :
    (∃ finished, visitAll source (2 * root.size) [(root, false)] {} = ([], finished) ∧
        finished[root.mark]? = some (root.toTree source)) ∧
      convert source root = root.toTree source ∧
      (∀ n : Concrete Nat, n.toTree source = n.build source (toTree source) ∧
        ∀ f g : Concrete Nat → Tree, (∀ c ∈ n.requested source, f c = g c) →
          n.build source f = n.build source g) ∧
      ((∀ m ∈ root.nodes, m.field = some "parameters" ∨ m.field = some "arguments" →
          isOpaqueKind m.kind = false) →
        ∀ steps n childrenDone stack finished,
          visitAll source steps [(root, false)] {} = ((n, childrenDone) :: stack, finished) →
            (childrenDone || isOpaqueKind n.kind) = true →
              (∀ c ∈ n.requested source, c.mark ∈ finished) ∧
                addTree source (ensure source) finished n =
                  finished.insert n.mark (n.build source (finishedTree finished))) := by
  refine ⟨exists_visitAll_root source hmarks, convert_eq_toTree source hmarks,
    fun n => ⟨toTree_eq source n, fun _ _ => build_congr_requested⟩, ?_⟩
  intro hfields steps n childrenDone stack finished hvisit hbuilt
  have hstate := (isConversion_root source root).visitAll hmarks steps
  rw [hvisit] at hstate
  have hrequested := hstate.mem_of_mem_requested hfields hbuilt
  refine ⟨hrequested, ?_⟩
  rw [addTree, foldl_ensure_of_mem hrequested]

/-- The tree of the call `A::f($x)`. -/
def scopedCallNode : Concrete Nat :=
  .node 0 "scoped_call_expression" true none 0 8
    [.node 1 "name" true (some "scope") 0 1 [], .node 2 "::" false none 1 3 [],
      .node 3 "name" true (some "name") 3 4 [],
      .node 4 "arguments" true (some "arguments") 4 8
        [.node 5 "(" false none 4 5 [],
          .node 6 "argument" true none 5 7 [.node 7 "variable_name" true none 5 7 []],
          .node 8 ")" false none 7 8 []]]

/-- The call asks for its argument, which is finished when the call is built. -/
theorem visitAll_root_scopedCall :
    (scopedCallNode.nodes.map mark).Nodup ∧
      (∀ m ∈ scopedCallNode.nodes, m.field = some "parameters" ∨ m.field = some "arguments" →
        isOpaqueKind m.kind = false) ∧
      (visitAll "A::f($x)".toList 14 [(scopedCallNode, false)] {}).1 = [(scopedCallNode, true)] ∧
      (scopedCallNode.requested "A::f($x)".toList).map mark = [6] ∧
      (∀ c ∈ scopedCallNode.requested "A::f($x)".toList,
        c.mark ∈ (visitAll "A::f($x)".toList 14 [(scopedCallNode, false)] {}).2) ∧
      convert "A::f($x)".toList scopedCallNode = scopedCallNode.toTree "A::f($x)".toList := by
  have hmarks : (scopedCallNode.nodes.map mark).Nodup := by decide
  have hfields : ∀ m ∈ scopedCallNode.nodes, m.field = some "parameters" ∨
      m.field = some "arguments" → isOpaqueKind m.kind = false := by decide
  have hstack : (visitAll "A::f($x)".toList 14 [(scopedCallNode, false)] {}).1 =
      [(scopedCallNode, true)] := by rfl
  obtain ⟨-, hconvert, -, hfinished⟩ := visitAll_root "A::f($x)".toList scopedCallNode hmarks
  refine ⟨hmarks, hfields, hstack, by decide, ?_, hconvert⟩
  exact (hfinished hfields 14 _ _ _ _ (Prod.ext hstack rfl) rfl).1

end Namespacer.Concrete
