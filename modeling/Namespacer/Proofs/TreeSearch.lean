import Namespacer.Syntax.Reference

/-!
# The search for type names

The search keeps a stack of trees still to be visited, and every mention that the
recursion finds, it finds in the same order.

* `Tree.mentions_eq`: the mentions of a tree are its own, then those of its parts.
* `Tree.collect_eq_mentions`: the search with a stack finds the mentions of the tree.
-/

namespace Namespacer.Tree

theorem mentionsAll_append (trees others : List Tree) :
    mentionsAll (trees ++ others) = mentionsAll trees ++ mentionsAll others := by
  induction trees with
  | nil => rfl
  | cons tree trees ih => simp [mentionsAll, ih]

theorem sizeAll_append (trees others : List Tree) :
    sizeAll (trees ++ others) = sizeAll trees + sizeAll others := by
  induction trees with
  | nil => simp [sizeAll]
  | cons tree trees ih =>
    simp only [List.cons_append, sizeAll, ih]
    omega

@[simp] theorem mentionsAll_toList (tree : Option Tree) : mentionsAll tree.toList = mentions? tree := by
  cases tree with
  | none => rfl
  | some tree => simp [mentionsAll, mentions?]

@[simp] theorem sizeAll_toList (tree : Option Tree) : sizeAll tree.toList = size? tree := by
  cases tree with
  | none => rfl
  | some tree => simp [sizeAll, size?]

theorem mem_mentionsAll {trees : List Tree} {mention : Mention} :
    mention ∈ mentionsAll trees ↔ ∃ tree ∈ trees, mention ∈ tree.mentions := by
  induction trees with
  | nil => simp [mentionsAll]
  | cons tree trees ih => simp [mentionsAll, ih]

/-- The mentions of a tree are its own, then those of its parts. -/
theorem mentions_eq (tree : Tree) : tree.mentions = tree.ownMentions ++ mentionsAll tree.parts := by
  cases tree with
  | new what arguments =>
    cases what <;> simp [mentions, ownMentions, parts, mentionsAll]
  | _ => simp [mentions, ownMentions, parts, headMentions, mentionsAll, mentionsAll_append]

/-- A search visits a tree and what it visits in its parts. -/
theorem size_eq (tree : Tree) : tree.size = 1 + sizeAll tree.parts := by
  cases tree with
  | new what arguments =>
    cases what with
    | inPlace declaration =>
      simp only [size, parts, sizeAll]
      omega
    | _ => simp [size, parts]
  | _ => simp [size, parts, sizeAll, sizeAll_append, Nat.add_assoc]

/-- A search with enough steps adds the mentions of all trees of its stack. -/
theorem collectFrom_eq (steps : Nat) (stack : List Tree) (found : List Mention)
    (hsteps : sizeAll stack ≤ steps) :
    collectFrom steps stack found = found.reverse ++ mentionsAll stack := by
  induction steps generalizing stack found with
  | zero =>
    cases stack with
    | nil => simp [collectFrom, mentionsAll]
    | cons tree stack =>
      have hsize := size_eq tree
      simp only [sizeAll] at hsteps
      omega
  | succ steps ih =>
    cases stack with
    | nil => simp [collectFrom, mentionsAll]
    | cons tree stack =>
      have hsize := size_eq tree
      simp only [sizeAll] at hsteps
      rw [collectFrom, ih]
      · simp [mentionsAll, mentionsAll_append, mentions_eq tree]
      · rw [sizeAll_append]
        omega

/-- The search with a stack finds the mentions of the tree, in order. -/
theorem collect_eq_mentions (tree : Tree) : tree.collect = tree.mentions := by
  rw [collect, collectFrom_eq]
  · simp [mentionsAll]
  · simp [sizeAll]

end Namespacer.Tree
