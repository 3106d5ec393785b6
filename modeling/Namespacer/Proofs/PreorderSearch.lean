import Mathlib.Data.List.Nodup
import Mathlib.Logic.Function.Iterate
import Namespacer.Events
import Namespacer.Proofs.TreeSearch

/-!
# The search is the pre-order traversal

One round of the search takes a tree from the stack, adds the references that the tree makes
itself, logs those of its names that are to be reviewed, and puts the parts of the tree in its
place. The search ends after as many rounds as there are trees to visit.

* `Search.iterate_step`: what a number of rounds does to a stack.
* `Tree.references_eq`: the references of a tree are its own, then those of its parts.
* `Tree.references_eq_of_unmarked`: how names are qualified does not matter to references.
* `Tree.iterate_step_start`: the search of a tree, its references and its log.
-/

namespace Namespacer

/-- What is logged about a position. Nothing is said about created objects, and nothing about a
name that is empty or not fully qualified. -/
def Mention.warning? : Mention → Option LogEvent
  | ⟨some ⟨text, .fullyQualified⟩, context⟩ =>
    if context = .created ∨ text = [] then none
    else some (LogEvent.fullyQualifiedReference text context)
  | _ => none

/-! ## Rounds -/

/-- How far a search has come. -/
structure Search where
  /-- The trees still to be visited, the next one first. -/
  stack : List Tree
  references : List Reference
  log : List LogEvent

namespace Search

/-- A search of a tree that has not begun. -/
def start (tree : Tree) : Search := ⟨[tree], [], []⟩

/-- One round of a search. -/
def step : Search → Search
  | ⟨[], references, log⟩ => ⟨[], references, log⟩
  | ⟨tree :: stack, references, log⟩ =>
    ⟨tree.parts ++ stack, references ++ tree.ownMentions.map Mention.reference,
      log ++ tree.ownMentions.filterMap Mention.warning?⟩

/-- A search with as many rounds as there are trees to visit adds what all of them mention. -/
theorem iterate_step (rounds : Nat) (stack : List Tree) (references : List Reference)
    (log : List LogEvent) (hrounds : Tree.sizeAll stack = rounds) :
    step^[rounds] ⟨stack, references, log⟩ =
      ⟨[], references ++ (Tree.mentionsAll stack).map Mention.reference,
        log ++ (Tree.mentionsAll stack).filterMap Mention.warning?⟩ := by
  induction rounds generalizing stack references log with
  | zero =>
    cases stack with
    | nil => simp [Tree.mentionsAll]
    | cons tree stack =>
      have hsize := Tree.size_eq tree
      simp only [Tree.sizeAll] at hrounds
      omega
  | succ rounds ih =>
    cases stack with
    | nil => simp [Tree.sizeAll] at hrounds
    | cons tree stack =>
      have hsize := Tree.size_eq tree
      simp only [Tree.sizeAll] at hrounds
      rw [Function.iterate_succ_apply, step, ih]
      · simp [Tree.mentionsAll, Tree.mentionsAll_append, Tree.mentions_eq tree]
      · rw [Tree.sizeAll_append]
        omega

/-- With fewer rounds there are trees left. -/
theorem sizeAll_iterate_step (rounds : Nat) (search : Search)
    (hrounds : rounds ≤ Tree.sizeAll search.stack) :
    Tree.sizeAll (step^[rounds] search).stack + rounds = Tree.sizeAll search.stack := by
  induction rounds generalizing search with
  | zero => rfl
  | succ rounds ih =>
    obtain ⟨stack, references, log⟩ := search
    cases stack with
    | nil => simp [Tree.sizeAll] at hrounds
    | cons tree stack =>
      have hsize := Tree.size_eq tree
      simp only [Tree.sizeAll] at hrounds
      have hstack : Tree.sizeAll (step ⟨tree :: stack, references, log⟩).stack =
          Tree.sizeAll tree.parts + Tree.sizeAll stack := Tree.sizeAll_append _ _
      have hrest := ih (step ⟨tree :: stack, references, log⟩) (by omega)
      rw [Function.iterate_succ_apply, Tree.sizeAll]
      omega

end Search

namespace Tree

/-! ## References and warnings of the parts -/

theorem mentionsAll_eq_flatMap (trees : List Tree) :
    mentionsAll trees = trees.flatMap mentions := by
  induction trees with
  | nil => rfl
  | cons tree trees ih => rw [mentionsAll, ih, List.flatMap_cons]

theorem references_some (tree : Tree) :
    references (some tree) = tree.mentions.map Mention.reference := by
  rw [references, Option.map_some, Option.getD_some, collect_eq_mentions]

/-- The references of a tree are its own, then those of its parts. -/
theorem references_eq (tree : Tree) :
    references (some tree) = tree.ownMentions.map Mention.reference ++
      tree.parts.flatMap fun part => references (some part) := by
  simp only [references_some, mentions_eq tree, mentionsAll_eq_flatMap, List.map_append,
    List.map_flatMap]

/-- A position is logged if it is to be reviewed. -/
theorem warning?_eq (m : Mention) :
    m.warning? = if m.needsReview then
      m.name.map fun name => LogEvent.fullyQualifiedReference name.text m.context else none := by
  obtain ⟨name, context⟩ := m
  cases name with
  | none => simp [Mention.warning?]
  | some name =>
    obtain ⟨text, resolution⟩ := name
    cases resolution <;> cases context <;> cases text <;>
      simp [Mention.warning?, Mention.needsReview]

theorem reviews_some (tree : Tree) :
    LogEvent.reviews (some tree) = tree.mentions.filterMap Mention.warning? := by
  rw [LogEvent.reviews, reviewed, Option.map_some, Option.getD_some, collect_eq_mentions,
    List.map_filterMap, List.filterMap_filter]
  refine List.filterMap_congr fun m _ => ?_
  rw [warning?_eq]
  split
  · rw [Option.map_map]
    rfl
  · rfl

/-! ## How names are qualified -/

end Tree

/-- A name as if it were written without any qualification. -/
def Name.unmarked (name : Name) : Name := ⟨name.text, .unqualified⟩

/-- A position with its name unmarked. -/
def Mention.unmarked (m : Mention) : Mention := ⟨m.name.map Name.unmarked, m.context⟩

theorem Mention.reference_unmarked (m : Mention) : m.unmarked.reference = m.reference := by
  simp [unmarked, reference, Option.map_map, Function.comp_def, Name.unmarked]

namespace Tree

mutual

/-- A tree with all of its names unmarked. Trees that are the same but for the marks of their
names have the same unmarked tree. -/
def unmarked : Tree → Tree
  | block label children => block label (unmarkedAll children)
  | leaf label => leaf label
  | classDecl ⟨name, extended, implemented, body, declaration⟩ =>
    classDecl ⟨name, extended.map Name.unmarked, implemented.map Name.unmarked, unmarkedAll body,
      declaration⟩
  | function name parameters body returnType =>
    function name (unmarkedAll parameters) (unmarkedAll body) (returnType.map Name.unmarked)
  | parameter name type => parameter name (type.map Name.unmarked)
  | property type elements => property (type.map Name.unmarked) (unmarkedAll elements)
  | tryCatch body catches finallyBody =>
    tryCatch (unmarkedAll body) (unmarkedAll catches) (unmarkedAll finallyBody)
  | catchClause types body => catchClause (types.map Name.unmarked) (unmarkedAll body)
  | new .unknown arguments => new .unknown (unmarkedAll arguments)
  | new (.named name) arguments => new (.named name.unmarked) (unmarkedAll arguments)
  | new (.inPlace ⟨name, extended, implemented, body, declaration⟩) arguments =>
    new (.inPlace ⟨name, extended.map Name.unmarked, implemented.map Name.unmarked,
      unmarkedAll body, declaration⟩) (unmarkedAll arguments)
  | staticLookup scope => staticLookup (scope.map Name.unmarked)
  | instanceOf subject type => instanceOf (unmarked? subject) (type.map Name.unmarked)
  | ifThen test body alternate =>
    ifThen (unmarked? test) (unmarkedAll body) (unmarkedAll alternate)
  | ternary test whenTrue whenFalse =>
    ternary (unmarked? test) (unmarked? whenTrue) (unmarked? whenFalse)
  | throw what => throw (unmarked? what)
  | .return value => .return (unmarked? value)
  | echo expressions => echo (unmarkedAll expressions)
  | unary what => unary (unmarked? what)
  | binary left right => binary (unmarked? left) (unmarked? right)
  | assign left right => assign (unmarked? left) (unmarked? right)
  | entry value => entry (unmarked? value)
  | call callee arguments => call (unmarked? callee) (unmarkedAll arguments)
  | propertyLookup what => propertyLookup (unmarked? what)
  | statement expression => statement (unmarked? expression)

/-- Some trees with all of their names unmarked. -/
def unmarkedAll : List Tree → List Tree
  | [] => []
  | tree :: rest => unmarked tree :: unmarkedAll rest

/-- A tree that may be missing with all of its names unmarked. -/
def unmarked? : Option Tree → Option Tree
  | none => none
  | some tree => some (unmarked tree)

end

theorem unmarkedAll_eq_map (trees : List Tree) : unmarkedAll trees = trees.map unmarked := by
  induction trees with
  | nil => rfl
  | cons tree trees ih => rw [unmarkedAll, ih, List.map_cons]

theorem unmarked?_toList (tree : Option Tree) :
    (unmarked? tree).toList = tree.toList.map unmarked := by
  cases tree <;> rfl

theorem mentionsOf_unmarked (context : Context) (names : List Name) :
    mentionsOf context (names.map Name.unmarked) =
      (mentionsOf context names).map Mention.unmarked := by
  rw [mentionsOf, mentionsOf, List.map_map, List.map_map]
  rfl

theorem parts_unmarked (tree : Tree) : tree.unmarked.parts = tree.parts.map unmarked := by
  cases tree with
  | new what arguments =>
    cases what <;> simp [unmarked, parts, unmarkedAll_eq_map]
  | _ => simp [unmarked, parts, unmarkedAll_eq_map, unmarked?_toList]

theorem ownMentions_unmarked (tree : Tree) :
    tree.unmarked.ownMentions = tree.ownMentions.map Mention.unmarked := by
  cases tree with
  | new what arguments =>
    cases what <;> simp [unmarked, ownMentions, Mention.unmarked]
  | staticLookup scope => rfl
  | instanceOf subject type => rfl
  | _ => simp [unmarked, ownMentions, headMentions, mentionsOf_unmarked]

theorem size_lt_of_mem_parts {part tree : Tree} (h : part ∈ tree.parts) :
    part.size < tree.size := by
  have hle : ∀ trees : List Tree, part ∈ trees → part.size ≤ sizeAll trees := by
    intro trees hpart
    induction trees with
    | nil => cases hpart
    | cons first trees ih =>
      rw [sizeAll]
      rcases List.mem_cons.mp hpart with rfl | hrest
      · omega
      · have := ih hrest
        omega
  have := hle tree.parts h
  rw [size_eq tree]
  omega

/-- Unmarking names unmarks the names of all positions. -/
theorem mentions_unmarked (tree : Tree) :
    tree.unmarked.mentions = tree.mentions.map Mention.unmarked := by
  rw [mentions_eq, mentions_eq tree, ownMentions_unmarked, parts_unmarked, List.map_append,
    mentionsAll_eq_flatMap, mentionsAll_eq_flatMap, List.flatMap_map, List.map_flatMap]
  congr 1
  refine List.flatMap_congr fun part hpart => ?_
  have := size_lt_of_mem_parts hpart
  exact mentions_unmarked part
termination_by tree.size

theorem references_unmarked (tree : Tree) :
    references (some tree.unmarked) = references (some tree) := by
  rw [references_some, references_some, mentions_unmarked, List.map_map]
  exact List.map_congr_left fun m _ => m.reference_unmarked

/-- Trees that are the same but for the marks of their names have the same references. -/
theorem references_eq_of_unmarked {tree other : Tree} (h : other.unmarked = tree.unmarked) :
    references (some other) = references (some tree) := by
  rw [← references_unmarked other, h, references_unmarked]

/-! ## The search of a tree -/

/-- The search of a tree ends after as many rounds as there are trees to visit, and not before.
The references that it has then found are those of the tree itself and those of its parts. It has
logged, in the order of the positions, those that are not of created objects and have a name that
is not empty and fully qualified. The marks of names do not matter to the references. -/
theorem iterate_step_start (tree : Tree) :
    Search.step^[tree.size] (Search.start tree) =
        ⟨[], references (some tree), LogEvent.reviews (some tree)⟩ ∧
      (∀ rounds < tree.size, (Search.step^[rounds] (Search.start tree)).stack ≠ []) ∧
      references (some tree) = tree.ownMentions.map Mention.reference ++
        tree.parts.flatMap (fun part => references (some part)) ∧
      references (some tree) = tree.mentions.map Mention.reference ∧
      LogEvent.reviews (some tree) = tree.mentions.filterMap Mention.warning? ∧
      ∀ other : Tree, other.unmarked = tree.unmarked →
        references (some other) = references (some tree) := by
  refine ⟨?_, ?_, references_eq tree, references_some tree, reviews_some tree,
    fun other => references_eq_of_unmarked⟩
  · rw [Search.start, Search.iterate_step tree.size [tree] [] [] (by simp [sizeAll]),
      references_some, reviews_some]
    simp [mentionsAll]
  · intro rounds hrounds hstack
    have hleft := Search.sizeAll_iterate_step rounds (Search.start tree) (by
      simp only [Search.start, sizeAll]
      omega)
    rw [hstack] at hleft
    simp only [Search.start, sizeAll] at hleft
    omega

/-- The creation `new class(\A::f) extends \B {}` with given marks of its two names. -/
def creationTree (scope base : Resolution) : Tree :=
  .new (.inPlace { name := none, extended := [⟨"B".toList, base⟩] })
    [.call (some (.staticLookup (some ⟨"A".toList, scope⟩))) []]

theorem iterate_step_start_creation :
    Search.step^[4] (Search.start (creationTree .fullyQualified .fullyQualified)) =
        ⟨[], [⟨some "B".toList, .extended⟩, ⟨some "A".toList, .staticLookup⟩],
          [.fullyQualifiedReference "B".toList .extended,
            .fullyQualifiedReference "A".toList .staticLookup]⟩ ∧
      (creationTree .unqualified .qualified).unmarked =
        (creationTree .fullyQualified .fullyQualified).unmarked ∧
      references (some (creationTree .unqualified .qualified)) =
        references (some (creationTree .fullyQualified .fullyQualified)) := by
  have hsearch := iterate_step_start (creationTree .fullyQualified .fullyQualified)
  have hmarks : (creationTree .unqualified .qualified).unmarked =
      (creationTree .fullyQualified .fullyQualified).unmarked := rfl
  exact ⟨hsearch.1, hmarks, hsearch.2.2.2.2.2 _ hmarks⟩

end Tree

end Namespacer
