import Namespacer.Text.Basic

/-!
# Sorting

Insertion into a sorted list, and sorting by repeated insertion. The sort is
stable: elements that compare as equal keep their order.
-/

namespace Namespacer

/-- Inserts an element before the first one that it may precede. -/
def insertSorted {α : Type} (le : α → α → Bool) (a : α) : List α → List α
  | [] => [a]
  | b :: rest => if le a b then a :: b :: rest else b :: insertSorted le a rest

/-- Sorts a list by an order. -/
def sortBy {α : Type} (le : α → α → Bool) : List α → List α
  | [] => []
  | a :: rest => insertSorted le a (sortBy le rest)

end Namespacer
