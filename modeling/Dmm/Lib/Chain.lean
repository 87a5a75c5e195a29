import Mathlib

/-!
# Singly linked queues

The elements of a list linked by `next`, the last one to nothing, as a queue with a pointer to its
first and one to its last element keeps them. Appending writes the link of the last element.
-/

namespace Dmm.Chain

universe u

variable {α : Type u} {next next' : α → Option α} {l : List α} {x : α}

/-- The elements are linked one after the other, and the last one to nothing. -/
def Chained (next : α → Option α) : List α → Prop
  | [] => True
  | x :: l => next x = l.head? ∧ Chained next l

theorem Chained.congr (chained : Chained next l) (same : ∀ y ∈ l, next' y = next y) :
    Chained next' l := by
  induction l with
  | nil => trivial
  | cons y l ih =>
    refine ⟨(same y (by simp)).trans chained.1, ih chained.2 fun z mem => ?_⟩
    exact same z (List.mem_cons_of_mem y mem)

/-- One element more: the last one is linked to it. -/
theorem Chained.append (chained : Chained next l) (nodup : l.Nodup)
    (last : ∀ y, l.getLast? = some y → next' y = some x) (end_ : next' x = none)
    (same : ∀ y ∈ l, l.getLast? ≠ some y → next' y = next y) : Chained next' (l ++ [x]) := by
  induction l with
  | nil => exact ⟨end_, trivial⟩
  | cons y l ih =>
    cases l with
    | nil => exact ⟨last y rfl, end_, trivial⟩
    | cons z l =>
      have others : (z :: l).getLast? = (y :: z :: l).getLast? := by simp
      have other : (y :: z :: l).getLast? ≠ some y := by
        rw [← others]
        intro here
        exact (List.nodup_cons.mp nodup).1 (List.mem_of_getLast? here)
      refine ⟨(same y (by simp) other).trans chained.1, ?_⟩
      apply ih chained.2 (List.nodup_cons.mp nodup).2
      · intro w is
        exact last w (others ▸ is)
      · intro w mem is
        exact same w (List.mem_cons_of_mem y mem) (others ▸ is)

end Dmm.Chain
