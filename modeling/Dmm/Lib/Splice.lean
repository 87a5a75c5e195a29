import Mathlib

/-!
# Overwriting a run of a list

`splice l i xs` is the list `l` with the elements from position `i` on overwritten by `xs`. Runs
that adjoin are written as one, within a list and across the end of one list into the next.
-/

namespace Dmm.Splice

universe u

variable {α : Type u} {l first second xs ys : List α} {i : Nat}

/-- The list with the elements from a position on overwritten. -/
def splice (l : List α) (i : Nat) (xs : List α) : List α :=
  l.take i ++ xs ++ l.drop (i + xs.length)

@[simp] theorem splice_nil (l : List α) (i : Nat) : splice l i [] = l := by
  simp [splice]

theorem length_splice (inside : i + xs.length ≤ l.length) :
    (splice l i xs).length = l.length := by
  simp only [splice, List.length_append, List.length_take, List.length_drop]
  omega

theorem take_splice_zero (l xs : List α) : (splice l 0 xs).take xs.length = xs := by
  simp [splice]

theorem drop_splice_zero (l xs : List α) :
    (splice l 0 xs).drop xs.length = l.drop xs.length := by
  simp [splice]

theorem splice_splice (inside : i ≤ l.length) :
    splice (splice l i xs) (i + xs.length) ys = splice l i (xs ++ ys) := by
  have before : (l.take i ++ xs).length = i + xs.length := by
    rw [List.length_append, List.length_take, Nat.min_eq_left inside]
  have kept : (splice l i xs).take (i + xs.length) = l.take i ++ xs := by
    rw [splice, ← before, List.take_left]
  have behind : (splice l i xs).drop (i + xs.length + ys.length) =
      l.drop (i + xs.length + ys.length) := by
    rw [← List.drop_drop, splice, ← before, List.drop_left, before, List.drop_drop]
  rw [splice, kept, behind, splice, List.length_append, List.append_assoc (l.take i), Nat.add_assoc]

theorem splice_append_left (inside : i + xs.length ≤ first.length) :
    splice (first ++ second) i xs = splice first i xs ++ second := by
  have position : i ≤ first.length := by omega
  rw [splice, splice, List.take_append_of_le_length position, List.drop_append_of_le_length inside]
  simp only [List.append_assoc]

/-- A run that goes on from the end of the first of two lists into the second. -/
theorem splice_append_across (ends : i + xs.length = first.length) :
    splice (first ++ second) i (xs ++ ys) = splice first i xs ++ splice second 0 ys := by
  have position : i ≤ first.length := by omega
  have behind : first.drop (i + xs.length) = [] := List.drop_eq_nil_of_le (by omega)
  rw [splice, splice, splice, List.take_append_of_le_length position, behind, List.length_append,
    ← Nat.add_assoc, ends, ← List.drop_drop, List.drop_left]
  simp

end Dmm.Splice
