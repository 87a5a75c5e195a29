import Dmm.Lib.Word
import Dmm.Lib.Machine

/-!
# Bounded first-in first-out queues

The queue a ring stands for: a list, oldest element first, and a capacity. `Step` is one
operation with its reply. Two ways of taking several elements are told apart: `take n`
takes exactly as many as there are up to `n`; `takeSome n` may stop early but takes at
least one of a queue that is not empty.

`Refines` says that a code over a memory behaves as such a queue in every session of
complete calls, and that every admitted call returns. `refines_of_simulation` derives it
from one relation between queues and memories that every call keeps.
-/

namespace Dmm.Fifo

open Dmm.Machine Dmm.Word

universe u

variable {α : Type u}

/-- A queue operation. -/
inductive Op (α : Type u)
  | put (x : α)
  | take (n : Nat)
  | takeSome (n : Nat)

/-- What an operation gives back: a C `int` and the elements taken, oldest first. -/
structure Reply (α : Type u) where
  ret : Int
  items : List α
  deriving DecidableEq, Repr

/-- The reply that hands over a list of elements and returns how many they are. -/
def Reply.gave (items : List α) : Reply α := ⟨int32 items.length, items⟩

theorem Reply.gave_one (x : α) : Reply.gave [x] = ⟨1, [x]⟩ := by
  rw [Reply.gave, int32_of_range (by simp) (by simp)]
  rfl

/-- One operation of a queue of capacity `cap`, from the content before to the content after. -/
inductive Step (cap : Nat) : List α → Op α → Reply α → List α → Prop
  | accepted {q x} : q.length < cap → Step cap q (.put x) ⟨1, []⟩ (q ++ [x])
  | refused {q x} : cap ≤ q.length → Step cap q (.put x) ⟨0, []⟩ q
  | taken {q n} : Step cap q (.take n) (.gave (q.take n)) (q.drop n)
  | tookSome {q n} (k : Nat) : 1 ≤ k → k ≤ n → k ≤ q.length →
      Step cap q (.takeSome n) (.gave (q.take k)) (q.drop k)
  | nothing {n} : Step cap [] (.takeSome n) (.gave []) []

theorem Step.items_of_take {cap n : Nat} {q q' : List α} {r : Reply α}
    (step : Step cap q (.take n) r q') : r.items = q.take n := by
  cases step
  rfl

/-- Operations one after another, with their replies. -/
inductive Explains (cap : Nat) : List α → List (Op α × Reply α) → List α → Prop
  | nil {q} : Explains cap q [] q
  | cons {q op r q' ops q''} : Step cap q op r q' → Explains cap q' ops q'' →
      Explains cap q ((op, r) :: ops) q''

variable {κ τ σ ε : Type u}

/-- From a memory that stands for a queue, every session of admitted calls replies as the
queue does, and every admitted call that follows returns. -/
def Refines (code : Code κ τ σ (Reply α) ε) (op : κ → Op α) (may : κ → σ → Prop) (cap : Nat)
    (s : σ) (q : List α) : Prop :=
  ∀ calls s', Session code may s calls s' →
    (∃ q', Explains cap q (calls.map (Prod.map op id)) q') ∧
    ∀ c, may c s' → ∃ r s'', code.Calls c s' r s''

/-- A relation between queues and memories that every admitted call keeps, replying as the
queue does, makes the code refine the queue. -/
theorem refines_of_simulation {code : Code κ τ σ (Reply α) ε} {op : κ → Op α}
    {may : κ → σ → Prop} {cap : Nat} (Rep : List α → σ → Prop)
    (simulates : ∀ q s c, Rep q s → may c s →
      ∃ r s' q', code.Calls c s r s' ∧ Step cap q (op c) r q' ∧ Rep q' s')
    {s : σ} {q : List α} (rep : Rep q s) : Refines code op may cap s q := by
  intro calls s' session
  induction session generalizing q with
  | nil =>
    refine ⟨⟨q, .nil⟩, fun c admitted => ?_⟩
    obtain ⟨r, s', _, call, _, _⟩ := simulates _ _ c rep admitted
    exact ⟨r, s', call⟩
  | cons admitted call _ ih =>
    obtain ⟨r, s', q', call', step, rep'⟩ := simulates _ _ _ rep admitted
    obtain ⟨rfl, rfl⟩ := Returns.unique call call'
    obtain ⟨⟨q'', explained⟩, returns⟩ := ih rep'
    exact ⟨⟨q'', .cons step explained⟩, returns⟩

end Dmm.Fifo
