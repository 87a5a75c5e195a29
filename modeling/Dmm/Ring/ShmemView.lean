import Dmm.Ring.Shmem

/-!
# What a shared-memory ring holds

The ring stores neither its content nor its length. A `View` gives both: positions below
`filled` have been enqueued, positions below `taken` have been dequeued, `value` is what
was enqueued at each position, and the two hints `prod.head` and `cons.tail` stand at
positions of their own, `tailHint ≤ taken ≤ headHint ≤ filled ≤ tailHint + size`. `Holds`
relates a view to the memory: each slot belongs to exactly one of the `size` positions
from `filled` on, carries the version of the lap before, and still has its value when that
earlier position has not been dequeued. The updates of the operations are then updates of
the view.
-/

namespace Dmm.Ring.Shmem

open Dmm.Machine Dmm.Word

/-- The positions and the content a ring stands for. -/
structure View where
  taken : Nat
  filled : Nat
  headHint : Nat
  tailHint : Nat
  value : Nat → BitVec 40

/-- A ring of `2 ^ k` slots holds what the view says. -/
structure Holds (k : Nat) (v : View) (r : MemRing) : Prop where
  size_eq : r.size = word (2 ^ k)
  mask_eq : r.mask = word (2 ^ k - 1)
  head_eq : r.prodHead = word v.headHint
  tail_eq : r.consTail = word v.tailHint
  tail_le : v.tailHint ≤ v.taken
  taken_le : v.taken ≤ v.headHint
  head_le : v.headHint ≤ v.filled
  filled_le : v.filled ≤ v.tailHint + 2 ^ k
  value_ne : ∀ q, q < v.filled → v.value q ≠ 0
  slots : ∀ p, v.filled ≤ p → p < v.filled + 2 ^ k → r.ring (p % 2 ^ k) =
    ⟨if v.taken + 2 ^ k ≤ p then v.value (p - 2 ^ k) else 0, verOf (word p - word (2 ^ k))⟩

variable {k : Nat} {v : View} {r : MemRing}

theorem Holds.slot_word (holds : Holds k v r) (fits : k ≤ 32) (p : Nat) :
    r.slot (word p) = r.ring (p % 2 ^ k) := by
  rw [MemRing.slot, holds.mask_eq, toNat_and_word p fits]

theorem Holds.setSlot_word (holds : Holds k v r) (fits : k ≤ 32) (p : Nat) (d : RingData) :
    r.setSlot (word p) d = { r with ring := Function.update r.ring (p % 2 ^ k) d } := by
  rw [MemRing.setSlot, holds.mask_eq, toNat_and_word p fits]

/-- The slot of the next position to enqueue: the lap before, emptied or not. -/
theorem Holds.slot_filled (holds : Holds k v r) (fits : k ≤ 32) :
    r.slot (word v.filled) =
      ⟨if v.taken + 2 ^ k ≤ v.filled then v.value (v.filled - 2 ^ k) else 0,
        verOf (word v.filled - word (2 ^ k))⟩ := by
  rw [holds.slot_word fits]
  exact holds.slots _ (Nat.le_refl _) (Nat.lt_add_of_pos_right (Nat.two_pow_pos k))

/-- The slot of the next position to enqueue, when the ring is not full. -/
theorem Holds.slot_free (holds : Holds k v r) (fits : k ≤ 32) (room : v.filled < v.taken + 2 ^ k) :
    r.slot (word v.filled) = ⟨0, verOf (word v.filled - word (2 ^ k))⟩ := by
  rw [holds.slot_filled fits, if_neg (Nat.not_le.mpr room)]

/-- The slot of an enqueued position that no later lap has overwritten. -/
theorem Holds.slot_of_lt (holds : Holds k v r) (fits : k ≤ 32) {q : Nat}
    (current : v.filled ≤ q + 2 ^ k) (enqueued : q < v.filled) :
    r.slot (word q) = ⟨if v.taken ≤ q then v.value q else 0, verOf (word q)⟩ := by
  have slot := holds.slots (q + 2 ^ k) current (by omega)
  rw [Nat.add_mod_right, verOf_add_sub, Nat.add_sub_cancel] at slot
  rw [holds.slot_word fits, slot]
  simp only [Nat.add_le_add_iff_right]

theorem Holds.slot_of_stored (holds : Holds k v r) (fits : k ≤ 32) {q : Nat}
    (stored : v.taken ≤ q) (enqueued : q < v.filled) :
    r.slot (word q) = ⟨v.value q, verOf (word q)⟩ := by
  have := holds.filled_le
  have := holds.tail_le
  rw [holds.slot_of_lt fits (by omega) enqueued, if_pos stored]

/-- The slot of a dequeued position at or after the tail hint. -/
theorem Holds.slot_of_taken (holds : Holds k v r) (fits : k ≤ 32) {q : Nat}
    (current : v.tailHint ≤ q) (dequeued : q < v.taken) :
    r.slot (word q) = ⟨0, verOf (word q)⟩ := by
  have := holds.filled_le
  have := holds.taken_le
  have := holds.head_le
  rw [holds.slot_of_lt fits (by omega) (by omega), if_neg (by omega)]

/-- The distance test of an enqueue, at a position within a word of the tail hint. -/
theorem Holds.fullTest (holds : Holds k v r) {p : Nat} (near : v.tailHint + 2 ^ k < p + 2 ^ 32)
    (before : p ≤ v.tailHint + 2 ^ k) :
    r.consTail + r.size - word p = 0 ↔ p = v.tailHint + 2 ^ k := by
  rw [holds.tail_eq, holds.size_eq, word_add, word_sub_eq_zero near (by omega)]
  exact eq_comm

/-- Moving `prod.head` to a position between the dequeues and the enqueues. -/
theorem Holds.moveHead (holds : Holds k v r) {n : Nat} (after : v.taken ≤ n)
    (before : n ≤ v.filled) : Holds k { v with headHint := n } { r with prodHead := word n } :=
  { holds with head_eq := rfl, taken_le := after, head_le := before }

theorem Holds.moveTail (holds : Holds k v r) {n : Nat} (after : v.tailHint ≤ n)
    (before : n ≤ v.taken) : Holds k { v with tailHint := n } { r with consTail := word n } :=
  { holds with
    tail_eq := rfl
    tail_le := before
    filled_le := Nat.le_trans holds.filled_le (Nat.add_le_add_right after _) }

/-- A slot that carries the version expected before an enqueue at a position that is not
further back than the versions reach is the slot of the next position to enqueue. -/
theorem Holds.eq_filled_of_version (holds : Holds k v r) (fits : k ≤ 32) {p : Nat}
    (before : p ≤ v.filled) (near : v.filled + 2 ^ k ≤ p + 2 ^ 24)
    (version : (r.slot (word p)).ver = verOf (word p - word (2 ^ k))) : p = v.filled := by
  obtain ⟨q, after, inside, same⟩ := exists_window (Nat.two_pow_pos k) v.filled p
  rw [holds.slot_word fits, ← same, holds.slots q after inside] at version
  have := verOf_sub_inj (by omega) (by omega) version
  omega

/-- A slot that carries the version of an enqueued position that is not further back than
the versions reach has not been enqueued again. -/
theorem Holds.slot_of_version (holds : Holds k v r) (fits : k ≤ 32) {q : Nat}
    (enqueued : q < v.filled) (near : v.filled ≤ q + 2 ^ 24)
    (version : (r.slot (word q)).ver = verOf (word q)) :
    r.slot (word q) = ⟨if v.taken ≤ q then v.value q else 0, verOf (word q)⟩ := by
  obtain ⟨p, after, inside, same⟩ := exists_window (Nat.two_pow_pos k) v.filled q
  rw [holds.slot_word fits, ← same, holds.slots p after inside, ← verOf_add_sub q (2 ^ k)]
    at version
  have later : q + 2 ^ k ≤ p := by
    by_contra short
    exact mod_ne_of_window (show q < p by omega) (by omega) same
  have lap := verOf_sub_inj (by omega) (by omega) version
  exact holds.slot_of_lt fits (by omega) enqueued

/-- Enqueueing at the next position, while the tail hint leaves room for it. -/
theorem Holds.enqueue (holds : Holds k v r) (fits : k ≤ 32) {x : BitVec 40} (some : x ≠ 0)
    (room : v.filled < v.tailHint + 2 ^ k) :
    Holds k { v with filled := v.filled + 1, value := Function.update v.value v.filled x }
      (r.setSlot (word v.filled) ⟨x, verOf (word v.filled)⟩) := by
  have positive := Nat.two_pow_pos k
  have := holds.tail_le
  rw [holds.setSlot_word fits]
  refine { holds with
    head_le := Nat.le_succ_of_le holds.head_le
    filled_le := room
    value_ne := ?_
    slots := ?_ }
  · intro q enqueued
    dsimp only at enqueued ⊢
    by_cases new : q = v.filled
    · simpa [new] using some
    · rw [Function.update_of_ne new]
      exact holds.value_ne q (by omega)
  · intro p from_filled below
    dsimp only at from_filled below ⊢
    by_cases wrapped : p = v.filled + 2 ^ k
    · -- the slot just written, named by the position one lap later
      subst wrapped
      rw [Nat.add_mod_right, Function.update_self, verOf_add_sub,
        if_pos (by have := holds.taken_le; have := holds.head_le; omega)]
      simp
    · have other : p % 2 ^ k ≠ v.filled % 2 ^ k := mod_ne_of_window from_filled (by omega)
      rw [Function.update_of_ne other, holds.slots p (by omega) (by omega)]
      split
      · rw [Function.update_of_ne (by omega)]
      · rfl

/-- Dequeueing the oldest element, while the head hint is past it. -/
theorem Holds.dequeue (holds : Holds k v r) (fits : k ≤ 32) (stored : v.taken < v.headHint) :
    Holds k { v with taken := v.taken + 1 }
      (r.setSlot (word v.taken) (curNullVal (word v.taken))) := by
  have := holds.head_le
  have := holds.filled_le
  have := holds.tail_le
  rw [holds.setSlot_word fits]
  refine { holds with
    tail_le := Nat.le_succ_of_le holds.tail_le
    taken_le := stored
    slots := ?_ }
  intro p from_filled below
  dsimp only at from_filled below ⊢
  by_cases emptied : p = v.taken + 2 ^ k
  · subst emptied
    rw [Nat.add_mod_right, Function.update_self, verOf_add_sub, if_neg (by omega)]
    rfl
  · have other : p % 2 ^ k ≠ v.taken % 2 ^ k := by
      rw [← Nat.add_mod_right v.taken (2 ^ k)]
      by_cases later : v.taken + 2 ^ k < p
      · exact mod_ne_of_window later (by omega)
      · exact (mod_ne_of_window (show p < v.taken + 2 ^ k by omega) (by omega)).symm
    rw [Function.update_of_ne other, holds.slots p from_filled below]
    split
    · rw [if_pos (by omega)]
    · rw [if_neg (by omega)]

/-! ## How far the hints lag -/

/-- Where a hint stands after an operation at position `p`: only the multiples of four move
it, and only forward. -/
def movedHint (p hint : Nat) : Nat := if p % 4 = 0 ∧ hint < p then p + 1 else hint

theorem hintBehind_word {p hint : Nat} (above : hint < p + 2 ^ 31) (below : p < hint + 2 ^ 31) :
    hintBehind (word p) (word hint) = true ↔ p % 4 = 0 ∧ hint < p := by
  simp only [hintBehind, Bool.and_eq_true, beq_iff_eq, decide_eq_true_eq, gt_iff_lt,
    word_and_three, word_behind above below]

/-- A hint moves forward, and not past the position that moved it. -/
theorem movedHint_bounds (p hint : Nat) :
    hint ≤ movedHint p hint ∧ (movedHint p hint = hint ∨ movedHint p hint = p + 1) := by
  unfold movedHint
  split <;> omega

/-- No multiple of four is left between a hint and the positions operated on. -/
theorem movedHint_near {p hint : Nat} (near : ∀ q, hint < q → q < p → q % 4 ≠ 0) :
    ∀ q, movedHint p hint < q → q < p + 1 → q % 4 ≠ 0 := by
  intro q passed before
  unfold movedHint at passed
  split at passed
  · omega
  · rename_i stays
    by_cases newest : q = p
    · subst newest
      exact fun aligned => stays ⟨aligned, passed⟩
    · exact near q passed (by omega)

/-- No position past the head hint that should have moved it is enqueued. -/
def View.HeadNear (v : View) : Prop := ∀ p, v.headHint < p → p < v.filled → p % 4 ≠ 0

/-- No position past the tail hint that should have moved it is dequeued. -/
def View.TailNear (v : View) : Prop := ∀ q, v.tailHint < q → q < v.taken → q % 4 ≠ 0

/-- A view after an enqueue of an offset that found room. -/
def View.enqueued (v : View) (k : Nat) (x : BitVec 40) : View where
  taken := v.taken
  filled := v.filled + 1
  headHint := movedHint v.filled v.headHint
  -- the full test gives a tail hint one size behind a step forward
  tailHint := if v.filled = v.tailHint + 2 ^ k then v.tailHint + 1 else v.tailHint
  value := Function.update v.value v.filled x

/-- A view after a dequeue of the oldest element. -/
def View.dequeued (v : View) : View where
  taken := v.taken + 1
  filled := v.filled
  -- the empty test gives a head hint at the oldest element a step forward
  headHint := if v.taken = v.headHint then v.headHint + 1 else v.headHint
  tailHint := movedHint v.taken v.tailHint
  value := v.value

theorem View.HeadNear.enqueued {v : View} (near : v.HeadNear) (k : Nat) (x : BitVec 40) :
    (v.enqueued k x).HeadNear := movedHint_near near

theorem View.TailNear.enqueued {v : View} (near : v.TailNear) (k : Nat) (x : BitVec 40) :
    (v.enqueued k x).TailNear := by
  intro q passed dequeued
  refine near q ?_ dequeued
  simp only [View.enqueued] at passed
  split at passed <;> omega

theorem View.HeadNear.dequeued {v : View} (near : v.HeadNear) : v.dequeued.HeadNear := by
  intro p passed enqueued
  refine near p ?_ enqueued
  simp only [View.dequeued] at passed
  split at passed <;> omega

theorem View.TailNear.dequeued {v : View} (near : v.TailNear) : v.dequeued.TailNear :=
  movedHint_near near

/-- A range that starts at most at the first multiple of four is short. -/
theorem lag_le_four {a b : Nat} (near : ∀ p, a < p → p < b → p % 4 ≠ 0) : b ≤ a + 4 := by
  by_contra far
  have first := near (a + 1) (by omega) (by omega)
  have second := near (a + 2) (by omega) (by omega)
  have third := near (a + 3) (by omega) (by omega)
  have fourth := near (a + 4) (by omega) (by omega)
  omega

/-! ## The queue a view stands for -/

/-- The boxes in the ring, oldest first. -/
def View.queue (v : View) (addrbase : Nat) : List Nat :=
  (List.range' v.taken (v.filled - v.taken)).map fun q => addrbase + (v.value q).toNat

/-- The queue is as long as the positions enqueued and not dequeued. -/
@[simp] theorem View.length_queue (v : View) (addrbase : Nat) :
    (v.queue addrbase).length = v.filled - v.taken := by
  simp [queue]

theorem View.queue_enqueued (v : View) (k : Nat) (addrbase : Nat) (ordered : v.taken ≤ v.filled)
    (x : BitVec 40) :
    (v.enqueued k x).queue addrbase = v.queue addrbase ++ [addrbase + x.toNat] := by
  have last : v.taken + (v.filled - v.taken) = v.filled := by omega
  simp only [queue, enqueued, Nat.succ_sub ordered, List.range'_concat, List.map_append,
    Nat.one_mul, last,
    List.map_cons, Function.update_self, List.map_nil, List.append_cancel_right_eq,
    List.map_inj_left]
  intro q member
  have below : q < v.filled := by
    have := List.mem_range'_1.mp member
    omega
  rw [Function.update_of_ne (Nat.ne_of_lt below)]

theorem View.queue_dequeued (v : View) (addrbase : Nat) (stored : v.taken < v.filled) :
    v.queue addrbase =
      (addrbase + (v.value v.taken).toNat) :: v.dequeued.queue addrbase := by
  have split : v.filled - v.taken = (v.filled - (v.taken + 1)) + 1 := by omega
  simp only [queue, dequeued]
  rw [split, List.range'_succ]
  simp

theorem View.queue_empty {v : View} (empty : v.taken = v.filled) (addrbase : Nat) :
    v.queue addrbase = [] := by
  simp [queue, empty]

/-- A freshly initialised ring is empty and stands at position zero. -/
theorem holds_init (ring : MemRing) {k : Nat} (fits : k < 32) (addrbase : Nat)
    (memtype flag : UInt8) (pid : UInt32) :
    Holds k ⟨0, 0, 0, 0, fun _ => 0⟩
      (memRingInit ring (word (2 ^ k)) addrbase memtype flag pid) where
  size_eq := rfl
  mask_eq := by
    have positive := Nat.two_pow_pos k
    change word (2 ^ k) - 1 = _
    rw [show (1 : UInt32) = word 1 from rfl, word_sub positive]
  head_eq := rfl
  tail_eq := rfl
  tail_le := Nat.le_refl _
  taken_le := Nat.le_refl _
  head_le := Nat.le_refl _
  filled_le := Nat.zero_le _
  value_ne := by
    intro q enqueued
    simp at enqueued
  slots := by
    intro p _ below
    have below : p < 2 ^ k := by simpa using below
    have size : (word (2 ^ k)).toNat = 2 ^ k :=
      toNat_word_of_lt (Nat.pow_lt_pow_right (by decide) fits)
    rw [Nat.mod_eq_of_lt below]
    simp [memRingInit, size, initSlots_of_lt _ _ below]

end Dmm.Ring.Shmem
