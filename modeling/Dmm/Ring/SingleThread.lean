import Dmm.Ring.Data
import Dmm.Lib.Fifo

/-!
# The single-thread rings

`SPSC_ST` rings keep two free-running 32-bit positions and test for a full ring by
`prod.head >= size + cons.tail`. The sum wraps before the head does: from then on the test refuses
every element, so the head never wraps, and the ring is a bounded queue exactly as long as no
element is enqueued after 2³² - size have been dequeued.
-/

namespace Dmm.Ring.SingleThread

open Dmm.Word Dmm.Fifo

/-- How a flavour keeps an element in a slot. -/
structure Cells (α : Type) where
  read : RingData → α
  write : UInt32 → α → RingData
  clear : UInt32 → RingData → RingData
  read_write : ∀ pos x, read (write pos x) = x

/-- Shared memory: an element is its offset from `Addrbase`, stored with the position. -/
def shmemCells : Cells (BitVec 40) where
  read d := d.val
  write pos x := ⟨x, verOf pos⟩
  clear pos _ := ⟨0, verOf pos⟩
  read_write _ _ := rfl

/-- Process-local: an element is a pointer, and what is dequeued stays in its slot. -/
def nshmemCells : Cells (BitVec 64) where
  read d := d.dataL
  write _ x := .ofDataL x
  clear _ d := d
  read_write _ x := RingData.dataL_ofDataL x

variable {α : Type}

/-- The ring with an element at its head. -/
def advanceHead (cells : Cells α) (x : α) (r : MemRing) : MemRing :=
  { r.setSlot r.prodHead (cells.write r.prodHead x) with prodHead := r.prodHead + 1 }

/-- Enqueuing, for both flavours. -/
def enqueue (cells : Cells α) (x : α) (r : MemRing) : Reply α × MemRing :=
  if r.prodHead ≥ r.size + r.consTail then (⟨0, []⟩, r) else (⟨1, []⟩, advanceHead cells x r)

/-- The ring without the element at its tail. -/
def advanceTail (cells : Cells α) (r : MemRing) : MemRing :=
  { r.setSlot r.consTail (cells.clear r.consTail (r.slot r.consTail)) with
    consTail := r.consTail + 1 }

/-- The loop of dequeuing up to `n` elements, for both flavours. -/
def dequeueLoop (cells : Cells α) : Nat → MemRing → List α × MemRing
  | 0, r => ([], r)
  | n + 1, r =>
    if r.prodHead = r.consTail then ([], r) else
    let (xs, r') := dequeueLoop cells n (advanceTail cells r)
    (cells.read (r.slot r.consTail) :: xs, r')

/-- Dequeuing up to `n` elements returns how many there were. -/
def dequeuev (cells : Cells α) (n : UInt32) (r : MemRing) : Reply α × MemRing :=
  ((.gave (dequeueLoop cells n.toNat r).1), (dequeueLoop cells n.toNat r).2)

/-- `nsfw_shmem_ring_singlethread_enqueue` -/
def shmemEnqueue : BitVec 40 → MemRing → Reply (BitVec 40) × MemRing := enqueue shmemCells

/-- `nsfw_shmem_ring_singlethread_dequeuev` -/
def shmemDequeuev : UInt32 → MemRing → Reply (BitVec 40) × MemRing := dequeuev shmemCells

/-- `nsfw_shmem_ring_singlethread_dequeue` -/
def shmemDequeue (r : MemRing) : Reply (BitVec 40) × MemRing :=
  if r.prodHead = r.consTail then (⟨0, []⟩, r) else
  (⟨1, [(r.slot r.consTail).val]⟩,
    { r.setSlot r.consTail ⟨0, verOf r.consTail⟩ with consTail := r.consTail + 1 })

/-- `nsfw_nshmem_ring_singlethread_enqueue` -/
def nshmemEnqueue : BitVec 64 → MemRing → Reply (BitVec 64) × MemRing := enqueue nshmemCells

/-- `nsfw_nshmem_ring_singlethread_dequeuev` -/
def nshmemDequeuev : UInt32 → MemRing → Reply (BitVec 64) × MemRing := dequeuev nshmemCells

/-- `nsfw_nshmem_ring_singlethread_dequeue` -/
def nshmemDequeue (r : MemRing) : Reply (BitVec 64) × MemRing := nshmemDequeuev 1 r

/-- A call on a ring. -/
inductive Call (α : Type)
  | enqueue (x : α)
  | dequeue
  | dequeuev (n : UInt32)

/-- The queue operation it stands for. -/
def Call.op : Call α → Op α
  | .enqueue x => .put x
  | .dequeue => .take 1
  | .dequeuev n => .take n.toNat

/-- A call on a shared-memory ring. -/
def shmemCall : Call (BitVec 40) → MemRing → Reply (BitVec 40) × MemRing
  | .enqueue x => shmemEnqueue x
  | .dequeue => shmemDequeue
  | .dequeuev n => shmemDequeuev n

/-- A call on a process-local ring. -/
def nshmemCall : Call (BitVec 64) → MemRing → Reply (BitVec 64) × MemRing
  | .enqueue x => nshmemEnqueue x
  | .dequeue => nshmemDequeue
  | .dequeuev n => nshmemDequeuev n

/-- The calls of a run with their replies. -/
def replies (call : Call α → MemRing → Reply α × MemRing) :
    MemRing → List (Call α) → List (Op α × Reply α)
  | _, [] => []
  | r, c :: calls => (c.op, (call c r).1) :: replies call (call c r).2 calls

/-- No element is enqueued once 2³² - size have been dequeued, given how many have been and how
many are stored. -/
def Within (k : Nat) : Nat → Nat → List (Call α) → Prop
  | _, _, [] => True
  | gone, stored, .enqueue _ :: calls =>
    gone + 2 ^ k < 2 ^ 32 ∧ Within k gone (min (stored + 1) (2 ^ k)) calls
  | gone, stored, .dequeue :: calls => Within k (gone + min 1 stored) (stored - 1) calls
  | gone, stored, .dequeuev n :: calls =>
    Within k (gone + min n.toNat stored) (stored - n.toNat) calls

/-- A ring of which `gone` elements have been dequeued holds the queue `q`. -/
structure Holds (cells : Cells α) (k gone : Nat) (q : List α) (r : MemRing) : Prop where
  size : r.size = word (2 ^ k)
  mask : r.mask = word (2 ^ k - 1)
  head : r.prodHead = word (gone + q.length)
  tail : r.consTail = word gone
  low : gone + q.length < 2 ^ 32
  fits : q.length ≤ 2 ^ k
  stored : ∀ i, (h : i < q.length) → cells.read (r.ring ((gone + i) % 2 ^ k)) = q[i]

variable {cells : Cells α} {k gone : Nat} {q : List α} {r : MemRing}

theorem Holds.index (holds : Holds cells k gone q r) (small : k < 32) (p : Nat) :
    (word p &&& r.mask).toNat = p % 2 ^ k := by
  rw [holds.mask]
  exact toNat_and_word p (by omega)

/-- The full test: right while the sum does not wrap, and always "full" when it does. -/
theorem Holds.full_iff (holds : Holds cells k gone q r) (small : k < 32) :
    r.prodHead ≥ r.size + r.consTail ↔ q.length = 2 ^ k ∨ 2 ^ 32 ≤ gone + 2 ^ k := by
  obtain ⟨size, -, head, tail, low, fits, -⟩ := holds
  have power : 2 ^ k < 2 ^ 32 := Nat.pow_lt_pow_right (by decide) small
  rw [size, head, tail, word_add, ge_iff_le, UInt32.le_iff_toNat_le, toNat_word, toNat_word]
  omega

theorem Holds.empty_iff (holds : Holds cells k gone q r) : r.prodHead = r.consTail ↔ q = [] := by
  have low := holds.low
  rw [holds.head, holds.tail, word_inj (by omega) (by omega), ← List.length_eq_zero_iff]
  omega

/-- Enqueuing appends. -/
theorem Holds.enqueue (holds : Holds cells k gone q r) (small : k < 32) (x : α)
    (low : gone + 2 ^ k < 2 ^ 32) :
    ∃ q' reply r', SingleThread.enqueue cells x r = (reply, r') ∧
      Step (2 ^ k) q (.put x) reply q' ∧ Holds cells k gone q' r' ∧
      q'.length = min (q.length + 1) (2 ^ k) := by
  have fits := holds.fits
  by_cases full : q.length = 2 ^ k
  · refine ⟨q, ⟨0, []⟩, r, ?_, .refused full.ge, holds, by omega⟩
    rw [SingleThread.enqueue, if_pos ((holds.full_iff small).mpr (.inl full))]
  · refine ⟨q ++ [x], ⟨1, []⟩, advanceHead cells x r, ?_, .accepted (by omega), ?_, by simp; omega⟩
    · rw [SingleThread.enqueue, if_neg (by rw [holds.full_iff small]; omega)]
    · have index := holds.index small
      obtain ⟨size, mask, head, tail, -, -, stored⟩ := holds
      refine ⟨size, mask, ?_, tail, by simp; omega, by simp; omega, ?_⟩
      · simp only [advanceHead, head, word_succ, List.length_append, List.length_singleton,
          Nat.add_assoc]
      · intro i below
        simp only [advanceHead, MemRing.setSlot_ring, head, index]
        rw [List.length_append, List.length_singleton] at below
        by_cases new : i = q.length
        · simp [new, cells.read_write]
        · have apart := mod_ne_of_window (m := 2 ^ k) (a := gone + i) (p := gone + q.length)
            (by omega) (by omega)
          rw [Function.update_of_ne (Ne.symm apart), stored i (by omega),
            List.getElem_append_left]

/-- Dequeuing takes the oldest elements. -/
theorem Holds.dequeueLoop (holds : Holds cells k gone q r) (small : k < 32) (n : Nat) :
    (SingleThread.dequeueLoop cells n r).1 = q.take n ∧
      Holds cells k (gone + min n q.length) (q.drop n) (SingleThread.dequeueLoop cells n r).2 := by
  induction n generalizing gone q r with
  | zero => simpa [SingleThread.dequeueLoop] using holds
  | succ n ih =>
    rw [SingleThread.dequeueLoop]
    by_cases empty : q = []
    · rw [if_pos (holds.empty_iff.mpr empty)]
      subst empty
      simpa using holds
    · rw [if_neg (mt holds.empty_iff.mp empty)]
      obtain ⟨x, rest, rfl⟩ := List.exists_cons_of_ne_nil empty
      have index := holds.index small
      have next : Holds cells k (gone + 1) rest (advanceTail cells r) := by
        obtain ⟨size, mask, head, tail, low, fits, stored⟩ := holds
        rw [List.length_cons] at head low fits
        refine ⟨size, mask, ?_, ?_, by omega, by omega, ?_⟩
        · rw [Nat.add_assoc, Nat.add_comm 1]
          exact head
        · simp only [advanceTail, tail, word_succ]
        · intro i below
          have apart := mod_ne_of_window (m := 2 ^ k) (a := gone) (p := gone + (i + 1))
            (by omega) (by omega)
          have old := stored (i + 1) (by simpa using below)
          simp only [advanceTail, MemRing.setSlot_ring, tail, index]
          rw [Nat.add_assoc, Nat.add_comm 1, Function.update_of_ne apart]
          exact old
      obtain ⟨items, after⟩ := ih next
      have first : cells.read (r.slot r.consTail) = x := by
        have := holds.stored 0 (by simp)
        rwa [MemRing.slot, holds.tail, index]
      refine ⟨by simp [first, items], ?_⟩
      rw [List.drop_succ_cons, List.length_cons, show gone + min (n + 1) (rest.length + 1) =
        gone + 1 + min n rest.length by omega]
      exact after

theorem shmemDequeue_eq (r : MemRing) : shmemDequeue r = shmemDequeuev 1 r := by
  simp only [shmemDequeue, shmemDequeuev, dequeuev, show (1 : UInt32).toNat = 1 from rfl,
    SingleThread.dequeueLoop]
  split
  · simp [Reply.gave, int32]
  · simp only [Reply.gave_one]
    rfl

/-- The replies are those of a queue exactly if no element comes too late. -/
theorem Holds.explains_iff {call : Call α → MemRing → Reply α × MemRing}
    (enqueues : ∀ x, call (.enqueue x) = SingleThread.enqueue cells x)
    (dequeues : call .dequeue = SingleThread.dequeuev cells 1)
    (dequeuevs : ∀ n, call (.dequeuev n) = SingleThread.dequeuev cells n) (small : k < 32)
    (calls : List (Call α)) (holds : Holds cells k gone q r) :
    (∃ q', Explains (2 ^ k) q (replies call r calls) q') ↔ Within k gone q.length calls := by
  induction calls generalizing gone q r with
  | nil => exact iff_of_true ⟨q, .nil⟩ trivial
  | cons c calls ih =>
    have taking : ∀ n : UInt32, call c = SingleThread.dequeuev cells n → c.op = .take n.toNat →
        ((∃ q', Explains (2 ^ k) q (replies call r (c :: calls)) q') ↔
          Within k (gone + min n.toNat q.length) (q.length - n.toNat) calls) := by
      intro n same op
      obtain ⟨items, after⟩ := holds.dequeueLoop small n.toNat
      rw [← List.length_drop, ← ih after, replies, op, same]
      constructor
      · rintro ⟨q', _ | ⟨step, rest⟩⟩
        generalize (SingleThread.dequeuev cells n r).1 = reply at step
        cases step
        exact ⟨q', rest⟩
      · rintro ⟨q', rest⟩
        refine ⟨q', .cons ?_ rest⟩
        simp only [SingleThread.dequeuev, items]
        exact .taken
    cases c with
    | dequeue => exact taking 1 dequeues rfl
    | dequeuev n => exact taking n (dequeuevs n) rfl
    | enqueue x =>
      rw [Within, replies, enqueues]
      by_cases low : gone + 2 ^ k < 2 ^ 32
      · obtain ⟨q₁, reply, r', step, does, after, length⟩ := holds.enqueue small x low
        rw [step, ← length, ← ih after]
        constructor
        · rintro ⟨q', _ | ⟨step', rest⟩⟩
          refine ⟨low, q', ?_⟩
          cases step' <;> cases does <;> exact rest
        · rintro ⟨-, q', rest⟩
          exact ⟨q', .cons does rest⟩
      · -- the test refuses an element although there is room
        have refused : SingleThread.enqueue cells x r = (⟨0, []⟩, r) := by
          rw [SingleThread.enqueue, if_pos ((holds.full_iff small).mpr (.inr (by omega)))]
        have room : q.length < 2 ^ k := by
          have := holds.low
          omega
        refine iff_of_false ?_ fun within => low within.1
        rintro ⟨q', explained⟩
        rw [refused] at explained
        obtain _ | ⟨step, -⟩ := explained
        cases step
        omega

theorem holds_init (cells : Cells α) (ring : MemRing) (addrbase : Nat)
    (memtype flag : UInt8) (pid : UInt32) :
    Holds cells k 0 [] (memRingInit ring (word (2 ^ k)) addrbase memtype flag pid) := by
  refine ⟨rfl, ?_, rfl, rfl, by simp, by simp, fun i below => absurd below (Nat.not_lt_zero i)⟩
  exact word_sub Nat.one_le_two_pow

/-- For every power-of-two size and every sequence of calls, the replies of a single-thread ring
are those of a queue of that capacity exactly if no element is enqueued once 2³² - size elements
have been dequeued. -/
theorem singlethread_fifo_iff (k : Fin 32) (ring : MemRing) (addrbase : Nat) (memtype flag : UInt8)
    (pid : UInt32) :
    (∀ calls, (∃ q, Explains (2 ^ k.val) [] (replies shmemCall
        (memRingInit ring (word (2 ^ k.val)) addrbase memtype flag pid) calls) q) ↔
      Within k 0 0 calls) ∧
    ∀ calls, (∃ q, Explains (2 ^ k.val) [] (replies nshmemCall
        (memRingInit ring (word (2 ^ k.val)) addrbase memtype flag pid) calls) q) ↔
      Within k 0 0 calls :=
  ⟨fun calls => (holds_init shmemCells ring addrbase memtype flag pid).explains_iff
      (fun _ => rfl) (funext shmemDequeue_eq) (fun _ => rfl) k.isLt calls,
    fun calls => (holds_init nshmemCells ring addrbase memtype flag pid).explains_iff
      (fun _ => rfl) rfl (fun _ => rfl) k.isLt calls⟩

theorem within_pairs {x : α} {rest : List (Call α)} (n gone : Nat)
    (within : Within k gone 0 ((List.replicate n [.enqueue x, .dequeue]).flatten ++ rest)) :
    Within k (gone + n) 0 rest := by
  induction n generalizing gone with
  | zero => simpa using within
  | succ n ih =>
    have one : min 1 (2 ^ k) = 1 := Nat.min_eq_left Nat.one_le_two_pow
    simp only [List.replicate_succ, List.flatten_cons, List.cons_append, List.nil_append, Within,
      Nat.zero_add, one, Nat.min_self, Nat.sub_self] at within
    rw [← Nat.add_assoc, Nat.add_right_comm]
    exact ih (gone + 1) within.2

/-- A ring of size 1 refuses an element although it is empty, once 2³² - 1 have come and gone. -/
theorem empty_ring_refuses : ¬ ∃ q, Explains 1 [] (replies shmemCall
    (memRingInit default 1 0 0 0 0)
    ((List.replicate (2 ^ 32 - 1) [.enqueue 1, .dequeue]).flatten ++ [.enqueue 1])) q := by
  have holds := holds_init (k := 0) shmemCells default 0 0 0 0
  rw [show (1 : Nat) = 2 ^ 0 from rfl, show (1 : UInt32) = word (2 ^ 0) from rfl,
    holds.explains_iff (fun _ => rfl) (funext shmemDequeue_eq) (fun _ => rfl) (by decide)]
  intro within
  have late := (within_pairs (2 ^ 32 - 1) 0 within).1
  omega

end Dmm.Ring.SingleThread
