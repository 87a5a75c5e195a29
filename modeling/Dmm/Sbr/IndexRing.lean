import Dmm.Lib.Fifo
import Dmm.Ring.ShmemMpmc

/-!
# The pool of socket descriptors

The index ring keeps descriptors in versioned nodes. Its head and tail are hints: a call scans on
from them, and moves them only at positions whose bits 0 and 4 are zero, to that very position. The
hints therefore lag by at most 18 positions, which a scan over `mask - 1` positions covers in every
ring of 32 nodes or more. The pool is filled to exactly the size of the ring.

Positions are counted from 2³² on, so that the node versions of an unused ring are positions too.
-/

namespace Dmm.Sbr

open Dmm.Machine Dmm.Word Dmm.Fifo

/-! ## The ring -/

/-- `sbr_index_node`; the compare-and-swap takes both fields at once. -/
structure Node where
  ver : UInt32
  val : UInt32
  deriving DecidableEq, Repr

/-- `sbr_index_ring` -/
structure IndexRing where
  head : UInt32
  tail : UInt32
  num : UInt32
  mask : UInt32
  nodes : Nat → Node

/-- `nodes[pos & mask]` -/
def IndexRing.node (r : IndexRing) (pos : UInt32) : Node := r.nodes (pos &&& r.mask).toNat

/-- The ring with a node exchanged. -/
def IndexRing.setNode (r : IndexRing) (pos : UInt32) (n : Node) : IndexRing :=
  { r with nodes := Function.update r.nodes (pos &&& r.mask).toNat n }

/-- `sbr_init_index_ring` -/
def sbrInitIndexRing (num : UInt32) : IndexRing :=
  ⟨0, 0, num, num - 1, fun loop => ⟨UInt32.ofNat loop - num, 0⟩⟩

/-- `sbr_create_index_ring`, when there is memory. -/
def sbrCreateIndexRing (align32pow2 : UInt32 → UInt32) (num : UInt32) : IndexRing :=
  sbrInitIndexRing (align32pow2 (num + 1))

/-- A call on the ring. -/
inductive Call
  | enqueue (val : UInt32)
  | dequeue
  deriving DecidableEq, Repr

/-- A call that has not read anything, or one at the start of its loop. -/
inductive Pc
  | start (c : Call)
  | put (val cur : UInt32)
  | take (cur : UInt32)
  deriving DecidableEq, Repr

/-- The hint after an operation at `cur`. -/
def hintAfter (hint cur : UInt32) : UInt32 :=
  if 0x80000000 < hint - cur ∧ cur &&& 0x11 = 0 then cur else hint

/-- The position a scan goes to. -/
def scanOn (r : IndexRing) (cur hint : UInt32) : UInt32 :=
  if cur - hint < r.mask - 1 then cur + 1 else hint

/-- The exchange of an enqueue. -/
def tryPut (val cur : UInt32) (r : IndexRing) : (Pc ⊕ Reply UInt32) × IndexRing :=
  if r.node cur = ⟨cur - r.num, 0⟩ then
    (.inr ⟨1, []⟩, { r.setNode cur ⟨cur, val⟩ with head := hintAfter r.head cur })
  else (.inl (.put val (scanOn r cur r.head)), r)

/-- The exchange of a dequeue. -/
def tryTake (cur : UInt32) (r : IndexRing) : (Pc ⊕ Reply UInt32) × IndexRing :=
  if (r.node cur).ver = cur ∧ (r.node cur).val ≠ 0 then
    (.inr ⟨1, [(r.node cur).val]⟩, { r.setNode cur ⟨cur, 0⟩ with tail := hintAfter r.tail cur })
  else (.inl (.take (scanOn r cur r.tail)), r)

/-- `sbr_index_ring_enqueue` and `sbr_index_ring_dequeue`, one turn of the loop a step. -/
def step : Pc → IndexRing → (Pc ⊕ Reply UInt32) × IndexRing
  | .start (.enqueue val), r => if val = 0 then (.inr ⟨-1, []⟩, r) else (.inl (.put val r.head), r)
  | .start .dequeue, r => (.inl (.take r.tail), r)
  | .put val cur, r =>
    if r.tail + r.num - cur = 0 then
      if (r.node r.tail).val = 0 then tryPut val cur { r with tail := r.tail + 1 }
      else (.inr ⟨0, []⟩, r)
    else tryPut val cur r
  | .take cur, r =>
    if cur = r.head then
      if (r.node r.head).val ≠ 0 then tryTake cur { r with head := r.head + 1 }
      else (.inr ⟨0, []⟩, r)
    else tryTake cur r

/-- The two functions as code. -/
def indexRing : Code Call Pc IndexRing (Reply UInt32) Unit where
  start := .start
  step := step
  event _ _ := none

/-- The queue operation of a call. -/
def Call.op : Call → Op UInt32
  | .enqueue val => .put val
  | .dequeue => .take 1

/-- Values are not zero. -/
def NonZero (c : Call) (_ : IndexRing) : Prop := c ≠ .enqueue 0

/-! ## Descriptors -/

/-- `SBR_MAX_FD_NUM` -/
def sbrMaxFdNum : Nat := 8192

/-- The loop of `sbr_init_sk`, from the descriptor `i` on, with what it returns. -/
inductive InitSk : Nat → IndexRing → Int → IndexRing → Prop
  | done {i r} : sbrMaxFdNum < i → InitSk i r 0 r
  | failed {i r res r'} : i ≤ sbrMaxFdNum → indexRing.Calls (.enqueue (word i)) r res r' →
      res.ret ≠ 1 → InitSk i r (-1) r'
  | next {i r res r' ret r''} : i ≤ sbrMaxFdNum → indexRing.Calls (.enqueue (word i)) r res r' →
      res.ret = 1 → InitSk (i + 1) r' ret r'' → InitSk i r ret r''

/-- The pool after `sbr_init_sk` and any run of `sbr_malloc_sk` and `sbr_free_sk` in which a
descriptor is freed only while it is held: the ring and the descriptors held. -/
inductive SkPool (ring : IndexRing) : IndexRing → List UInt32 → Prop
  | init {r} : InitSk 1 ring 0 r → SkPool ring r []
  | malloc {r held fd r'} : SkPool ring r held → indexRing.Calls .dequeue r ⟨1, [fd]⟩ r' →
      SkPool ring r' (fd :: held)
  | failed {r held res r'} : SkPool ring r held → indexRing.Calls .dequeue r res r' →
      res.ret ≠ 1 → SkPool ring r' held
  | free {r held fd res r'} : SkPool ring r held → fd ∈ held →
      indexRing.Calls (.enqueue fd) r res r' → SkPool ring r' (held.erase fd)

/-! ## Hints -/

/-- The positions a hint may be moved to. -/
def Marks (p : Nat) : Prop := p % 32 < 16 ∧ p % 2 = 0

instance (p : Nat) : Decidable (Marks p) := inferInstanceAs (Decidable (_ ∧ _))

theorem and_eleven_eq_zero (p : Nat) : word p &&& 0x11 = 0 ↔ Marks p := by
  have low := toNat_and_word p (show 5 ≤ 32 by decide)
  have split : word p &&& 0x11 = (word p &&& word (2 ^ 5 - 1)) &&& 0x11 := by
    rw [UInt32.and_assoc]
    rfl
  have all : ∀ m < 32, UInt32.ofNat m &&& 0x11 = 0 ↔ m < 16 ∧ m % 2 = 0 := by decide
  rw [split, ← word_toNat (word p &&& word (2 ^ 5 - 1)), low, word,
    all (p % 2 ^ 5) (Nat.mod_lt _ (by decide)), Marks]
  omega

/-- A hint lags by at most 18 positions when it has passed no position it moves to. -/
theorem lag_le {hint pos : Nat} (quiet : ∀ p, hint < p → p < pos → ¬ Marks p) :
    pos ≤ hint + 18 := by
  by_contra far
  by_cases low : (hint + 1) % 32 ≤ 14
  · exact quiet (hint + 1 + (hint + 1) % 2) (by omega) (by omega) ⟨by omega, by omega⟩
  · exact quiet (hint + 1 + (32 - (hint + 1) % 32)) (by omega) (by omega) ⟨by omega, by omega⟩

/-- The hint after an operation at a position it has not passed. -/
def movedTo (hint pos : Nat) : Nat := if hint < pos ∧ Marks pos then pos else hint

theorem hintAfter_word {hint pos : Nat} (after : hint ≤ pos) (near : pos ≤ hint + 18) :
    hintAfter (word hint) (word pos) = word (movedTo hint pos) := by
  simp only [hintAfter, movedTo, word_behind (show hint < pos + 2 ^ 31 by omega)
    (show pos < hint + 2 ^ 31 by omega), and_eleven_eq_zero]
  split <;> rfl

/-! ## The queue a ring stands for -/

/-- The ring holds the queue `q`, whose oldest element is at position `first`; the hints stand at
`h` and `t`. -/
structure Holds (k : Nat) (q : List UInt32) (first h t : Nat) (r : IndexRing) : Prop where
  num : r.num = word (2 ^ k)
  mask : r.mask = word (2 ^ k - 1)
  head : r.head = word h
  tail : r.tail = word t
  low : 2 ^ 32 ≤ t
  tail_le : t ≤ first
  le_head : first ≤ h
  head_le : h ≤ first + q.length
  room : first + q.length ≤ t + 2 ^ k
  stored : ∀ i, (lt : i < q.length) → r.nodes ((first + i) % 2 ^ k) = ⟨word (first + i), q[i]⟩
  free : ∀ p < first, first + q.length ≤ p + 2 ^ k → r.nodes (p % 2 ^ k) = ⟨word p, 0⟩
  nonzero : ∀ x ∈ q, x ≠ 0
  headLag : ∀ p, h < p → p < first + q.length → ¬ Marks p
  tailLag : ∀ p, t < p → p < first → ¬ Marks p

variable {k : Nat} {q : List UInt32} {first h t : Nat} {r r' : IndexRing} {val x : UInt32}
  {res : Reply UInt32}

theorem holds_init (small : k < 32) :
    Holds k [] (2 ^ 32) (2 ^ 32) (2 ^ 32) (sbrInitIndexRing (word (2 ^ k))) := by
  have positive := Nat.two_pow_pos k
  have below : 2 ^ k ≤ 2 ^ 31 := Nat.pow_le_pow_right (by decide) (by omega)
  refine ⟨rfl, ?_, rfl, rfl, le_rfl, le_rfl, le_rfl, le_rfl, by simp, by simp, ?_, by simp,
    by grind, by grind⟩
  · exact word_sub (q := 1) positive
  · intro p before after
    simp only [List.length_nil, Nat.add_zero] at after
    have dvd : 2 ^ k ∣ 2 ^ 32 := Nat.pow_dvd_pow 2 (by omega)
    have slot : p % 2 ^ k = p - (2 ^ 32 - 2 ^ k) := by
      obtain ⟨m, eq⟩ := dvd
      have split : p = p - (2 ^ 32 - 2 ^ k) + 2 ^ k * (m - 1) := by
        rw [Nat.mul_sub, ← eq]
        omega
      rw [split, Nat.add_mul_mod_self_left, Nat.mod_eq_of_lt (by omega)]
      omega
    simp only [sbrInitIndexRing, slot, Node.mk.injEq, and_true]
    rw [show UInt32.ofNat (p - (2 ^ 32 - 2 ^ k)) = word (p - (2 ^ 32 - 2 ^ k) + 2 ^ 32) from ?_,
      word_sub (by omega)]
    · congr 1
      omega
    · rw [← word_add]
      simp [word]

theorem Holds.node_word (holds : Holds k q first h t r) (small : k < 32) (p : Nat) :
    r.node (word p) = r.nodes (p % 2 ^ k) := by
  rw [IndexRing.node, holds.mask, toNat_and_word p (by omega)]

theorem Holds.setNode_nodes (holds : Holds k q first h t r) (small : k < 32) (p : Nat) (n : Node) :
    (r.setNode (word p) n).nodes = Function.update r.nodes (p % 2 ^ k) n := by
  rw [IndexRing.setNode, holds.mask, toNat_and_word p (by omega)]

theorem Holds.near (holds : Holds k q first h t r) :
    first + q.length ≤ h + 18 ∧ first ≤ t + 18 :=
  ⟨lag_le holds.headLag, lag_le holds.tailLag⟩

theorem Holds.scanOn_word (holds : Holds k q first h t r) (small : k < 32) (large : 5 ≤ k)
    {cur hint : Nat} (after : hint ≤ cur) (near : cur < hint + 18) :
    scanOn r (word cur) (word hint) = word (cur + 1) := by
  have bound : 2 ^ 5 ≤ 2 ^ k := Nat.pow_le_pow_right (by decide) large
  have below : 2 ^ k ≤ 2 ^ 31 := Nat.pow_le_pow_right (by decide) (by omega)
  have reach : (r.mask - 1).toNat = 2 ^ k - 2 := by
    rw [holds.mask, show (1 : UInt32) = word 1 from rfl, toNat_word_sub (by omega) (by omega)]
    omega
  rw [scanOn, if_pos, word_succ]
  rw [UInt32.lt_iff_toNat_lt, reach, toNat_word_sub after (by omega)]
  omega

/-- The test for a full ring, at a position up to the end of the queue. -/
theorem Holds.fullTest (holds : Holds k q first h t r) (small : k < 32) {cur : Nat}
    (after : t ≤ cur) (before : cur ≤ t + 2 ^ k) :
    r.tail + r.num - word cur = 0 ↔ cur = t + 2 ^ k := by
  have below : 2 ^ k ≤ 2 ^ 31 := Nat.pow_le_pow_right (by decide) (by omega)
  rw [holds.tail, holds.num, word_add, word_sub_eq_zero (by omega) (by omega)]
  exact eq_comm

/-- An enqueue scans from its hint to the end of the queue. -/
theorem Holds.put_scan (holds : Holds k q first h t r) (small : k < 32) (large : 5 ≤ k)
    (rest : Returns indexRing (.put val (word (first + q.length))) r res r') :
    ∀ d cur, cur + d = first + q.length → h ≤ cur → Returns indexRing (.put val (word cur)) r res r'
  | 0, cur, arrived, _ => by rwa [← arrived] at rest
  | d + 1, cur, distance, after => by
    have := holds.near
    have := holds.tail_le
    have := holds.le_head
    have := holds.room
    refine .next _ _ ?_ (holds.put_scan small large rest d (cur + 1) (by omega) (by omega))
    have notFull : ¬ r.tail + r.num - word cur = 0 := by
      rw [holds.fullTest small (by omega) (by omega)]
      omega
    have stored := holds.stored (cur - first) (by omega)
    rw [show first + (cur - first) = cur by omega] at stored
    have occupied : ¬ r.node (word cur) = ⟨word cur - r.num, 0⟩ := by
      rw [holds.node_word small, stored]
      intro same
      exact holds.nonzero _ (List.getElem_mem _) (congrArg Node.val same)
    simp only [indexRing, step, if_neg notFull, tryPut, if_neg occupied, holds.head,
      holds.scanOn_word small large after (by omega)]

/-- A dequeue scans from its hint to the oldest element. -/
theorem Holds.take_scan (holds : Holds k q first h t r) (small : k < 32) (large : 5 ≤ k)
    (rest : Returns indexRing (.take (word first)) r res r') :
    ∀ d cur, cur + d = first → t ≤ cur → Returns indexRing (.take (word cur)) r res r'
  | 0, cur, arrived, _ => by rwa [← arrived] at rest
  | d + 1, cur, distance, after => by
    have := holds.near
    have := holds.le_head
    have := holds.head_le
    have := holds.room
    have below : 2 ^ k ≤ 2 ^ 31 := Nat.pow_le_pow_right (by decide) (by omega)
    refine .next _ _ ?_ (holds.take_scan small large rest d (cur + 1) (by omega) (by omega))
    have before : ¬ word cur = r.head := by
      rw [holds.head, word_inj (by omega) (by omega)]
      omega
    have empty : (r.node (word cur)).val = 0 := by
      rw [holds.node_word small, holds.free cur (by omega) (by omega)]
    simp only [indexRing, step, if_neg before, tryTake, empty, ne_eq, not_true, and_false, if_false,
      holds.tail, holds.scanOn_word small large after (by omega)]

theorem Holds.bumpTail (holds : Holds k q first h t r) (behind : t < first) :
    Holds k q first h (t + 1) { r with tail := r.tail + 1 } :=
  { holds with
    tail := by simp [holds.tail]
    low := by have := holds.low; omega
    tail_le := behind
    room := by have := holds.room; omega
    tailLag := fun p after => holds.tailLag p (by omega) }

theorem Holds.bumpHead (holds : Holds k q first h t r) (behind : h < first + q.length) :
    Holds k q first (h + 1) t { r with head := r.head + 1 } :=
  { holds with
    head := by simp [holds.head]
    le_head := by have := holds.le_head; omega
    head_le := behind
    headLag := fun p after => holds.headLag p (by omega) }

/-- An element is put at the end of the queue. -/
theorem Holds.put (holds : Holds k q first h t r) (small : k < 32)
    (free : first + q.length < t + 2 ^ k) (value : val ≠ 0) :
    tryPut val (word (first + q.length)) r = (.inr ⟨1, []⟩,
      { r.setNode (word (first + q.length)) ⟨word (first + q.length), val⟩ with
        head := hintAfter r.head (word (first + q.length)) }) ∧
    Holds k (q ++ [val]) first (movedTo h (first + q.length)) t
      { r.setNode (word (first + q.length)) ⟨word (first + q.length), val⟩ with
        head := hintAfter r.head (word (first + q.length)) } := by
  obtain ⟨num, mask, head, tail, low, tail_le, le_head, head_le, room, stored, free', nonzero,
    headLag, tailLag⟩ := id holds
  have near := holds.near.1
  have positive := Nat.two_pow_pos k
  have below : 2 ^ k ≤ 2 ^ 31 := Nat.pow_le_pow_right (by decide) (by omega)
  constructor
  · have slot := free' (first + q.length - 2 ^ k) (by omega) (by omega)
    rw [← Nat.mod_eq_sub_mod (by omega : 2 ^ k ≤ first + q.length)] at slot
    rw [tryPut, if_pos]
    rw [holds.node_word small, slot, num, word_sub (by omega)]
  · refine ⟨num, mask, ?_, tail, low, tail_le, ?_, ?_, ?_, ?_, ?_, ?_, ?_, tailLag⟩
    · rw [head]
      exact hintAfter_word head_le near
    · grind [movedTo]
    · grind [movedTo]
    · grind
    · intro i lt
      simp only [holds.setNode_nodes small, Function.update_apply]
      by_cases last : i = q.length
      · simp [last]
      · have inside : i < q.length := by grind
        rw [if_neg (mod_ne_of_window (by omega) (by omega)).symm, stored i inside,
          List.getElem_append_left inside]
    · intro p before after
      simp only [List.length_append, List.length_singleton] at after
      simp only [holds.setNode_nodes small, Function.update_apply]
      rw [if_neg (mod_ne_of_window (by omega) (by omega)).symm, free' p before (by omega)]
    · grind
    · grind [movedTo]

/-- The oldest element is taken. -/
theorem Holds.take (holds : Holds k (x :: q) first h t r) (small : k < 32) (ahead : first < h) :
    tryTake (word first) r = (.inr ⟨1, [x]⟩,
      { r.setNode (word first) ⟨word first, 0⟩ with tail := hintAfter r.tail (word first) }) ∧
    Holds k q (first + 1) h (movedTo t first)
      { r.setNode (word first) ⟨word first, 0⟩ with tail := hintAfter r.tail (word first) } := by
  obtain ⟨num, mask, head, tail, low, tail_le, le_head, head_le, room, stored, free', nonzero,
    headLag, tailLag⟩ := id holds
  have near := holds.near.2
  have oldest := stored 0 (by simp)
  simp only [Nat.add_zero, List.getElem_cons_zero] at oldest
  simp only [List.length_cons] at head_le room stored free' headLag
  constructor
  · have value : x ≠ 0 := nonzero x (by simp)
    simp [tryTake, holds.node_word small, oldest, value]
  · refine ⟨num, mask, head, ?_, ?_, ?_, ahead, by omega, ?_, ?_, ?_, ?_, ?_, ?_⟩
    · rw [tail]
      exact hintAfter_word tail_le near
    · grind [movedTo]
    · grind [movedTo]
    · grind [movedTo]
    · intro i lt
      have next := stored (i + 1) (by omega)
      simp only [holds.setNode_nodes small, Function.update_apply]
      rw [if_neg (mod_ne_of_window (by omega) (by omega)), Nat.add_right_comm, Nat.add_assoc, next]
      simp
    · intro p before after
      simp only [holds.setNode_nodes small, Function.update_apply]
      by_cases last : p = first
      · simp [last]
      · rw [if_neg (mod_ne_of_window (by omega) (by omega)).symm, free' p (by omega) (by omega)]
    · grind
    · grind
    · grind [movedTo]

/-! ## Calls -/

/-- The queue and the ring of a call, wherever the hints are. -/
def Rep (k : Nat) (q : List UInt32) (r : IndexRing) : Prop := ∃ first h t, Holds k q first h t r

/-- An enqueue appends its value when there is room, and else returns zero. -/
theorem Rep.enqueue (rep : Rep k q r) (small : k < 32) (large : 5 ≤ k) (value : val ≠ 0) :
    if q.length < 2 ^ k then
      ∃ r', indexRing.Calls (.enqueue val) r ⟨1, []⟩ r' ∧ Rep k (q ++ [val]) r'
    else indexRing.Calls (.enqueue val) r ⟨0, []⟩ r := by
  obtain ⟨first, h, t, holds⟩ := rep
  have := holds.tail_le
  have := holds.le_head
  have := holds.head_le
  have room := holds.room
  -- what the turn at the end of the queue does decides the call
  have call : ∀ res r', Returns indexRing (.put val (word (first + q.length))) r res r' →
      indexRing.Calls (.enqueue val) r res r' := by
    intro res r' rest
    refine .next (.put val (word h)) r (by simp [indexRing, step, value, holds.head]) ?_
    exact holds.put_scan small large rest (first + q.length - h) h (by omega) le_rfl
  have test := holds.fullTest small (show t ≤ first + q.length by omega) room
  by_cases atTail : first + q.length = t + 2 ^ k
  · have slot : r.node r.tail = r.nodes (t % 2 ^ k) := by rw [holds.tail, holds.node_word small]
    by_cases lags : t < first
    · have empty : (r.node r.tail).val = 0 := by rw [slot, holds.free t lags (by omega)]
      obtain ⟨go, holds'⟩ := (holds.bumpTail lags).put small (by omega) value
      rw [if_pos (by omega)]
      refine ⟨_, call _ _ (.done ?_), _, _, _, holds'⟩
      simp only [indexRing, step, if_pos (test.mpr atTail), if_pos empty, go]
    · have stored := holds.stored 0 (by have := Nat.two_pow_pos k; omega)
      have occupied : ¬ (r.node r.tail).val = 0 := by
        rw [slot, show t = first + 0 by omega, stored]
        exact holds.nonzero _ (List.getElem_mem _)
      rw [if_neg (by omega)]
      refine call _ _ (.done ?_)
      simp only [indexRing, step, if_pos (test.mpr atTail), if_neg occupied]
  · obtain ⟨go, holds'⟩ := holds.put small (by omega) value
    rw [if_pos (by omega)]
    refine ⟨_, call _ _ (.done ?_), _, _, _, holds'⟩
    simp only [indexRing, step, if_neg (mt test.mp atTail), go]

/-- A dequeue takes the oldest element, and returns zero when there is none. -/
theorem Rep.dequeue (rep : Rep k q r) (small : k < 32) (large : 5 ≤ k) :
    match q with
    | [] => indexRing.Calls .dequeue r ⟨0, []⟩ r
    | x :: q => ∃ r', indexRing.Calls .dequeue r ⟨1, [x]⟩ r' ∧ Rep k q r' := by
  obtain ⟨first, h, t, holds⟩ := rep
  have := holds.tail_le
  have := holds.le_head
  have head_le := holds.head_le
  have := holds.room
  have := holds.low
  have below : 2 ^ k ≤ 2 ^ 31 := Nat.pow_le_pow_right (by decide) (by omega)
  have call : ∀ res r', Returns indexRing (.take (word first)) r res r' →
      indexRing.Calls .dequeue r res r' := by
    intro res r' rest
    refine .next (.take (word t)) r (by simp [indexRing, step, holds.tail]) ?_
    exact holds.take_scan small large rest (first - t) t (by omega) le_rfl
  have test : word first = r.head ↔ first = h := by
    rw [holds.head, word_inj (by omega) (by omega)]
  have slot : first = h → r.node r.head = r.nodes (first % 2 ^ k) := by
    rintro rfl
    rw [holds.head, holds.node_word small]
  cases q with
  | nil =>
    simp only [List.length_nil, Nat.add_zero] at head_le
    have atHead : first = h := by omega
    have free := holds.free (first - 2 ^ k) (by have := Nat.two_pow_pos k; omega) (by simp; omega)
    rw [← Nat.mod_eq_sub_mod (by omega : 2 ^ k ≤ first)] at free
    have empty : (r.node r.head).val = 0 := by rw [slot atHead, free]
    refine call _ _ (.done ?_)
    simp only [indexRing, step, if_pos (test.mpr atHead), empty, ne_eq, not_true, if_false]
  | cons x q =>
    simp only [List.length_cons] at head_le
    by_cases atHead : first = h
    · have stored := holds.stored 0 (by simp)
      have occupied : (r.node r.head).val ≠ 0 := by
        rw [slot atHead, show first = first + 0 from rfl, stored]
        exact holds.nonzero _ (List.getElem_mem _)
      obtain ⟨go, holds'⟩ := (holds.bumpHead (by simp; omega)).take small (by omega)
      refine ⟨_, call _ _ (.done ?_), _, _, _, holds'⟩
      simp only [indexRing, step, if_pos (test.mpr atHead), if_pos occupied, go]
    · obtain ⟨go, holds'⟩ := holds.take small (by omega)
      refine ⟨_, call _ _ (.done ?_), _, _, _, holds'⟩
      simp only [indexRing, step, if_neg (mt test.mp atHead), go]

/-- The ring refines the queue of its size. -/
theorem Rep.refines (rep : Rep k q r) (small : k < 32) (large : 5 ≤ k) :
    Refines indexRing Call.op NonZero (2 ^ k) r q := by
  refine refines_of_simulation (Rep k) (fun q r c rep admitted => ?_) rep
  cases c with
  | enqueue val =>
    have call := rep.enqueue small large (show val ≠ 0 from fun zero => admitted (by rw [zero]))
    by_cases room : q.length < 2 ^ k
    · rw [if_pos room] at call
      obtain ⟨r', call, rep'⟩ := call
      exact ⟨_, r', _, call, .accepted room, rep'⟩
    · rw [if_neg room] at call
      exact ⟨_, r, q, call, .refused (by omega), rep⟩
  | dequeue =>
    have call := rep.dequeue small large
    cases q with
    | nil => exact ⟨_, r, [], call, .taken, rep⟩
    | cons x q =>
      obtain ⟨r', call, rep'⟩ := call
      exact ⟨_, r', q, by rwa [← Reply.gave_one] at call, .taken, rep'⟩

/-! ## The pool -/

/-- All descriptors, in the order they are put into the pool. -/
def descriptors : List UInt32 := (List.range' 1 sbrMaxFdNum).map word

theorem descriptors_nodup : descriptors.Nodup := by
  refine List.Nodup.map_on (fun a ha b hb same => ?_) List.nodup_range'
  rw [List.mem_range'_1, sbrMaxFdNum] at ha hb
  exact (word_inj (by omega) (by omega)).mp same

theorem ne_zero_of_descriptor {fd : UInt32} (held : fd ∈ descriptors) : fd ≠ 0 := by
  obtain ⟨i, inside, rfl⟩ := List.mem_map.mp held
  rw [List.mem_range'_1, sbrMaxFdNum] at inside
  exact fun zero => absurd ((word_inj (q := 0) (by omega) (by omega)).mp zero) (by omega)

theorem length_descriptors : descriptors.length = 2 ^ 13 := by
  rw [descriptors, List.length_map, List.length_range', sbrMaxFdNum]
  rfl

/-- The rest of the loop fills the ring with the rest of the descriptors. -/
theorem InitSk.fills : ∀ n i r, i + n = sbrMaxFdNum + 1 → 1 ≤ i →
    Rep 13 ((List.range' 1 (i - 1)).map word) r → ∃ r', InitSk i r 0 r' ∧ Rep 13 descriptors r'
  | 0, i, r, last, _, rep => by
    have all : i - 1 = sbrMaxFdNum := by omega
    rw [all] at rep
    exact ⟨r, .done (by omega), rep⟩
  | n + 1, i, r, last, positive, rep => by
    have value : word i ≠ 0 := by
      refine ne_zero_of_descriptor (List.mem_map_of_mem ?_)
      rw [List.mem_range'_1]
      omega
    have call := rep.enqueue (by decide) (by decide) value
    rw [if_pos (by simp [sbrMaxFdNum] at last ⊢; omega)] at call
    obtain ⟨r', call, rep'⟩ := call
    have more : List.range' 1 (i + 1 - 1) = List.range' 1 (i - 1) ++ [i] := by
      rw [show i + 1 - 1 = i - 1 + 1 by omega, List.range'_concat]
      simp
      omega
    obtain ⟨r'', rest, rep''⟩ := InitSk.fills n (i + 1) r' (by omega) (by omega)
      (by rw [more, List.map_append]; exact rep')
    exact ⟨r'', .next (by omega) call rfl rest, rep''⟩

theorem InitSk.unique {i : Nat} {r r₁ r₂ : IndexRing} {a b : Int} (first : InitSk i r a r₁)
    (second : InitSk i r b r₂) : a = b ∧ r₁ = r₂ := by
  induction first generalizing b r₂ with
  | done past => cases second <;> first | exact ⟨rfl, rfl⟩ | omega
  | failed inside call refused =>
    cases second with
    | done past => omega
    | failed _ call' _ => exact ⟨rfl, (Returns.unique call call').2⟩
    | next _ call' taken _ =>
      obtain ⟨rfl, rfl⟩ := Returns.unique call call'
      contradiction
  | next inside call taken _ ih =>
    cases second with
    | done past => omega
    | failed _ call' refused =>
      obtain ⟨rfl, rfl⟩ := Returns.unique call call'
      contradiction
    | next _ call' _ rest =>
      obtain ⟨rfl, rfl⟩ := Returns.unique call call'
      exact ih rest

theorem Rep.putBack (rep : Rep 13 q r) {held : List UInt32} (perm : (held ++ q).Perm descriptors)
    {fd : UInt32} (isHeld : fd ∈ held) :
    ∃ r', indexRing.Calls (.enqueue fd) r ⟨1, []⟩ r' ∧ Rep 13 (q ++ [fd]) r' := by
  have value := ne_zero_of_descriptor (perm.subset (List.mem_append_left _ isHeld))
  have put := rep.enqueue (by decide) (by decide) value
  have sizes := perm.length_eq
  have some := List.length_pos_of_mem isHeld
  rw [length_descriptors, List.length_append] at sizes
  rwa [if_pos (by omega)] at put

/-- Whatever has been allocated and freed, the descriptors held and those in the ring are all of
them, each once. -/
theorem SkPool.conserves {ring : IndexRing} (empty : Rep 13 [] ring) {held : List UInt32}
    (pool : SkPool ring r held) : ∃ q, Rep 13 q r ∧ (held ++ q).Perm descriptors := by
  induction pool with
  | init filled =>
    obtain ⟨r', filled', rep⟩ := InitSk.fills sbrMaxFdNum 1 ring (by omega) le_rfl empty
    obtain ⟨-, rfl⟩ := filled.unique filled'
    exact ⟨_, rep, .refl _⟩
  | malloc _ call ih =>
    obtain ⟨q, rep, perm⟩ := ih
    have taken := rep.dequeue (by decide) (by decide)
    cases q with
    | nil => cases (Returns.unique call taken).1
    | cons x q =>
      obtain ⟨r', call', rep'⟩ := taken
      obtain ⟨same, rfl⟩ := Returns.unique call call'
      obtain rfl : _ = x := by simpa using same
      exact ⟨q, rep', List.perm_middle.symm.trans perm⟩
  | failed _ call refused ih =>
    obtain ⟨q, rep, perm⟩ := ih
    have taken := rep.dequeue (by decide) (by decide)
    cases q with
    | nil =>
      obtain ⟨-, rfl⟩ := Returns.unique call taken
      exact ⟨[], rep, perm⟩
    | cons x q =>
      obtain ⟨r', call', -⟩ := taken
      obtain ⟨rfl, -⟩ := Returns.unique call call'
      exact absurd rfl refused
  | @free r held fd res r' _ isHeld call ih =>
    obtain ⟨q, rep, perm⟩ := ih
    obtain ⟨r'', call', rep'⟩ := rep.putBack perm isHeld
    obtain ⟨-, rfl⟩ := Returns.unique call call'
    refine ⟨_, rep', ?_⟩
    calc held.erase fd ++ (q ++ [fd])
        _ |>.Perm (fd :: held.erase fd ++ q) := by
          rw [← List.append_assoc]
          exact List.perm_append_comm
        _ |>.Perm (held ++ q) := (List.perm_cons_erase isHeld).symm.append_right q
        _ |>.Perm descriptors := perm

theorem SkPool.malloc_cases {ring : IndexRing} (empty : Rep 13 [] ring) {held : List UInt32}
    (pool : SkPool ring r held) :
    ∃ res r', indexRing.Calls .dequeue r res r' ∧
      ((∃ fd ∈ descriptors, res = ⟨1, [fd]⟩ ∧ fd ∉ held) ∨
        (res = ⟨0, []⟩ ∧ held.Perm descriptors)) := by
  obtain ⟨q, rep, perm⟩ := pool.conserves empty
  have taken := rep.dequeue (by decide) (by decide)
  cases q with
  | nil => exact ⟨_, _, taken, .inr ⟨rfl, by simpa using perm⟩⟩
  | cons x q =>
    obtain ⟨r', call, -⟩ := taken
    have once : (held ++ x :: q).Nodup := perm.nodup_iff.mpr descriptors_nodup
    refine ⟨_, _, call, .inl ⟨x, perm.subset (by simp), rfl, fun isHeld => ?_⟩⟩
    exact (List.nodup_append.mp once).2.2 x isHeld x (by simp) rfl

/-- The ring is a queue of its size in every session, `sbr_init_sk` succeeds, and in every run of
the pool an allocation returns a descriptor that is not held unless all of them are. -/
theorem descriptor_pool_correct (align32pow2 : UInt32 → UInt32)
    (aligns : Ring.Shmem.AlignsPow2 align32pow2) :
    (∀ num : UInt32, num.toNat < 2 ^ 31 → 32 ≤ (align32pow2 (num + 1)).toNat →
      Refines indexRing Call.op NonZero (align32pow2 (num + 1)).toNat
        (sbrCreateIndexRing align32pow2 num) []) ∧
    (∃ r, InitSk 1 (sbrCreateIndexRing align32pow2 8191) 0 r) ∧
    ∀ r held, SkPool (sbrCreateIndexRing align32pow2 8191) r held →
      (∃ res r', indexRing.Calls .dequeue r res r' ∧
        ((∃ fd ∈ descriptors, res = ⟨1, [fd]⟩ ∧ fd ∉ held) ∨
          (res = ⟨0, []⟩ ∧ held.Perm descriptors))) ∧
      ∀ fd ∈ held, ∃ r', indexRing.Calls (.enqueue fd) r ⟨1, []⟩ r' := by
  have size : ∀ num : UInt32, num.toNat < 2 ^ 31 → ∃ k < 32,
      align32pow2 (num + 1) = word (2 ^ k) ∧ num.toNat + 1 ≤ 2 ^ k ∧ 2 ^ k < 2 * (num.toNat + 1) ∧
      Rep k [] (sbrCreateIndexRing align32pow2 num) := by
    intro num most
    have succ : (num + 1).toNat = num.toNat + 1 := by
      rw [UInt32.toNat_add, UInt32.toNat_one, Nat.mod_eq_of_lt (by omega)]
    obtain ⟨k, eq, above, below⟩ := aligns (num + 1) (by omega) (by omega)
    have small : k < 32 := by
      have inWord := (align32pow2 (num + 1)).toNat_lt
      rw [eq] at inWord
      exact (Nat.pow_lt_pow_iff_right (by decide)).mp inWord
    have sizeWord : align32pow2 (num + 1) = word (2 ^ k) := by rw [← eq, word_toNat]
    refine ⟨k, small, sizeWord, by omega, by omega, ?_⟩
    rw [sbrCreateIndexRing, sizeWord]
    exact ⟨_, _, _, holds_init small⟩
  have empty : Rep 13 [] (sbrCreateIndexRing align32pow2 8191) := by
    obtain ⟨k, -, -, above, below, rep⟩ := size 8191 (by decide)
    change 2 ^ 13 ≤ 2 ^ k at above
    change 2 ^ k < 2 ^ 14 at below
    have low := (Nat.pow_le_pow_iff_right (by decide)).mp above
    have high := (Nat.pow_lt_pow_iff_right (by decide)).mp below
    obtain rfl : k = 13 := by omega
    exact rep
  refine ⟨fun num most large => ?_, ?_, fun r held pool => ?_⟩
  · obtain ⟨k, small, eq, -, -, rep⟩ := size num most
    have below : 2 ^ k < 2 ^ 32 := Nat.pow_lt_pow_right (by decide) small
    rw [eq, toNat_word_of_lt below] at large ⊢
    exact rep.refines small
      ((Nat.pow_le_pow_iff_right (by decide)).mp (show 2 ^ 5 ≤ 2 ^ k from large))
  · obtain ⟨r, filled, -⟩ := InitSk.fills sbrMaxFdNum 1 _ (by omega) le_rfl empty
    exact ⟨r, filled⟩
  · refine ⟨pool.malloc_cases empty, fun fd isHeld => ?_⟩
    obtain ⟨q, rep, perm⟩ := pool.conserves empty
    obtain ⟨r', call, -⟩ := rep.putBack perm isHeld
    exact ⟨r', call⟩

/-- The pool with the alignment by its meaning. -/
theorem descriptor_pool_filled :
    ∃ r, InitSk 1 (sbrCreateIndexRing Ring.Shmem.leastPow2 8191) 0 r :=
  (descriptor_pool_correct Ring.Shmem.leastPow2 Ring.Shmem.leastPow2_aligns).2.1

end Dmm.Sbr
