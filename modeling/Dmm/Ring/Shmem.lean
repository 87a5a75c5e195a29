import Dmm.Lib.Fifo
import Dmm.Ring.Data

/-!
# Operations of the shared-memory ring

`nsfw_shmem_ring_{mp,sp}_enqueue` and `nsfw_shmem_ring_{mc,sc}_dequeue[v]` of
`nsfw_shmem_ring.c`, one access of `prod.head`, `cons.tail` or a slot at a time. A local
state holds the C locals that are live there and is named after its next access. The
plain and the vector dequeue of each flavour share their loop; `Batch` says which of the
two runs. `Event` records the two accesses that move an element: the one that fills a
slot and the one that empties it.
-/

namespace Dmm.Ring.Shmem

open Dmm.Machine Dmm.Word

/-- What a call returns: the `int`, and the boxes a dequeue has written to its array. -/
abbrev Result := Fifo.Reply Nat

/-- The accesses that move an element into and out of a slot. -/
inductive Event
  | stored (box : Nat)
  | handed (box : Nat)
  deriving DecidableEq, Repr

/-- The range check of both enqueues: boxes at or below the base, or beyond the 40-bit
range above it, are refused. -/
def outOfRange (r : MemRing) (box : Nat) : Bool :=
  box ≤ r.addrbase || box > r.addrbase + perfringAddrRange

/-- `expectPostVal`: the slot of a position before the position is enqueued. -/
def expectPostVal (r : MemRing) (curHead : UInt32) : RingData := ⟨0, verOf (curHead - r.size)⟩

/-- `curVal`: the slot of a position holding a box. -/
def curVal (r : MemRing) (curHead : UInt32) (box : Nat) : RingData :=
  ⟨BitVec.ofNat 40 (box - r.addrbase), verOf curHead⟩

/-- `curNullVal`: the slot of a position after the position is dequeued. -/
def curNullVal (curTail : UInt32) : RingData := ⟨0, verOf curTail⟩

theorem inRange_iff {r : MemRing} {box : Nat} :
    outOfRange r box = false ↔ r.addrbase < box ∧ box ≤ r.addrbase + (2 ^ 40 - 1) := by
  simp [outOfRange, perfringAddrRange]

theorem toNat_offset {r : MemRing} {box : Nat} (inRange : outOfRange r box = false) :
    r.addrbase + (BitVec.ofNat 40 (box - r.addrbase)).toNat = box := by
  obtain ⟨above, below⟩ := inRange_iff.mp inRange
  rw [BitVec.toNat_ofNat, Nat.mod_eq_of_lt (by omega)]
  omega

/-- An admitted box is not stored as the mark of an empty slot. -/
theorem offset_ne_zero {r : MemRing} {box : Nat} (inRange : outOfRange r box = false) :
    BitVec.ofNat 40 (box - r.addrbase) ≠ 0 := by
  intro zero
  have residue : (BitVec.ofNat 40 (box - r.addrbase)).toNat = 0 := congrArg BitVec.toNat zero
  have stored := toNat_offset inRange
  have above := (inRange_iff.mp inRange).1
  omega

/-- The box a slot stands for. -/
def boxOf (r : MemRing) (d : RingData) : Nat := r.addrbase + d.val.toNat

/-- The hint is moved only from the positions divisible by four, and only forward. -/
def hintBehind (cur hint : UInt32) : Bool := 0 == (cur &&& 0x03) && hint - cur > 0x80000000

/-- The next position to try: the following one while it is in reach of the hint, else the
hint itself. -/
def advance (r : MemRing) (cur hint : UInt32) : UInt32 :=
  if cur - hint < r.mask - 1 then cur + 1 else hint

/-! ## `nsfw_shmem_ring_mp_enqueue` -/

/-- Local states of the multi-producer enqueue. -/
inductive MpPc
  | start (box : Nat)
  | loadTail (box : Nat) (curHead : UInt32)
  | loadVal (box : Nat) (curHead tmpTail : UInt32)
  | bumpTail (box : Nat) (curHead tmpTail : UInt32)
  | loadVer (box : Nat) (curHead : UInt32)
  | casSlot (box : Nat) (curHead : UInt32)
  | loadHint (curHead : UInt32)
  | casHint (curHead tmpHead : UInt32)
  | loadNext (box : Nat) (curHead : UInt32)
  deriving DecidableEq, Repr

/-- One access of `nsfw_shmem_ring_mp_enqueue`. -/
def mpStep : MpPc → MemRing → (MpPc ⊕ Result) × MemRing
  | .start box, r =>
    if outOfRange r box then (.inr ⟨-1, []⟩, r) else (.inl (.loadTail box r.prodHead), r)
  | .loadTail box curHead, r =>
    if r.consTail + r.size - curHead = 0 then (.inl (.loadVal box curHead r.consTail), r)
    else (.inl (.loadVer box curHead), r)
  | .loadVal box curHead tmpTail, r =>
    if (r.slot tmpTail).val = 0 then (.inl (.bumpTail box curHead tmpTail), r)
    else (.inr ⟨0, []⟩, r)
  | .bumpTail box curHead tmpTail, r =>
    (.inl (.loadVer box curHead), r.casConsTail tmpTail (tmpTail + 1))
  | .loadVer box curHead, r =>
    if (r.slot curHead).ver = (expectPostVal r curHead).ver then
      (.inl (.casSlot box curHead), r)
    else (.inl (.loadNext box curHead), r)
  | .casSlot box curHead, r =>
    if r.slot curHead = expectPostVal r curHead then
      (.inl (.loadHint curHead), r.setSlot curHead (curVal r curHead box))
    else (.inl (.loadNext box curHead), r)
  | .loadHint curHead, r =>
    if hintBehind curHead r.prodHead then (.inl (.casHint curHead r.prodHead), r)
    else (.inr ⟨1, []⟩, r)
  | .casHint curHead tmpHead, r => (.inr ⟨1, []⟩, r.casProdHead tmpHead (curHead + 1))
  | .loadNext box curHead, r => (.inl (.loadTail box (advance r curHead r.prodHead)), r)

/-- The multi-producer enqueue; the argument of a call is the box. -/
def mpEnqueue : Code Nat MpPc MemRing Result Event where
  start := .start
  step := mpStep
  event
    | .casSlot box curHead, r =>
      if r.slot curHead = expectPostVal r curHead then some (.stored box) else none
    | _, _ => none

/-! ## `nsfw_shmem_ring_sp_enqueue` -/

/-- Local states of the single-producer enqueue. -/
inductive SpPc
  | start (box : Nat)
  | loadTail (box : Nat) (curHead : UInt32)
  | loadVal (box : Nat) (curHead tmpTail : UInt32)
  | bumpTail (box : Nat) (curHead tmpTail : UInt32)
  | loadSlot (box : Nat) (curHead : UInt32)
  | storeSlot (box : Nat) (curHead : UInt32)
  | storeHead (curHead : UInt32)
  deriving DecidableEq, Repr

/-- One access of `nsfw_shmem_ring_sp_enqueue`. -/
def spStep : SpPc → MemRing → (SpPc ⊕ Result) × MemRing
  | .start box, r =>
    if outOfRange r box then (.inr ⟨-1, []⟩, r) else (.inl (.loadTail box r.prodHead), r)
  | .loadTail box curHead, r =>
    if r.consTail + r.size - curHead = 0 then (.inl (.loadVal box curHead r.consTail), r)
    else (.inl (.loadSlot box curHead), r)
  | .loadVal box curHead tmpTail, r =>
    if (r.slot tmpTail).val = 0 then (.inl (.bumpTail box curHead tmpTail), r)
    else (.inr ⟨0, []⟩, r)
  | .bumpTail box curHead tmpTail, r =>
    (.inl (.loadSlot box curHead), r.casConsTail tmpTail (tmpTail + 1))
  | .loadSlot box curHead, r =>
    if r.slot curHead = expectPostVal r curHead then (.inl (.storeSlot box curHead), r)
    else (.inl (.loadTail box (curHead + 1)), r)
  | .storeSlot box curHead, r =>
    (.inl (.storeHead curHead), r.setSlot curHead (curVal r curHead box))
  | .storeHead curHead, r => (.inr ⟨1, []⟩, { r with prodHead := curHead + 1 })

/-- The single-producer enqueue. -/
def spEnqueue : Code Nat SpPc MemRing Result Event where
  start := .start
  step := spStep
  event
    | .storeSlot box _, _ => some (.stored box)
    | _, _ => none

/-! ## `nsfw_shmem_ring_mc_dequeue` and `nsfw_shmem_ring_mc_dequeuev` -/

/-- Which dequeue of a flavour runs: the one that takes one element, or the vector one. -/
inductive Batch
  | one
  | vec (n : UInt32)
  deriving DecidableEq, Repr

/-- A call that returns what it has dequeued so far. -/
def dequeued (out : List Nat) : Result := .gave out

/-- `while (1)` of the plain dequeue, `while (n > deqNum)` of the vector one. -/
def Batch.goesOn (b : Batch) (out : List Nat) : Bool :=
  match b with
  | .one => true
  | .vec n => n > word out.length

/-- Local states of the multi-consumer dequeues; `out` holds `box[0 .. deqNum)`. -/
inductive McPc
  | start (b : Batch)
  | loadHead (b : Batch) (out : List Nat) (curTail : UInt32)
  | loadVal (b : Batch) (out : List Nat) (curTail tmpHead : UInt32)
  | bumpHead (b : Batch) (out : List Nat) (curTail tmpHead : UInt32)
  | loadSlot (b : Batch) (out : List Nat) (curTail : UInt32)
  | casSlot (b : Batch) (out : List Nat) (curTail : UInt32) (excp : RingData)
  | loadHint (b : Batch) (out : List Nat) (curTail : UInt32)
  | casHint (b : Batch) (out : List Nat) (curTail tmpTail : UInt32)
  | loadNext (b : Batch) (out : List Nat) (curTail : UInt32)
  deriving DecidableEq, Repr

/-- After an element is out: the plain dequeue breaks, the vector one goes on to the next
position. -/
def mcTaken (b : Batch) (out : List Nat) (curTail : UInt32) : McPc ⊕ Result :=
  match b with
  | .one => .inr (dequeued out)
  | .vec _ => .inl (.loadNext b out curTail)

/-- One access of `nsfw_shmem_ring_mc_dequeue[v]`. -/
def mcStep : McPc → MemRing → (McPc ⊕ Result) × MemRing
  | .start b, r => (.inl (.loadHead b [] r.consTail), r)
  | .loadHead b out curTail, r =>
    if curTail = r.prodHead then
      -- `deqNum == 0 && ...`: with something dequeued the slot is not read
      if out = [] then (.inl (.loadVal b out curTail r.prodHead), r)
      else (.inr (dequeued out), r)
    else (.inl (.loadSlot b out curTail), r)
  | .loadVal b out curTail tmpHead, r =>
    if (r.slot tmpHead).val ≠ 0 then (.inl (.bumpHead b out curTail tmpHead), r)
    else (.inr (dequeued out), r)
  | .bumpHead b out curTail tmpHead, r =>
    (.inl (.loadSlot b out curTail), r.casProdHead tmpHead (tmpHead + 1))
  | .loadSlot b out curTail, r =>
    if (curNullVal curTail).ver = (r.slot curTail).ver ∧ (r.slot curTail).val ≠ 0 then
      (.inl (.casSlot b out curTail (r.slot curTail)), r)
    else (.inl (.loadNext b out curTail), r)
  | .casSlot b out curTail excp, r =>
    if r.slot curTail = excp then
      (.inl (.loadHint b (out ++ [boxOf r excp]) curTail), r.setSlot curTail (curNullVal curTail))
    else (.inl (.loadNext b out curTail), r)
  | .loadHint b out curTail, r =>
    if hintBehind curTail r.consTail then (.inl (.casHint b out curTail r.consTail), r)
    else (mcTaken b out curTail, r)
  | .casHint b out curTail tmpTail, r =>
    (mcTaken b out curTail, r.casConsTail tmpTail (curTail + 1))
  | .loadNext b out curTail, r =>
    if b.goesOn out then (.inl (.loadHead b out (advance r curTail r.consTail)), r)
    else (.inr (dequeued out), r)

/-- The multi-consumer dequeues. -/
def mcDequeue : Code Batch McPc MemRing Result Event where
  start := .start
  step := mcStep
  event
    | .casSlot _ _ curTail excp, r =>
      if r.slot curTail = excp then some (.handed (boxOf r excp)) else none
    | _, _ => none

/-! ## `nsfw_shmem_ring_sc_dequeue` and `nsfw_shmem_ring_sc_dequeuev` -/

/-- Local states of the single-consumer dequeues. -/
inductive ScPc
  | start (b : Batch)
  | loadHead (b : Batch) (out : List Nat) (curTail : UInt32)
  | loadVal (b : Batch) (out : List Nat) (curTail tmpHead : UInt32)
  | bumpHead (b : Batch) (out : List Nat) (curTail tmpHead : UInt32)
  | loadSlot (b : Batch) (out : List Nat) (curTail : UInt32)
  | storeSlot (b : Batch) (out : List Nat) (curTail : UInt32) (excp : RingData)
  | storeTail (b : Batch) (out : List Nat) (curTail : UInt32)
  deriving DecidableEq, Repr

/-- `CurTail++` and the loop condition. -/
def scNext (b : Batch) (out : List Nat) (curTail : UInt32) : ScPc ⊕ Result :=
  if b.goesOn out then .inl (.loadHead b out (curTail + 1)) else .inr (dequeued out)

/-- After an element is out: the plain dequeue breaks, the vector one goes on. -/
def scTaken (b : Batch) (out : List Nat) (curTail : UInt32) : ScPc ⊕ Result :=
  match b with
  | .one => .inr (dequeued out)
  | .vec _ => scNext b out curTail

/-- One access of `nsfw_shmem_ring_sc_dequeue[v]`. -/
def scStep : ScPc → MemRing → (ScPc ⊕ Result) × MemRing
  | .start b, r => (.inl (.loadHead b [] r.consTail), r)
  | .loadHead b out curTail, r =>
    if curTail = r.prodHead then
      if out = [] then (.inl (.loadVal b out curTail r.prodHead), r)
      else (.inr (dequeued out), r)
    else (.inl (.loadSlot b out curTail), r)
  | .loadVal b out curTail tmpHead, r =>
    if (r.slot tmpHead).val ≠ 0 then (.inl (.bumpHead b out curTail tmpHead), r)
    else (.inr (dequeued out), r)
  | .bumpHead b out curTail tmpHead, r =>
    (.inl (.loadSlot b out curTail), r.casProdHead tmpHead (tmpHead + 1))
  | .loadSlot b out curTail, r =>
    if (curNullVal curTail).ver = (r.slot curTail).ver ∧ (r.slot curTail).val ≠ 0 then
      (.inl (.storeSlot b out curTail (r.slot curTail)), r)
    else (scNext b out curTail, r)
  | .storeSlot b out curTail excp, r =>
    (.inl (.storeTail b (out ++ [boxOf r excp]) curTail), r.setSlot curTail (curNullVal curTail))
  | .storeTail b out curTail, r => (scTaken b out curTail, { r with consTail := curTail + 1 })

/-- The single-consumer dequeues. -/
def scDequeue : Code Batch ScPc MemRing Result Event where
  start := .start
  step := scStep
  event
    | .storeSlot _ _ _ excp, r => some (.handed (boxOf r excp))
    | _, _ => none

end Dmm.Ring.Shmem
