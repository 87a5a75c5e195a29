import Dmm.Lib.Fifo
import Dmm.Ring.Data

/-!
# Operations of the process-local ring

`nsfw_nshmem_ring_{mp,sp}_enqueue` and `nsfw_nshmem_ring_{mc,sc}_dequeuev` of
`nsfw_nshmem_ring.c`, one access of an index, a flag or a slot at a time. A producer
reserves a slot by moving `prod.head`, writes it and publishes it by moving `prod.tail`; a
consumer does the same with `cons.head` and `cons.tail`. The wait loop and the fork recovery
of the two sides differ only in the side (`Side`). The code is that of a process `curpid`.

`Event` records a reservation of a slot for an object, a reservation of elements for
delivery, and each read of an element.
-/

namespace Dmm.Ring.Nshmem

open Dmm.Machine Dmm.Word

/-- `u64` pointers. -/
abbrev Obj := BitVec 64

/-- What a call returns: the `int`, and what a dequeue has written to `obj_table`. -/
abbrev Result := Fifo.Reply Obj

/-- The steps of the life of an element. -/
inductive Event
  | reserved (obj : Obj)
  | claimed (num : Nat)
  | delivered (obj : Obj)
  deriving DecidableEq, Repr

/-- The index pair and the flags of producers or of consumers. -/
inductive Side
  | prod
  | cons
  deriving DecidableEq, Repr

/-- `prod.head`, `cons.head` -/
def head (r : MemRing) : Side → UInt32
  | .prod => r.prodHead
  | .cons => r.consHead

/-- `prod.tail`, `cons.tail` -/
def tail (r : MemRing) : Side → UInt32
  | .prod => r.prodTail
  | .cons => r.consTail

/-- `prodhflag`, `conshflag` -/
def hflag (r : MemRing) : Side → UInt32
  | .prod => r.prodhflag
  | .cons => r.conshflag

/-- `prodtflag`, `constflag` -/
def tflag (r : MemRing) : Side → UInt32
  | .prod => r.prodtflag
  | .cons => r.constflag

/-- Store to `prod.head` or `cons.head`. -/
def setHead (r : MemRing) (value : UInt32) : Side → MemRing
  | .prod => { r with prodHead := value }
  | .cons => { r with consHead := value }

/-- Store to `prod.tail` or `cons.tail`. -/
def setTail (r : MemRing) (value : UInt32) : Side → MemRing
  | .prod => { r with prodTail := value }
  | .cons => { r with consTail := value }

/-- Store to `prodhflag` or `conshflag`. -/
def setHflag (r : MemRing) (value : UInt32) : Side → MemRing
  | .prod => { r with prodhflag := value }
  | .cons => { r with conshflag := value }

/-- Store to `prodtflag` or `constflag`. -/
def setTflag (r : MemRing) (value : UInt32) : Side → MemRing
  | .prod => { r with prodtflag := value }
  | .cons => { r with constflag := value }

/-! ## `nsfw_nshmem_enqueue_fork_recov` and `nsfw_nshmem_dequeue_fork_recov` -/

/-- Local states of the fork recovery. -/
inductive RecovPc
  | loadFlag
  | casFlag (pidflag : UInt32)
  | loadTail
  | loadHead (tail : UInt32)
  | reloadTail
  | storeHead (tail : UInt32)
  | storeFlag
  deriving DecidableEq, Repr

/-- One access of the fork recovery of a side. -/
def recovStep (side : Side) (curpid : UInt32) : RecovPc → MemRing → (RecovPc ⊕ Unit) × MemRing
  | .loadFlag, r =>
    if hflag r side ≠ curpid then (.inl (.casFlag (hflag r side)), r) else (.inr (), r)
  | .casFlag pidflag, r =>
    if hflag r side = pidflag then (.inl .loadTail, setHflag r curpid side) else (.inr (), r)
  | .loadTail, r => (.inl (.loadHead (tail r side)), r)
  | .loadHead tail, r => (.inl (if tail ≠ head r side then .reloadTail else .storeFlag), r)
  | .reloadTail, r => (.inl (.storeHead (tail r side)), r)
  | .storeHead tail, r => (.inl .storeFlag, setHead r tail side)
  | .storeFlag, r => (.inr (), setTflag r curpid side)

/-! ## The wait loop before a reservation -/

/-- Local states of `while (tail != head || tflag != hflag) pause`. -/
inductive WaitPc
  | loadTail
  | loadHead (tail : UInt32)
  | loadFlag
  | cmpFlag (flag : UInt32)
  deriving DecidableEq, Repr

/-- One access of the wait loop of a side; `inr` leaves the loop. -/
def waitStep (side : Side) : WaitPc → MemRing → WaitPc ⊕ Unit
  | .loadTail, r => .inl (.loadHead (tail r side))
  | .loadHead tail, r => .inl (if tail ≠ head r side then .loadTail else .loadFlag)
  -- producers compare `prodtflag` with `prodhflag`, consumers `conshflag` with `constflag`
  | .loadFlag, r =>
    .inl (.cmpFlag (match side with | .prod => tflag r side | .cons => hflag r side))
  | .cmpFlag flag, r =>
    if flag ≠ (match side with | .prod => hflag r side | .cons => tflag r side) then
      .inl .loadTail
    else .inr ()

/-! ## `nsfw_nshmem_ring_mp_enqueue` -/

/-- Local states of the multi-producer enqueue. -/
inductive MpPc
  | loadHead (obj : Obj)
  | loadTail (obj : Obj) (producerHead : UInt32)
  | recov (obj : Obj) (producerHead : UInt32) (pc : RecovPc)
  | wait (obj : Obj) (producerHead : UInt32) (pc : WaitPc)
  | cas (obj : Obj) (producerHead : UInt32)
  | write (obj : Obj) (producerHead : UInt32)
  | turn (producerHead : UInt32)
  | publish (producerHead : UInt32)
  deriving DecidableEq, Repr

/-- One access of `nsfw_nshmem_ring_mp_enqueue`. -/
def mpStep (curpid : UInt32) : MpPc → MemRing → (MpPc ⊕ Result) × MemRing
  | .loadHead obj, r => (.inl (.loadTail obj r.prodHead), r)
  | .loadTail obj producerHead, r =>
    -- `n > free_entries` with `n = 1`
    if 1 > r.size + r.consTail - producerHead then (.inr ⟨0, []⟩, r)
    else (.inl (.recov obj producerHead .loadFlag), r)
  | .recov obj producerHead pc, r =>
    match recovStep .prod curpid pc r with
    | (.inl pc, r) => (.inl (.recov obj producerHead pc), r)
    | (.inr _, r) => (.inl (.wait obj producerHead .loadTail), r)
  | .wait obj producerHead pc, r =>
    match waitStep .prod pc r with
    | .inl pc => (.inl (.wait obj producerHead pc), r)
    | .inr _ => (.inl (.cas obj producerHead), r)
  | .cas obj producerHead, r =>
    if r.prodHead = producerHead then
      (.inl (.write obj producerHead), { r with prodHead := producerHead + 1 })
    else (.inl (.loadHead obj), r)
  | .write obj producerHead, r =>
    (.inl (.turn producerHead), r.setSlot producerHead (.ofDataL obj))
  | .turn producerHead, r =>
    (.inl (if r.prodTail ≠ producerHead then .turn producerHead else .publish producerHead), r)
  | .publish producerHead, r => (.inr ⟨1, []⟩, { r with prodTail := producerHead + 1 })

/-- The multi-producer enqueue. -/
def mpEnqueue (curpid : UInt32) : Code Obj MpPc MemRing Result Event where
  start := .loadHead
  step := mpStep curpid
  event
    | .cas obj producerHead, r =>
      if r.prodHead = producerHead then some (.reserved obj) else none
    | _, _ => none

/-! ## `nsfw_nshmem_ring_sp_enqueue` -/

/-- Local states of the single-producer enqueue. -/
inductive SpPc
  | loadHead (obj : Obj)
  | loadTail (obj : Obj) (producerHead : UInt32)
  | recov (obj : Obj) (producerHead : UInt32) (pc : RecovPc)
  | storeHead (obj : Obj) (producerHead : UInt32)
  | write (obj : Obj) (producerHead : UInt32)
  | storeTail (producerHead : UInt32)
  deriving DecidableEq, Repr

/-- One access of `nsfw_nshmem_ring_sp_enqueue`. -/
def spStep (curpid : UInt32) : SpPc → MemRing → (SpPc ⊕ Result) × MemRing
  | .loadHead obj, r => (.inl (.loadTail obj r.prodHead), r)
  | .loadTail obj producerHead, r =>
    if 1 > r.size + r.consTail - producerHead then (.inr ⟨0, []⟩, r)
    else (.inl (.recov obj producerHead .loadFlag), r)
  | .recov obj producerHead pc, r =>
    match recovStep .prod curpid pc r with
    | (.inl pc, r) => (.inl (.recov obj producerHead pc), r)
    | (.inr _, r) => (.inl (.storeHead obj producerHead), r)
  | .storeHead obj producerHead, r =>
    (.inl (.write obj producerHead), { r with prodHead := producerHead + 1 })
  | .write obj producerHead, r =>
    (.inl (.storeTail producerHead), r.setSlot producerHead (.ofDataL obj))
  | .storeTail producerHead, r => (.inr ⟨1, []⟩, { r with prodTail := producerHead + 1 })

/-- The single-producer enqueue. -/
def spEnqueue (curpid : UInt32) : Code Obj SpPc MemRing Result Event where
  start := .loadHead
  step := spStep curpid
  event
    | .storeHead obj _, _ => some (.reserved obj)
    | _, _ => none

/-! ## `nsfw_nshmem_ring_obj_copy` -/

/-- The slots the unrolled loop reads: four at a time while `i < n & ~3`. -/
def copyFours (bound i idx : Nat) : List Nat :=
  if i < bound then idx :: (idx + 1) :: (idx + 2) :: (idx + 3) :: copyFours bound (i + 4) (idx + 4)
  else []
termination_by bound - i

/-- The slots the fall-through `switch (n & 0x3)` reads. -/
def copyRest (rest : UInt32) (idx : Nat) : List Nat :=
  if rest = 3 then [idx, idx + 1, idx + 2]
  else if rest = 2 then [idx, idx + 1]
  else if rest = 1 then [idx]
  else []

/-- The slots up to the end of the array. -/
def copyToEnd (size idx : Nat) : List Nat :=
  if idx < size then idx :: copyToEnd size (idx + 1) else []
termination_by size - idx

/-- The slots from `idx` on while `i < n`. -/
def copyFrom (n i idx : Nat) : List Nat :=
  if i < n then idx :: copyFrom n (i + 1) (idx + 1) else []
termination_by n - i

/-- The slots `nsfw_nshmem_ring_obj_copy` reads, in the order of the entries of `obj_table`
they are written to. -/
def objCopy (r : MemRing) (consHead n : UInt32) : List Nat :=
  let idx := consHead &&& r.mask
  if idx + n < r.size then
    let fours := n &&& ~~~3
    copyFours fours.toNat 0 idx.toNat ++ copyRest (n &&& 3) (idx.toNat + fours.toNat)
  else
    let first := copyToEnd r.size.toNat idx.toNat
    first ++ copyFrom n.toNat first.length 0

/-! ## `nsfw_nshmem_ring_mc_dequeuev` -/

/-- Local states of the multi-consumer dequeue; `out` is what `obj_table` holds so far. -/
inductive McPc
  | start (n : UInt32)
  | recov (n : UInt32) (pc : RecovPc)
  | loadHead (n : UInt32)
  | loadTail (n consumerHead : UInt32)
  | wait (n consumerHead num : UInt32) (pc : WaitPc)
  | cas (n consumerHead num : UInt32)
  | copy (consumerHead num : UInt32) (todo : List Nat) (out : List Obj)
  | turn (consumerHead num : UInt32) (out : List Obj)
  | publish (consumerHead num : UInt32) (out : List Obj)
  deriving DecidableEq, Repr

/-- One access of `nsfw_nshmem_ring_mc_dequeuev`. -/
def mcStep (curpid : UInt32) : McPc → MemRing → (McPc ⊕ Result) × MemRing
  | .start n, r => if n = 0 then (.inr ⟨0, []⟩, r) else (.inl (.recov n .loadFlag), r)
  | .recov n pc, r =>
    match recovStep .cons curpid pc r with
    | (.inl pc, r) => (.inl (.recov n pc), r)
    | (.inr _, r) => (.inl (.loadHead n), r)
  | .loadHead n, r => (.inl (.loadTail n r.consHead), r)
  | .loadTail n consumerHead, r =>
    let entries := r.prodTail - consumerHead
    if n > entries then
      if entries > 0 then (.inl (.wait n consumerHead entries .loadTail), r)
      else (.inr ⟨0, []⟩, r)
    else (.inl (.wait n consumerHead n .loadTail), r)
  | .wait n consumerHead num pc, r =>
    match waitStep .cons pc r with
    | .inl pc => (.inl (.wait n consumerHead num pc), r)
    | .inr _ => (.inl (.cas n consumerHead num), r)
  | .cas n consumerHead num, r =>
    if r.consHead = consumerHead then
      (.inl (.copy consumerHead num (objCopy r consumerHead num) []),
        { r with consHead := consumerHead + num })
    else (.inl (.loadHead n), r)
  | .copy consumerHead num [] out, r => (.inl (.turn consumerHead num out), r)
  | .copy consumerHead num (idx :: todo) out, r =>
    (.inl (.copy consumerHead num todo (out ++ [(r.ring idx).dataL])), r)
  | .turn consumerHead num out, r =>
    (.inl (if r.consTail ≠ consumerHead then .turn consumerHead num out
      else .publish consumerHead num out), r)
  | .publish consumerHead num out, r =>
    (.inr ⟨int32 num.toNat, out⟩, { r with consTail := consumerHead + num })

/-- The multi-consumer dequeue; the argument of a call is the number asked for. -/
def mcDequeue (curpid : UInt32) : Code UInt32 McPc MemRing Result Event where
  start := .start
  step := mcStep curpid
  event
    | .cas _ consumerHead num, r =>
      if r.consHead = consumerHead then some (.claimed num.toNat) else none
    | .copy _ _ (idx :: _) _, r => some (.delivered (r.ring idx).dataL)
    | _, _ => none

/-! ## `nsfw_nshmem_ring_sc_dequeuev` -/

/-- Local states of the single-consumer dequeue. -/
inductive ScPc
  | loadHead (n : UInt32)
  | loadTail (n consumerHead : UInt32)
  | recov (consumerHead inum : UInt32) (pc : RecovPc)
  | storeHead (consumerHead inum : UInt32)
  | copy (consumerHead inum : UInt32) (todo : List Nat) (out : List Obj)
  | storeTail (consumerHead inum : UInt32) (out : List Obj)
  deriving DecidableEq, Repr

/-- One access of `nsfw_nshmem_ring_sc_dequeuev`. -/
def scStep (curpid : UInt32) : ScPc → MemRing → (ScPc ⊕ Result) × MemRing
  | .loadHead n, r => (.inl (.loadTail n r.consHead), r)
  | .loadTail n consumerHead, r =>
    let entries := r.prodTail - consumerHead
    if n > entries then
      if entries > 0 then (.inl (.recov consumerHead entries .loadFlag), r)
      else (.inr ⟨0, []⟩, r)
    else (.inl (.recov consumerHead n .loadFlag), r)
  | .recov consumerHead inum pc, r =>
    match recovStep .cons curpid pc r with
    | (.inl pc, r) => (.inl (.recov consumerHead inum pc), r)
    | (.inr _, r) => (.inl (.storeHead consumerHead inum), r)
  | .storeHead consumerHead inum, r =>
    (.inl (.copy consumerHead inum (objCopy r consumerHead inum) []),
      { r with consHead := consumerHead + inum })
  | .copy consumerHead inum [] out, r => (.inl (.storeTail consumerHead inum out), r)
  | .copy consumerHead inum (idx :: todo) out, r =>
    (.inl (.copy consumerHead inum todo (out ++ [(r.ring idx).dataL])), r)
  | .storeTail consumerHead inum out, r =>
    (.inr ⟨int32 inum.toNat, out⟩, { r with consTail := consumerHead + inum })

/-- The single-consumer dequeue. -/
def scDequeue (curpid : UInt32) : Code UInt32 ScPc MemRing Result Event where
  start := .loadHead
  step := scStep curpid
  event
    | .storeHead _ inum, _ => some (.claimed inum.toNat)
    | .copy _ _ (idx :: _) _, r => some (.delivered (r.ring idx).dataL)
    | _, _ => none

/-- Threads of a process that run any of the operations. -/
def ops (curpid : UInt32) : Code ((Obj ⊕ Obj) ⊕ (UInt32 ⊕ UInt32))
    ((MpPc ⊕ SpPc) ⊕ (McPc ⊕ ScPc)) MemRing Result Event :=
  ((mpEnqueue curpid).sum (spEnqueue curpid)).sum ((mcDequeue curpid).sum (scDequeue curpid))

/-- The published elements, oldest first: those between `cons.tail` and `prod.tail`. -/
def published (r : MemRing) : List Obj :=
  (List.range (r.prodTail - r.consTail).toNat).map fun i => (r.slot (r.consTail + word i)).dataL

end Dmm.Ring.Nshmem
