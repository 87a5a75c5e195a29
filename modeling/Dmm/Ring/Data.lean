import Dmm.Lib.Word
import Dmm.Lib.Machine

/-!
# The ring record

`struct nsfw_mem_ring` of `nsfw_ring_data.h`, shared by the shared-memory rings and the
process-local rings, and `nsfw_mem_ring_init` of `nsfw_ring_fun.h`. A slot is 64 bits,
read either as one word (`data_l`) or as a 40-bit value under a 24-bit version (`data_s`).
Addresses are those of the primary process, where `ADDR_LTOSH_EXT` and `ADDR_SHTOL` are
identities. The reserved fields and `res_chk` are left out: no ring operation reads them.
-/

namespace Dmm.Ring

open Dmm.Word

/-- `union RingData_U`: `val` is the low part of the word, `ver` the high part. -/
structure RingData where
  /-- `data_s.val`: offset of the stored element from `Addrbase`; 0 is "no element". -/
  val : BitVec 40
  /-- `data_s.ver`: low bits of the position the slot was last written for. -/
  ver : BitVec 24
  deriving DecidableEq, Repr, Inhabited

/-- The slot read as one word. -/
def RingData.dataL (d : RingData) : BitVec 64 := d.ver ++ d.val

/-- The slot holding a word. -/
def RingData.ofDataL (w : BitVec 64) : RingData := ⟨w.extractLsb' 0 40, w.extractLsb' 40 24⟩

@[simp] theorem RingData.dataL_ofDataL (w : BitVec 64) : (ofDataL w).dataL = w :=
  BitVec.extractLsb'_append_extractLsb'

/-- What a 32-bit position leaves of itself in the version bits of a slot. -/
def verOf (position : UInt32) : BitVec 24 := position.toBitVec.setWidth 24

theorem toNat_verOf_sub (p size : Nat) :
    (verOf (word p - word size)).toNat = (2 ^ 32 - size % 2 ^ 32 + p) % 2 ^ 24 := by
  simp only [verOf, BitVec.toNat_setWidth, UInt32.toNat_toBitVec, toNat_word_sub_eq]
  omega

/-- Positions closer than 2²⁴ with the same version bits are the same. -/
theorem verOf_sub_inj {p q size : Nat} (above : p < q + 2 ^ 24) (below : q < p + 2 ^ 24)
    (same : verOf (word p - word size) = verOf (word q - word size)) : p = q := by
  have residues := congrArg BitVec.toNat same
  rw [toNat_verOf_sub, toNat_verOf_sub] at residues
  omega

/-- The position one size later has the version bits of the position itself one size back. -/
theorem verOf_add_sub (q size : Nat) : verOf (word (q + size) - word size) = verOf (word q) := by
  rw [word_sub (Nat.le_add_left size q), Nat.add_sub_cancel]

/-- `struct nsfw_mem_ring` -/
structure MemRing where
  memtype : UInt8
  ringflag : UInt8
  size : UInt32
  eltsize : UInt32
  mask : UInt32
  addrbase : Nat
  /-- `prodhflag`, for fork recovery of the process-local ring. -/
  prodhflag : UInt32
  prodtflag : UInt32
  conshflag : UInt32
  constflag : UInt32
  prodHead : UInt32
  prodTail : UInt32
  consHead : UInt32
  consTail : UInt32
  /-- `ring[]`; only indices below `size` are memory of the ring. -/
  ring : Nat → RingData
  deriving Inhabited

namespace MemRing

/-- `ring->ring[pos & mask]` -/
def slot (r : MemRing) (pos : UInt32) : RingData := r.ring (pos &&& r.mask).toNat

/-- Store to `ring->ring[pos & mask]`. -/
def setSlot (r : MemRing) (pos : UInt32) (d : RingData) : MemRing :=
  { r with ring := Function.update r.ring (pos &&& r.mask).toNat d }

@[simp] theorem setSlot_ring (r : MemRing) (pos : UInt32) (d : RingData) :
    (r.setSlot pos d).ring = Function.update r.ring (pos &&& r.mask).toNat d := rfl

/-- Compare-and-swap of `prod.head`. -/
def casProdHead (r : MemRing) (old new : UInt32) : MemRing :=
  if r.prodHead = old then { r with prodHead := new } else r

/-- Compare-and-swap of `cons.tail`. -/
def casConsTail (r : MemRing) (old new : UInt32) : MemRing :=
  if r.consTail = old then { r with consTail := new } else r

end MemRing

/-- `PERFRING_ADDR_RANGE` -/
def perfringAddrRange : Nat := 0xFFFFFFFFFF

/-- The initialising loop of `nsfw_mem_ring_init` over the first slots. -/
def initSlots (size : UInt32) (ring : Nat → RingData) : Nat → Nat → RingData
  | 0 => ring
  | loop + 1 => Function.update (initSlots size ring loop) loop ⟨0, verOf (word loop - size)⟩

theorem initSlots_of_lt (size : UInt32) (ring : Nat → RingData) {n i : Nat} (passed : i < n) :
    initSlots size ring n i = ⟨0, verOf (word i - size)⟩ := by
  induction n with
  | zero => contradiction
  | succ n ih =>
    by_cases last : i = n
    · subst last
      simp [initSlots]
    · rw [initSlots, Function.update_of_ne last]
      exact ih (by omega)

/-- `nsfw_mem_ring_init`: an empty ring whose slots carry the versions of one lap before. -/
def memRingInit (ring : MemRing) (size : UInt32) (addrbase : Nat) (memtype flag : UInt8)
    (pid : UInt32) : MemRing where
  prodHead := 0
  prodTail := 0
  consHead := 0
  consTail := 0
  size := size
  eltsize := 0
  mask := size - 1
  memtype := memtype
  ringflag := flag
  prodtflag := pid
  prodhflag := pid
  conshflag := pid
  constflag := pid
  addrbase := addrbase
  ring := initSlots size ring.ring size.toNat

/-- The flavour of a ring: its only producer and its only consumer, where the side is
single-threaded. -/
structure Flavour (ι : Type) where
  /-- The only thread that enqueues, by the `sp` operation; `none` for the `mp` flavour. -/
  producer : Option ι
  /-- The only thread that dequeues, by the `sc` operation; `none` for the `mc` flavour. -/
  consumer : Option ι

/-- The calls of a flavour, in the order `mp`, `sp`, `mc`, `sc`; every interleaving of their
accesses is admitted. -/
def Flavour.admits {ι κ₁ κ₂ κ₃ κ₄ τ ε : Type} [DecidableEq ι] (fl : Flavour ι)
    (_ : Machine.Pool ι τ MemRing ε) : Machine.Action ι ((κ₁ ⊕ κ₂) ⊕ (κ₃ ⊕ κ₄)) → Bool
  | .call _ (.inl (.inl _)) => fl.producer = none
  | .call i (.inl (.inr _)) => fl.producer = some i
  | .call _ (.inr (.inl _)) => fl.consumer = none
  | .call i (.inr (.inr _)) => fl.consumer = some i
  | .access _ => true

end Dmm.Ring
