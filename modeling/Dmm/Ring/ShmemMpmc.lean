import Dmm.Ring.ShmemSequential

/-!
# The multi-producer multi-consumer ring in sequential use

Complete calls that do not overlap keep the hints within four positions of the true ends
of the queue (`Tracks`), whatever the order of the calls and however often the 32-bit
positions and the 24-bit versions wrap. So the ring is a bounded queue (`mpmc_refines_fifo`).
The scan can follow a lag of four for every size but two and four; rings of those two
sizes reach a state in which an enqueue never returns (`ring_returns_iff`).
-/

namespace Dmm.Ring.Shmem

open Dmm.Machine Dmm.Word

/-- Threads that run the multi-producer enqueue and the multi-consumer dequeues. -/
def mpmc : Code (Nat ⊕ Batch) (MpPc ⊕ McPc) MemRing Result Event := mpEnqueue.sum mcDequeue

/-- The ring holds the view, with both hints near. -/
structure Tracks (k : Nat) (v : View) (r : MemRing) : Prop where
  holds : Holds k v r
  head : v.HeadNear
  tail : v.TailNear

variable {k : Nat} {v : View} {r : MemRing}

/-- Every size but two and four can scan a lag of four positions, or has no such lag. -/
theorem Tracks.in_reach (tracks : Tracks k v r) (size : k = 0 ∨ 3 ≤ k) :
    v.filled - v.headHint ≤ scanReach k ∧ v.taken - v.tailHint ≤ scanReach k := by
  have head := lag_le_four tracks.head
  have tail := lag_le_four tracks.tail
  unfold scanReach
  obtain rfl | large := size
  · have := tracks.holds.tail_le
    have := tracks.holds.taken_le
    have := tracks.holds.head_le
    have := tracks.holds.filled_le
    simp only [if_true]
    omega
  · have eight : 2 ^ 3 ≤ 2 ^ k := Nat.pow_le_pow_right (by decide) large
    rw [if_neg (by omega)]
    omega

theorem tracks_init (ring : MemRing) {k : Nat} (fits : k < 32) (addrbase : Nat)
    (memtype flag : UInt8) (pid : UInt32) :
    Tracks k ⟨0, 0, 0, 0, fun _ => 0⟩
      (memRingInit ring (word (2 ^ k)) addrbase memtype flag pid) where
  holds := holds_init ring fits addrbase memtype flag pid
  head := by
    intro p _ before
    exact absurd before (Nat.not_lt_zero p)
  tail := by
    intro q _ before
    exact absurd before (Nat.not_lt_zero q)

/-- An enqueue of an admitted box behaves as the queue, and leaves a full ring untouched. -/
theorem enqueue_call (tracks : Tracks k v r) (fits : k < 32) (size : k = 0 ∨ 3 ≤ k) {box : Nat}
    (inRange : outOfRange r box = false) :
    ∃ ret r' v', mpEnqueue.Calls box r ⟨ret, []⟩ r' ∧ Tracks k v' r' ∧
      r'.addrbase = r.addrbase ∧ (ret = 0 → r' = r) ∧
      Fifo.Step (2 ^ k) (v.queue r.addrbase) (.put box) ⟨ret, []⟩ (v'.queue r.addrbase) := by
  have holds := tracks.holds
  have := holds.tail_le
  have := holds.taken_le
  have := holds.head_le
  have := holds.filled_le
  have reach := (tracks.in_reach size).1
  by_cases room : v.filled < v.taken + 2 ^ k
  · obtain ⟨r', call, holds', base⟩ := mp_room holds fits inRange reach room
    refine ⟨1, r', _, call, ⟨holds', tracks.head.enqueued _ _, tracks.tail.enqueued _ _⟩, base,
      fun zero => absurd zero (by decide), ?_⟩
    rw [v.queue_enqueued k r.addrbase (by omega), toNat_offset inRange]
    exact .accepted (by simp; omega)
  · have full : v.filled = v.taken + 2 ^ k := by omega
    refine ⟨0, r, v, mp_full holds fits inRange reach full, tracks, rfl, fun _ => rfl, ?_⟩
    exact .refused (by simp; omega)

theorem dequeue_call (tracks : Tracks k v r) (fits : k < 32) (size : k = 0 ∨ 3 ≤ k) :
    ∃ res r' v', mcDequeue.Calls .one r res r' ∧ Tracks k v' r' ∧ r'.addrbase = r.addrbase ∧
      Fifo.Step (2 ^ k) (v.queue r.addrbase) (.take 1) res (v'.queue r.addrbase) := by
  have holds := tracks.holds
  have := holds.taken_le
  have := holds.head_le
  have reach := (tracks.in_reach size).2
  by_cases stored : v.taken < v.filled
  · obtain ⟨r', call, holds', base⟩ := mc_one holds fits reach stored
    refine ⟨_, r', _, call, ⟨holds', tracks.head.dequeued, tracks.tail.dequeued⟩, base, ?_⟩
    rw [v.queue_dequeued r.addrbase stored]
    exact .taken
  · have empty : v.taken = v.filled := by omega
    refine ⟨_, r, v, mc_nothing holds fits rfl reach empty, tracks, rfl, ?_⟩
    rw [v.queue_empty empty]
    exact .taken

/-- A vector dequeue of at least one element behaves as the queue. -/
theorem dequeuev_call (tracks : Tracks k v r) (fits : k < 32) (large : 3 ≤ k) {n : UInt32}
    (asked : n ≠ 0) :
    ∃ res r' v', mcDequeue.Calls (.vec n) r res r' ∧ Tracks k v' r' ∧
      r'.addrbase = r.addrbase ∧
      Fifo.Step (2 ^ k) (v.queue r.addrbase) (.takeSome n.toNat) res (v'.queue r.addrbase) := by
  have holds := tracks.holds
  have := holds.taken_le
  have := holds.head_le
  by_cases stored : v.taken < v.filled
  · obtain ⟨j, v', r', call, holds', head, tail, base, queue, least, most, inside⟩ :=
      mc_vec holds fits large asked tracks.head tracks.tail stored
    refine ⟨_, r', v', call, ⟨holds', head, tail⟩, base, ?_⟩
    rw [queue]
    exact .tookSome j least most (by simpa using inside)
  · have empty : v.taken = v.filled := by omega
    have goesOn : (Batch.vec n).goesOn [] = true := by
      have nonzero : n.toNat ≠ 0 := fun zero => asked (UInt32.toNat_inj.mp zero)
      simp [Batch.goesOn, UInt32.lt_iff_toNat_lt, toNat_word]
      omega
    refine ⟨_, r, v, mc_nothing holds fits goesOn (tracks.in_reach (.inr large)).2 empty, tracks,
      rfl, ?_⟩
    rw [v.queue_empty empty]
    exact .nothing

/-! ## Refinement of a bounded queue -/

/-- The queue operation of a call. -/
def mpmcOp : Nat ⊕ Batch → Fifo.Op Nat
  | .inl box => .put box
  | .inr .one => .take 1
  | .inr (.vec n) => .takeSome n.toNat

/-- Boxes in range, and vector dequeues of at least one element. -/
def mpmcMay : Nat ⊕ Batch → MemRing → Prop
  | .inl box, r => outOfRange r box = false
  | .inr .one, _ => True
  | .inr (.vec n), _ => n ≠ 0

/-- The ring stands for a queue. -/
def StandsFor (k : Nat) (q : List Nat) (r : MemRing) : Prop :=
  ∃ v, Tracks k v r ∧ q = v.queue r.addrbase

/-- Every admitted call behaves as the queue the ring stands for. -/
theorem mpmc_simulates (fits : k < 32) (large : 3 ≤ k) (q : List Nat) (r : MemRing)
    (c : Nat ⊕ Batch) (stands : StandsFor k q r) (may : mpmcMay c r) :
    ∃ res r' q', mpmc.Calls c r res r' ∧ Fifo.Step (2 ^ k) q (mpmcOp c) res q' ∧
      StandsFor k q' r' := by
  obtain ⟨v, tracks, rfl⟩ := stands
  match c, may with
  | .inl box, inRange =>
    obtain ⟨ret, r', v', call, tracks', base, _, step⟩ :=
      enqueue_call tracks fits (.inr large) inRange
    exact ⟨_, r', _, call.inl mcDequeue, step, v', tracks', by rw [base]⟩
  | .inr .one, _ =>
    obtain ⟨res, r', v', call, tracks', base, step⟩ := dequeue_call tracks fits (.inr large)
    exact ⟨_, r', _, call.inr mpEnqueue, step, v', tracks', by rw [base]⟩
  | .inr (.vec n), asked =>
    obtain ⟨res, r', v', call, tracks', base, step⟩ := dequeuev_call tracks fits large asked
    exact ⟨_, r', _, call.inr mpEnqueue, step, v', tracks', by rw [base]⟩

/-- For every power-of-two size from eight up to 2²³, complete calls make the ring a queue of
exactly that capacity: every call returns, with the reply of the queue, and an enqueue that
returns zero has changed nothing at all. -/
theorem mpmc_refines_fifo (ring : MemRing) (k : Nat) (large : 3 ≤ k) (versions : k < 24)
    (addrbase : Nat) (memtype flag : UInt8) (pid : UInt32) :
    Fifo.Refines mpmc mpmcOp mpmcMay (2 ^ k)
        (memRingInit ring (word (2 ^ k)) addrbase memtype flag pid) [] ∧
      ∀ calls r, Session mpmc mpmcMay
          (memRingInit ring (word (2 ^ k)) addrbase memtype flag pid) calls r →
        ∀ box r', mpmcMay (.inl box) r → mpmc.Calls (.inl box) r ⟨0, []⟩ r' → r' = r := by
  have fits : k < 32 := by omega
  have start : StandsFor k [] (memRingInit ring (word (2 ^ k)) addrbase memtype flag pid) :=
    ⟨_, tracks_init ring fits addrbase memtype flag pid, rfl⟩
  refine ⟨Fifo.refines_of_simulation (StandsFor k) (mpmc_simulates fits large) start, ?_⟩
  intro calls r session box r' inRange refused
  have stands : ∃ q, StandsFor k q r := by
    refine session.invariant (P := fun r => ∃ q, StandsFor k q r) ?_ ⟨[], start⟩
    rintro c res s s' ⟨q, stands⟩ may call
    obtain ⟨_, _, q', call', _, stands'⟩ := mpmc_simulates fits large q s c stands may
    obtain ⟨rfl, rfl⟩ := Returns.unique call call'
    exact ⟨q', stands'⟩
  obtain ⟨q, v, tracks, _⟩ := stands
  obtain ⟨ret, r₁, _, call, _, _, unchanged, _⟩ :=
    enqueue_call tracks fits (.inr large) inRange
  obtain ⟨same, rfl⟩ := Returns.unique refused (call.inl mcDequeue)
  exact unchanged (congrArg Fifo.Reply.ret same).symm

/-- A ring of eight slots is a queue of capacity eight. -/
theorem mpmc_refines_fifo_eight :
    Fifo.Refines mpmc mpmcOp mpmcMay 8 (memRingInit default 8 0 0 0 0) [] :=
  (mpmc_refines_fifo default 3 (by decide) (by decide) 0 0 0 0).1

/-! ## Which sizes always return -/

/-- The calls of `nsfw_shmem_ring_mp_enqueue` and `nsfw_shmem_ring_mc_dequeue`, with any box. -/
def plainMay : Nat ⊕ Batch → MemRing → Prop
  | .inl _, _ => True
  | .inr .one, _ => True
  | .inr (.vec _), _ => False

/-- After every session of plain calls, every plain call returns. -/
def AllReturn (r : MemRing) : Prop :=
  ∀ calls r', Session mpmc plainMay r calls r' →
    ∀ c, plainMay c r' → ∃ res r'', mpmc.Calls c r' res r''

/-- A plain call returns and keeps the hints near, unless the size is two or four. -/
theorem plain_call (tracks : Tracks k v r) (fits : k < 32) (size : k = 0 ∨ 3 ≤ k)
    (c : Nat ⊕ Batch) (plain : plainMay c r) :
    ∃ res r' v', mpmc.Calls c r res r' ∧ Tracks k v' r' := by
  match c, plain with
  | .inl box, _ =>
    by_cases refused : outOfRange r box = true
    · have call : mpEnqueue.Calls box r ⟨-1, []⟩ r :=
        .done (by simp only [mpEnqueue, mpStep, if_pos refused])
      exact ⟨_, r, v, call.inl mcDequeue, tracks⟩
    · obtain ⟨ret, r', v', call, tracks', _⟩ :=
        enqueue_call tracks fits size (Bool.eq_false_iff.mpr refused)
      exact ⟨_, r', v', call.inl mcDequeue, tracks'⟩
  | .inr .one, _ =>
    obtain ⟨res, r', v', call, tracks', _⟩ := dequeue_call tracks fits size
    exact ⟨_, r', v', call.inr mpEnqueue, tracks'⟩

/-- Rings of size one, and of size eight and more, always return. -/
theorem allReturn_of_size (tracks : Tracks k v r) (fits : k < 32) (size : k = 0 ∨ 3 ≤ k) :
    AllReturn r := by
  intro calls r' session c plain
  have tracked : ∃ v, Tracks k v r' := by
    refine session.invariant (P := fun r => ∃ v, Tracks k v r) ?_ ⟨v, tracks⟩
    rintro c res s s' ⟨v, tracks⟩ plain call
    obtain ⟨_, _, v', call', tracks'⟩ := plain_call tracks fits size c plain
    obtain ⟨rfl, rfl⟩ := Returns.unique call call'
    exact ⟨v', tracks'⟩
  obtain ⟨v', tracks'⟩ := tracked
  obtain ⟨res, r'', _, call, _⟩ := plain_call tracks' fits size c plain
  exact ⟨res, r'', call⟩

/-- A ring whose head hint can come to lag by more than the reach of the scan does not
always return. -/
theorem not_allReturn_of_lag {calls : List ((Nat ⊕ Batch) × Result)} {r r' : MemRing}
    (session : Session mpmc plainMay r calls r') (holds : Holds k v r') (fits : k < 32)
    (far : scanReach k < v.filled - v.headHint) : ¬ AllReturn r := by
  intro all
  obtain ⟨res, r'', call⟩ := all calls r' session (.inl (r'.addrbase + 1)) trivial
  have inRange : outOfRange r' (r'.addrbase + 1) = false := by
    rw [inRange_iff]
    omega
  exact mp_diverges holds fits inRange far res r'' (Code.Calls.of_inl call)

/-- An enqueue into a ring with room, as the next call of a session. -/
theorem session_enqueue (holds : Holds k v r) (fits : k < 32)
    (reach : v.filled - v.headHint ≤ scanReach k) (room : v.filled < v.taken + 2 ^ k) :
    ∃ r' x, Session mpmc plainMay r [(.inl (r.addrbase + 1), ⟨1, []⟩)] r' ∧
      Holds k (v.enqueued k x) r' := by
  have inRange : outOfRange r (r.addrbase + 1) = false := by
    rw [inRange_iff]
    omega
  obtain ⟨r', call, holds', _⟩ := mp_room holds fits inRange reach room
  exact ⟨r', _, .cons trivial (call.inl mcDequeue) .nil, holds'⟩

theorem not_allReturn_two (ring : MemRing) (addrbase : Nat) (memtype flag : UInt8)
    (pid : UInt32) : ¬ AllReturn (memRingInit ring (word (2 ^ 1)) addrbase memtype flag pid) := by
  have holds := holds_init ring (show 1 < 32 by decide) addrbase memtype flag pid
  obtain ⟨_, x, first, holds₁⟩ := session_enqueue holds (by decide) (by decide) (by decide)
  exact not_allReturn_of_lag first holds₁ (by decide) (show 0 < 1 by decide)

/-- A ring of four slots stops returning after three enqueues. -/
theorem not_allReturn_four (ring : MemRing) (addrbase : Nat) (memtype flag : UInt8)
    (pid : UInt32) : ¬ AllReturn (memRingInit ring (word (2 ^ 2)) addrbase memtype flag pid) := by
  have holds := holds_init ring (show 2 < 32 by decide) addrbase memtype flag pid
  obtain ⟨_, x, first, holds₁⟩ := session_enqueue holds (by decide) (by decide) (by decide)
  obtain ⟨_, y, second, holds₂⟩ :=
    session_enqueue holds₁ (by decide) (show 1 ≤ 2 by decide) (show 1 < 4 by decide)
  obtain ⟨_, z, third, holds₃⟩ :=
    session_enqueue holds₂ (by decide) (show 2 ≤ 2 by decide) (show 2 < 4 by decide)
  exact not_allReturn_of_lag ((first.append second).append third) holds₃ (by decide)
    (show 2 < 3 by decide)

/-- A power of two is an exact description of which rings always return. -/
theorem allReturn_iff_size (ring : MemRing) {k : Nat} (fits : k < 32) (addrbase : Nat)
    (memtype flag : UInt8) (pid : UInt32) :
    AllReturn (memRingInit ring (word (2 ^ k)) addrbase memtype flag pid) ↔ k = 0 ∨ 3 ≤ k := by
  constructor
  · intro all
    by_contra small
    have cases : k = 1 ∨ k = 2 := by omega
    obtain rfl | rfl := cases
    · exact not_allReturn_two ring addrbase memtype flag pid all
    · exact not_allReturn_four ring addrbase memtype flag pid all
  · exact allReturn_of_size (tracks_init ring fits addrbase memtype flag pid) fits

/-! ## The sizes the creators choose -/

/-- `rte_align32pow2`, which the creators call through `common_mem_align32pow2`: the least
power of two that is not below its argument, where 32 bits hold one. -/
def AlignsPow2 (align32pow2 : UInt32 → UInt32) : Prop :=
  ∀ n : UInt32, 1 ≤ n.toNat → n.toNat ≤ 2 ^ 31 →
    ∃ k, (align32pow2 n).toNat = 2 ^ k ∧ n.toNat ≤ 2 ^ k ∧ 2 ^ k < 2 * n.toNat

/-- `NSFW_SHMEM` -/
def nsfwShmem : UInt8 := 0

/-- The ring `nsfw_shmem_ring_create` builds in the memory it is given. -/
def shmemRingCreate (align32pow2 : UInt32 → UInt32) (mz : MemRing) (n : UInt32)
    (rteBaseAddr : Nat) (flag : UInt8) (pid : UInt32) : MemRing :=
  memRingInit mz (align32pow2 n) rteBaseAddr nsfwShmem flag pid

/-- One of the rings `nsfw_lshmem_ringcreatev` builds. -/
def lshmemRingcreatev (align32pow2 : UInt32 → UInt32) (handle : MemRing) (ieltnum : UInt32)
    (baseaddr : Nat) (entype : UInt8) (pid : UInt32) : MemRing :=
  memRingInit handle (align32pow2 (ieltnum + 1)) baseaddr nsfwShmem entype pid

/-- Which requested counts give a ring that always returns, whatever the alignment makes
of them. -/
theorem allReturn_align {align32pow2 : UInt32 → UInt32} (aligns : AlignsPow2 align32pow2)
    (ring : MemRing) {n : UInt32} (least : 1 ≤ n.toNat) (most : n.toNat ≤ 2 ^ 31)
    (addrbase : Nat) (memtype flag : UInt8) (pid : UInt32) :
    AllReturn (memRingInit ring (align32pow2 n) addrbase memtype flag pid) ↔
      n.toNat = 1 ∨ 5 ≤ n.toNat := by
  obtain ⟨k, size, above, below⟩ := aligns n least most
  have fits : k < 32 := by
    have inWord := (align32pow2 n).toNat_lt
    rw [size] at inWord
    exact (Nat.pow_lt_pow_iff_right (by decide)).mp inWord
  have sizeWord : align32pow2 n = word (2 ^ k) := by rw [← size, word_toNat]
  rw [sizeWord, allReturn_iff_size ring fits]
  constructor
  · rintro (rfl | large)
    · omega
    · have eight : 2 ^ 3 ≤ 2 ^ k := Nat.pow_le_pow_right (by decide) large
      omega
  · intro count
    by_contra small
    have cases : k = 1 ∨ k = 2 := by omega
    obtain rfl | rfl := cases <;> omega

/-- Every enqueue and dequeue of a created ring returns, after any sequential run, exactly
when the requested count does not lead to a ring of two or four slots. -/
theorem ring_returns_iff (align32pow2 : UInt32 → UInt32) (aligns : AlignsPow2 align32pow2)
    (mz : MemRing) (n : UInt32) (least : 1 ≤ n.toNat) (base : Nat) (flag : UInt8)
    (pid : UInt32) :
    (n.toNat ≤ 2 ^ 31 →
      (AllReturn (shmemRingCreate align32pow2 mz n base flag pid) ↔
        n.toNat = 1 ∨ 5 ≤ n.toNat)) ∧
    (n.toNat < 2 ^ 31 →
      (AllReturn (lshmemRingcreatev align32pow2 mz n base flag pid) ↔ 4 ≤ n.toNat)) := by
  refine ⟨fun most => allReturn_align aligns mz least most base _ flag pid, fun most => ?_⟩
  have succ : (n + 1).toNat = n.toNat + 1 := by
    rw [UInt32.toNat_add, UInt32.toNat_one, Nat.mod_eq_of_lt (by omega)]
  rw [lshmemRingcreatev, allReturn_align aligns mz (by omega) (by omega) base _ flag pid, succ]
  omega

/-- The alignment by its meaning. -/
def leastPow2 (n : UInt32) : UInt32 := word (2 ^ Nat.clog 2 n.toNat)

/-- The least power of two is what the creators rely on. -/
theorem leastPow2_aligns : AlignsPow2 leastPow2 := by
  intro n least most
  have below : Nat.clog 2 n.toNat ≤ 31 := Nat.clog_le_of_le_pow most
  have small : 2 ^ Nat.clog 2 n.toNat < 2 ^ 32 :=
    Nat.pow_lt_pow_right (by decide) (by omega)
  refine ⟨Nat.clog 2 n.toNat, toNat_word_of_lt small, Nat.le_pow_clog (by decide) _, ?_⟩
  by_cases one : n.toNat = 1
  · simp [one]
  · have large : 1 < n.toNat := by omega
    have half := Nat.pow_pred_clog_lt_self (b := 2) (by decide) large
    have positive : 0 < Nat.clog 2 n.toNat := Nat.clog_pos (by decide) (by omega)
    obtain ⟨j, succ⟩ : ∃ j, Nat.clog 2 n.toNat = j + 1 := ⟨_, (Nat.succ_pred positive.ne').symm⟩
    rw [succ, Nat.pred_succ] at half
    rw [succ, Nat.pow_succ]
    omega

/-- Five elements asked for give a ring of eight slots, which always returns. -/
theorem ring_returns_five :
    AllReturn (shmemRingCreate leastPow2 default 5 0 0 0) ∧
      AllReturn (lshmemRingcreatev leastPow2 default 5 0 0 0) := by
  have both := ring_returns_iff leastPow2 leastPow2_aligns default 5 (by decide) 0 0 0
  exact ⟨(both.1 (by decide)).mpr (by decide), (both.2 (by decide)).mpr (by decide)⟩

/-- Three elements asked for give a ring of four slots from either creator, and a run of it
reaches an enqueue that never returns. -/
theorem ring_of_four_spins :
    ¬ AllReturn (shmemRingCreate leastPow2 default 3 0 0 0) ∧
      ¬ AllReturn (lshmemRingcreatev leastPow2 default 3 0 0 0) := by
  have created := allReturn_align leastPow2_aligns default (n := 3) (by decide) (by decide) 0
    nsfwShmem 0 0
  have createdv := allReturn_align leastPow2_aligns default (n := 4) (by decide) (by decide) 0
    nsfwShmem 0 0
  exact ⟨fun all => absurd (created.mp all) (by decide),
    fun all => absurd (createdv.mp all) (by decide)⟩

end Dmm.Ring.Shmem
