import Dmm.Ring.ShmemSequential

/-!
# The single-producer single-consumer ring

The single-threaded operations store `prod.head` and `cons.tail` after every element, so
the hints stand at the true ends of the queue and no scan is needed (`View.level`). The
ring is then a bounded queue, for every power-of-two size. One call does not fit: the loop
of `nsfw_shmem_ring_sc_dequeuev` tests its limit after the first element, so a call that
asks for nothing removes one element of a ring that is not empty.
-/

namespace Dmm.Ring.Shmem

open Dmm.Machine Dmm.Word

/-- Threads that run the single-producer enqueue and the single-consumer dequeues. -/
def spsc : Code (Nat ⊕ Batch) (SpPc ⊕ ScPc) MemRing Result Event := spEnqueue.sum scDequeue

/-- A view whose hints stand at the true ends. -/
def View.level (taken filled : Nat) (value : Nat → BitVec 40) : View :=
  ⟨taken, filled, filled, taken, value⟩

variable {k : Nat} {t f : Nat} {value : Nat → BitVec 40} {r r' : MemRing} {res : Result}

theorem View.queue_level_enqueued (addrbase : Nat) (ordered : t ≤ f) (x : BitVec 40) :
    (View.level t (f + 1) (Function.update value f x)).queue addrbase =
      (View.level t f value).queue addrbase ++ [addrbase + x.toNat] :=
  (View.level t f value).queue_enqueued 0 addrbase ordered x

theorem View.queue_level_dequeued (addrbase : Nat) (stored : t < f) :
    (View.level t f value).queue addrbase =
      (addrbase + (value t).toNat) :: (View.level (t + 1) f value).queue addrbase :=
  (View.level t f value).queue_dequeued addrbase stored

/-! ## Enqueue -/

/-- A producer's call begins with the range check and the load of `prod.head`. -/
theorem sp_start (holds : Holds k (.level t f value) r) {box : Nat}
    (inRange : outOfRange r box = false)
    (rest : Returns spEnqueue (.loadTail box (word f)) r res r') :
    spEnqueue.Calls box r res r' := by
  have head : r.prodHead = word f := holds.head_eq
  exact .next (.loadTail box (word f)) r (by simp [spEnqueue, spStep, inRange, head]) rest

/-- An enqueue into a full ring returns zero and changes nothing. -/
theorem sp_full (holds : Holds k (.level t f value) r) (fits : k < 32) {box : Nat}
    (inRange : outOfRange r box = false) (full : f = t + 2 ^ k) :
    spEnqueue.Calls box r ⟨0, []⟩ r := by
  have positive := Nat.two_pow_pos k
  have stored : t < f := by omega
  have noRoom : r.consTail + r.size - word f = 0 :=
    (holds.roomTest fits (Nat.le_of_lt stored) (Nat.le_of_eq full)).mpr full
  have occupied : (r.slot r.consTail).val ≠ 0 := by
    have slot := holds.slot_of_stored (Nat.le_of_lt fits) (Nat.le_refl t) stored
    rw [holds.tail_eq]
    change (r.slot (word t)).val ≠ 0
    rw [slot]
    exact holds.value_ne t stored
  refine sp_start holds inRange ?_
  refine .next (.loadVal box (word f) r.consTail) r
    (by simp only [spEnqueue, spStep, if_pos noRoom]) ?_
  exact .done (by simp only [spEnqueue, spStep, if_neg occupied])

/-- An enqueue into a ring with room returns one and appends the box. -/
theorem sp_room (holds : Holds k (.level t f value) r) (fits : k < 32) {box : Nat}
    (inRange : outOfRange r box = false) (room : f < t + 2 ^ k) :
    ∃ r', spEnqueue.Calls box r ⟨1, []⟩ r' ∧ r'.addrbase = r.addrbase ∧
      Holds k (.level t (f + 1)
        (Function.update value f (BitVec.ofNat 40 (box - r.addrbase)))) r' := by
  have fits' := Nat.le_of_lt fits
  have ordered : t ≤ f := holds.taken_le
  have hasRoom : r.consTail + r.size - word f ≠ 0 := by
    rw [ne_eq, holds.roomTest fits ordered (Nat.le_of_lt room)]
    exact Nat.ne_of_lt room
  have expected : r.slot (word f) = expectPostVal r (word f) := by
    have slot : r.slot (word f) = ⟨0, verOf (word f - word (2 ^ k))⟩ := holds.slot_free fits' room
    rw [slot, expectPostVal, holds.size_eq]
  have stored := holds.enqueue fits' (offset_ne_zero inRange) room
  have moved := stored.moveHead (n := f + 1) (Nat.le_succ_of_le ordered) (Nat.le_refl _)
  refine ⟨_, sp_start holds inRange ?_, ?_, moved⟩
  rotate_left
  · rfl
  refine .next (.loadSlot box (word f)) r (by simp only [spEnqueue, spStep, if_neg hasRoom]) ?_
  refine .next (.storeSlot box (word f)) r
    (by simp only [spEnqueue, spStep, if_pos expected]) ?_
  refine .next (.storeHead (word f)) (r.setSlot (word f) (curVal r (word f) box)) rfl ?_
  exact .done (by simp only [spEnqueue, spStep, word_succ]; rfl)

/-! ## Dequeue -/

/-- A consumer at the end of the queue returns what it has. -/
theorem sc_stop (holds : Holds k (.level t f value) r) (fits : k < 32) (empty : t = f)
    (b : Batch) (out : List Nat) :
    Returns scDequeue (.loadHead b out (word t)) r (.gave out) r := by
  have positive := Nat.two_pow_pos k
  have head : r.prodHead = word f := holds.head_eq
  have here : word t = r.prodHead := by rw [head, empty]
  by_cases none : out = []
  · have room : f < t + 2 ^ k := by omega
    have slot : r.slot (word f) = ⟨0, verOf (word f - word (2 ^ k))⟩ :=
      holds.slot_free (Nat.le_of_lt fits) room
    have emptied : ¬ (r.slot r.prodHead).val ≠ 0 := by
      rw [head, slot]
      simp
    refine .next (.loadVal b out (word t) r.prodHead) r
      (by simp only [scDequeue, scStep, if_pos here, if_pos none]) ?_
    exact .done (by simp only [scDequeue, scStep, if_neg emptied, dequeued])
  · exact .done (by simp only [scDequeue, scStep, if_pos here, if_neg none, dequeued])

/-- A consumer before the end of the queue takes the oldest element. -/
theorem sc_take (holds : Holds k (.level t f value) r) (fits : k < 32) (stored : t < f) :
    ∃ r₁, Holds k (.level (t + 1) f value) r₁ ∧ r₁.addrbase = r.addrbase ∧
      ∀ b out res r', Resumes scDequeue
          (scTaken b (out ++ [r.addrbase + (value t).toNat]) (word t)) r₁ res r' →
        Returns scDequeue (.loadHead b out (word t)) r res r' := by
  have fits' := Nat.le_of_lt fits
  have passed : word t ≠ r.prodHead := by
    rw [ne_eq, holds.emptyTest fits (Nat.le_refl t) (Nat.le_of_lt stored)]
    exact Nat.ne_of_lt stored
  have slot : r.slot (word t) = ⟨value t, verOf (word t)⟩ :=
    holds.slot_of_stored fits' (Nat.le_refl t) stored
  have occupied : (curNullVal (word t)).ver = (r.slot (word t)).ver ∧
      (r.slot (word t)).val ≠ 0 := by
    rw [slot]
    exact ⟨rfl, holds.value_ne t stored⟩
  have taken := holds.dequeue fits' stored
  have moved := taken.moveTail (n := t + 1) (Nat.le_succ t) (Nat.le_refl _)
  refine ⟨_, moved, rfl, fun b out res r' rest => ?_⟩
  refine .next (.loadSlot b out (word t)) r
    (by simp only [scDequeue, scStep, if_neg passed]) ?_
  refine .next (.storeSlot b out (word t) (r.slot (word t))) r
    (by simp only [scDequeue, scStep, if_pos occupied]) ?_
  refine .next (.storeTail b (out ++ [boxOf r (r.slot (word t))]) (word t))
    (r.setSlot (word t) (curNullVal (word t))) rfl ?_
  rw [slot]
  refine .of_step _ _ ?_ rest
  simp only [scDequeue, scStep, word_succ]
  rfl

/-- The loop of the vector dequeue, entered with less than it may take: it stops at its
limit or at the end of the queue, whichever comes first. -/
theorem sc_loop (fits : k < 32) (n : UInt32) :
    ∀ d t (r : MemRing) (out : List Nat), f - t = d → Holds k (.level t f value) r →
      out.length < n.toNat →
      ∃ t' r', Returns scDequeue (.loadHead (.vec n) out (word t)) r
          (.gave (out ++ ((View.level t f value).queue r.addrbase).take (n.toNat - out.length)))
          r' ∧
        Holds k (.level t' f value) r' ∧ r'.addrbase = r.addrbase ∧
        (View.level t' f value).queue r.addrbase =
          ((View.level t f value).queue r.addrbase).drop (n.toNat - out.length) := by
  intro d
  induction d with
  | zero =>
    intro t r out none holds limit
    have ordered : t ≤ f := holds.taken_le
    have empty : t = f := by omega
    have queue := View.queue_empty (v := .level t f value) empty r.addrbase
    refine ⟨t, r, ?_, holds, rfl, by simp [queue]⟩
    rw [queue, List.take_nil, List.append_nil]
    exact sc_stop holds fits empty (.vec n) out
  | succ d ih =>
    intro t r out distance holds limit
    have stored : t < f := by omega
    have queue : (View.level t f value).queue r.addrbase = _ :=
      View.queue_level_dequeued r.addrbase stored
    obtain ⟨r₁, holds₁, base₁, takes⟩ := sc_take holds fits stored
    have one : n.toNat - out.length = (n.toNat - (out.length + 1)) + 1 := by omega
    have inWord := n.toNat_lt
    have test : (Batch.vec n).goesOn (out ++ [r.addrbase + (value t).toNat]) = true ↔
        out.length + 1 < n.toNat := by
      simp [Batch.goesOn, UInt32.lt_iff_toNat_lt,
        toNat_word_of_lt (show out.length + 1 < 2 ^ 32 by omega)]
    by_cases more : out.length + 1 < n.toNat
    · obtain ⟨t', r', returns, holds', base', queue'⟩ :=
        ih (t + 1) r₁ (out ++ [r.addrbase + (value t).toNat]) (by omega) holds₁
          (by simpa using more)
      rw [base₁] at returns base' queue'
      simp only [List.length_append, List.length_cons, List.length_nil] at returns queue'
      refine ⟨t', r', takes _ _ _ _ ?_, holds', base', ?_⟩
      · rw [scTaken, scNext, if_pos (test.mpr more), word_succ, queue, one, List.take_succ_cons]
        rw [List.append_assoc] at returns
        exact returns
      · rw [queue', queue, one, List.drop_succ_cons]
    · have last : n.toNat - (out.length + 1) = 0 := by omega
      refine ⟨t + 1, r₁, takes _ _ _ _ ?_, holds₁, base₁, ?_⟩
      · rw [scTaken, scNext, if_neg (mt test.mp more), queue, one, last]
        exact ⟨rfl, rfl⟩
      · rw [queue, one, last]
        rfl

theorem sc_start (holds : Holds k (.level t f value) r) {b : Batch}
    (rest : Returns scDequeue (.loadHead b [] (word t)) r res r') : scDequeue.Calls b r res r' := by
  have tail : r.consTail = word t := holds.tail_eq
  exact .next (.loadHead b [] (word t)) r (by simp only [scDequeue, scStep, tail]) rest

/-! ## Refinement of a bounded queue -/

/-- The queue operation of a call: every dequeue takes exactly what it is asked for. -/
def spscOp : Nat ⊕ Batch → Fifo.Op Nat
  | .inl box => .put box
  | .inr .one => .take 1
  | .inr (.vec n) => .take n.toNat

/-- Boxes in range. -/
def spscAny : Nat ⊕ Batch → MemRing → Prop
  | .inl box, r => outOfRange r box = false
  | .inr _, _ => True

/-- Boxes in range, and vector dequeues that ask for something or find the ring empty. -/
def spscMay : Nat ⊕ Batch → MemRing → Prop
  | .inl box, r => outOfRange r box = false
  | .inr .one, _ => True
  | .inr (.vec n), r => n ≠ 0 ∨ r.consTail = r.prodHead

/-- The ring stands for a queue, with its hints at the true ends. -/
def LevelFor (k : Nat) (q : List Nat) (r : MemRing) : Prop :=
  ∃ t f value, Holds k (.level t f value) r ∧ q = (View.level t f value).queue r.addrbase

theorem spsc_enqueue (holds : Holds k (.level t f value) r) (fits : k < 32) {box : Nat}
    (inRange : outOfRange r box = false) :
    ∃ res r' q', spEnqueue.Calls box r res r' ∧
      Fifo.Step (2 ^ k) ((View.level t f value).queue r.addrbase) (.put box) res q' ∧
      LevelFor k q' r' := by
  have ordered : t ≤ f := holds.taken_le
  have limit : f ≤ t + 2 ^ k := holds.filled_le
  by_cases room : f < t + 2 ^ k
  · obtain ⟨r', call, base, holds'⟩ := sp_room holds fits inRange room
    refine ⟨_, r', _, call, .accepted ?_, _, _, _, holds', ?_⟩
    · rw [View.length_queue]
      change f - t < 2 ^ k
      omega
    · rw [base, View.queue_level_enqueued r.addrbase ordered, toNat_offset inRange]
  · have full : f = t + 2 ^ k := by omega
    refine ⟨_, r, _, sp_full holds fits inRange full, .refused ?_, _, _, _, holds, rfl⟩
    rw [View.length_queue]
    change 2 ^ k ≤ f - t
    omega

theorem spsc_dequeue (holds : Holds k (.level t f value) r) (fits : k < 32) :
    ∃ res r' q', scDequeue.Calls .one r res r' ∧
      Fifo.Step (2 ^ k) ((View.level t f value).queue r.addrbase) (.take 1) res q' ∧
      LevelFor k q' r' := by
  have ordered : t ≤ f := holds.taken_le
  by_cases stored : t < f
  · obtain ⟨r', holds', base, takes⟩ := sc_take holds fits stored
    rw [View.queue_level_dequeued r.addrbase stored]
    exact ⟨_, r', _, sc_start holds (takes .one [] _ _ ⟨rfl, rfl⟩), .taken, _, _, _, holds',
      by rw [base]; rfl⟩
  · have empty : t = f := by omega
    have queue := View.queue_empty (v := .level t f value) empty r.addrbase
    rw [queue]
    exact ⟨_, r, _, sc_start holds (sc_stop holds fits empty .one []), .taken, _, _, _, holds,
      queue.symm⟩

/-- A vector dequeue that asks for something or finds the ring empty behaves as the queue. -/
theorem spsc_dequeuev (holds : Holds k (.level t f value) r) (fits : k < 32) {n : UInt32}
    (asked : n ≠ 0 ∨ r.consTail = r.prodHead) :
    ∃ res r' q', scDequeue.Calls (.vec n) r res r' ∧
      Fifo.Step (2 ^ k) ((View.level t f value).queue r.addrbase) (.take n.toNat) res q' ∧
      LevelFor k q' r' := by
  by_cases zero : n = 0
  · have here : word t = r.prodHead := by
      rw [← asked.resolve_left (not_not.mpr zero)]
      exact holds.tail_eq.symm
    have empty : t = f := (holds.emptyTest fits (Nat.le_refl t) holds.taken_le).mp here
    have queue := View.queue_empty (v := .level t f value) empty r.addrbase
    rw [queue, zero]
    exact ⟨_, r, _, sc_start holds (sc_stop holds fits empty _ []), .taken, _, _, _, holds,
      queue.symm⟩
  · have positive : ([] : List Nat).length < n.toNat := by
      have nonzero : n.toNat ≠ 0 := fun none => zero (UInt32.toNat_inj.mp none)
      simp
      omega
    obtain ⟨t', r', returns, holds', base, queue⟩ := sc_loop fits n _ t r [] rfl holds positive
    exact ⟨_, r', _, sc_start holds returns, .taken, t', f, value, holds', by rw [base, queue]; rfl⟩

/-- Every admitted call behaves as the queue the ring stands for. -/
theorem spsc_simulates (fits : k < 32) (q : List Nat) (r : MemRing) (c : Nat ⊕ Batch)
    (stands : LevelFor k q r) (may : spscMay c r) :
    ∃ res r' q', spsc.Calls c r res r' ∧ Fifo.Step (2 ^ k) q (spscOp c) res q' ∧
      LevelFor k q' r' := by
  obtain ⟨t, f, value, holds, rfl⟩ := stands
  match c, may with
  | .inl box, inRange =>
    obtain ⟨res, r', q', call, step, level⟩ := spsc_enqueue holds fits inRange
    exact ⟨res, r', q', call.inl scDequeue, step, level⟩
  | .inr .one, _ =>
    obtain ⟨res, r', q', call, step, level⟩ := spsc_dequeue holds fits
    exact ⟨res, r', q', call.inr spEnqueue, step, level⟩
  | .inr (.vec n), asked =>
    obtain ⟨res, r', q', call, step, level⟩ := spsc_dequeuev holds fits asked
    exact ⟨res, r', q', call.inr spEnqueue, step, level⟩

/-- For every power-of-two size below 2²⁴, every run in which no vector dequeue asks a ring
that holds elements for none of them is a run of the queue of that capacity, and every call
of it returns. -/
theorem spsc_refines_fifo (ring : MemRing) (k : Nat) (versions : k < 24) (addrbase : Nat)
    (memtype flag : UInt8) (pid : UInt32) :
    Fifo.Refines spsc spscOp spscMay (2 ^ k)
      (memRingInit ring (word (2 ^ k)) addrbase memtype flag pid) [] := by
  have fits : k < 32 := by omega
  refine Fifo.refines_of_simulation (LevelFor k) (spsc_simulates fits) ?_
  exact ⟨0, 0, fun _ => 0, holds_init ring fits addrbase memtype flag pid, rfl⟩

/-- A ring of a single slot is a queue of capacity one. -/
theorem spsc_refines_fifo_one :
    Fifo.Refines spsc spscOp spscMay 1 (memRingInit default 1 0 0 0 0) [] :=
  spsc_refines_fifo default 0 (by decide) 0 0 0 0

/-- A vector dequeue that asks for nothing takes one element of a ring that holds some. -/
theorem sc_dequeuev_zero (holds : Holds k (.level t f value) r) (fits : k < 32) (stored : t < f) :
    ∃ box r', scDequeue.Calls (.vec 0) r (.gave [box]) r' := by
  obtain ⟨r', _, _, takes⟩ := sc_take holds fits stored
  exact ⟨_, r', sc_start holds (takes (.vec 0) [] _ _ ⟨rfl, rfl⟩)⟩

/-- After one enqueue into a ring of eight slots, `nsfw_shmem_ring_sc_dequeuev` with `n = 0`
returns one element. -/
theorem spsc_not_refines_fifo :
    ¬ Fifo.Refines spsc spscOp spscAny 8 (memRingInit default 8 0 0 0 0) [] := by
  intro refines
  have fits : 3 < 32 := by decide
  have holds : Holds 3 (.level 0 0 fun _ => 0) (memRingInit default 8 0 0 0 0) :=
    holds_init default fits 0 0 0 0
  have inRange : outOfRange (memRingInit default 8 0 0 0 0) 1 = false := by decide
  obtain ⟨r₁, put, base, holds₁⟩ := sp_room holds fits inRange (by decide)
  obtain ⟨box, r₂, took⟩ := sc_dequeuev_zero holds₁ fits (by decide)
  have session : Session spsc spscAny (memRingInit default 8 0 0 0 0)
      [(.inl 1, ⟨1, []⟩), (.inr (.vec 0), .gave [box])] r₂ := by
    exact .cons inRange (put.inl scDequeue) (.cons trivial (took.inr spEnqueue) .nil)
  obtain ⟨⟨_, explained⟩, _⟩ := refines _ _ session
  cases explained with
  | cons first rest =>
    cases rest with
    | cons second _ =>
      have items := Fifo.Step.items_of_take (n := 0) second
      simp [Fifo.Reply.gave] at items

end Dmm.Ring.Shmem
