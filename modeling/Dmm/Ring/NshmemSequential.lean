import Dmm.Ring.Nshmem

/-!
# Lone calls of the process-local ring

Between calls the ring rests: `cons.tail` and `prod.tail` stand at the ends of a queue whose
elements are in the slots between them (`Rests`). A side is settled for a process when its
flags name the process and its two indices are equal (`Settled`); a call that finds both
sides settled behaves as the bounded queue, for every power-of-two size up to 2³¹ and
however often the indices wrap. The batch copy reads exactly the slots of the positions
asked for, whichever of its two paths it takes.
-/

namespace Dmm.Ring.Nshmem

open Dmm.Machine Dmm.Word

/-! ## The slots of a batch -/

theorem copyFours_eq (m i idx : Nat) :
    copyFours (i + 4 * m) i idx = List.range' idx (4 * m) := by
  induction m generalizing i idx with
  | zero =>
    rw [copyFours, if_neg (by omega)]
    rfl
  | succ m ih =>
    rw [copyFours, if_pos (by omega), show i + 4 * (m + 1) = (i + 4) + 4 * m by omega, ih,
      show 4 * (m + 1) = 4 * m + 1 + 1 + 1 + 1 by omega]
    simp only [List.range'_succ, Nat.add_assoc, Nat.reduceAdd]

theorem copyRest_eq {rest : UInt32} (small : rest.toNat < 4) (idx : Nat) :
    copyRest rest idx = List.range' idx rest.toNat := by
  have cases : rest = 0 ∨ rest = 1 ∨ rest = 2 ∨ rest = 3 := by
    simp only [← UInt32.toNat_inj]
    change rest.toNat = 0 ∨ rest.toNat = 1 ∨ rest.toNat = 2 ∨ rest.toNat = 3
    omega
  rcases cases with rfl | rfl | rfl | rfl <;> rfl

/-- The first loop of the split copy reads up to the end of the array. -/
theorem copyToEnd_eq (size idx : Nat) : copyToEnd size idx = List.range' idx (size - idx) := by
  by_cases inside : idx < size
  · have one : size - idx = (size - (idx + 1)) + 1 := by omega
    rw [copyToEnd, if_pos inside, copyToEnd_eq size (idx + 1), one, List.range'_succ]
  · rw [copyToEnd, if_neg inside, Nat.sub_eq_zero_of_le (by omega)]
    rfl
termination_by size - idx

/-- The second loop of the split copy reads what is left from the start of the array. -/
theorem copyFrom_eq (n i idx : Nat) : copyFrom n i idx = List.range' idx (n - i) := by
  by_cases inside : i < n
  · have one : n - i = (n - (i + 1)) + 1 := by omega
    rw [copyFrom, if_pos inside, copyFrom_eq n (i + 1) (idx + 1), one, List.range'_succ]
  · rw [copyFrom, if_neg inside, Nat.sub_eq_zero_of_le (by omega)]
    rfl
termination_by n - i

/-- Clearing the two low bits rounds down to a multiple of four. -/
theorem toNat_and_not_three (n : UInt32) : (n &&& ~~~3).toNat = 4 * (n.toNat / 4) := by
  have inWord := n.toNat_lt
  have mask : (~~~3 : UInt32).toNat = 2 ^ 32 - (3 + 1) := rfl
  rw [UInt32.toNat_and, mask]
  apply Nat.eq_of_testBit_eq
  intro i
  have shifted : 4 * (n.toNat / 4) = (n.toNat >>> 2) <<< 2 := by
    rw [Nat.shiftLeft_eq, Nat.shiftRight_eq_div_pow]
    omega
  rw [Nat.testBit_and, Nat.testBit_two_pow_sub_succ (by decide), shifted, Nat.testBit_shiftLeft,
    Nat.testBit_shiftRight]
  by_cases low : i < 2
  · have three : Nat.testBit 3 i = true := by
      have cases : i = 0 ∨ i = 1 := by omega
      rcases cases with rfl | rfl <;> rfl
    simp [three, low]
  · have three : Nat.testBit 3 i = false :=
      Nat.testBit_lt_two_pow (Nat.lt_of_lt_of_le (by decide : 3 < 2 ^ 2)
        (Nat.pow_le_pow_right (by decide) (by omega)))
    by_cases high : i < 32
    · simp [three, high, show 2 ≤ i by omega, show 2 + (i - 2) = i by omega]
    · have clear : Nat.testBit n.toNat i = false :=
        Nat.testBit_lt_two_pow (Nat.lt_of_lt_of_le inWord
          (Nat.pow_le_pow_right (by decide) (by omega)))
      simp [clear, show 2 + (i - 2) = i by omega]

theorem toNat_and_three (n : UInt32) : (n &&& 3).toNat = n.toNat % 4 := by
  rw [UInt32.toNat_and]
  exact Nat.and_two_pow_sub_one_eq_mod n.toNat 2

theorem copy_straight (n : UInt32) (idx : Nat) :
    copyFours (n &&& ~~~3).toNat 0 idx ++ copyRest (n &&& 3) (idx + (n &&& ~~~3).toNat) =
      List.range' idx n.toNat := by
  have fours := copyFours_eq (n.toNat / 4) 0 idx
  rw [Nat.zero_add] at fours
  have small : (n &&& 3).toNat < 4 := by
    rw [toNat_and_three]
    omega
  have rest := copyRest_eq small (idx + 4 * (n.toNat / 4))
  grind [toNat_and_not_three, toNat_and_three, List.range'_append_1]

variable {k : Nat} {r : MemRing}

/-- The copy reads the slots of the positions from the consumer's head on, one for each
element, in order. -/
theorem objCopy_eq (size : r.size = word (2 ^ k)) (mask : r.mask = word (2 ^ k - 1))
    (fits : k < 32) (c : Nat) {n : UInt32} (limit : n.toNat ≤ 2 ^ k) :
    objCopy r (word c) n = (List.range' c n.toNat).map (· % 2 ^ k) := by
  have positive := Nat.two_pow_pos k
  have bound : 2 ^ k ≤ 2 ^ 31 := Nat.pow_le_pow_right (by decide) (by omega)
  have inside : c % 2 ^ k < 2 ^ k := Nat.mod_lt c positive
  have idx : (word c &&& r.mask).toNat = c % 2 ^ k := by
    rw [mask, toNat_and_word c (by omega)]
  have sizeNat : r.size.toNat = 2 ^ k := by
    rw [size]
    exact toNat_word_of_lt (by omega)
  have sum : (word c &&& r.mask) + n < r.size ↔ c % 2 ^ k + n.toNat < 2 ^ k := by
    rw [UInt32.lt_iff_toNat_lt, UInt32.toNat_add, idx, sizeNat, Nat.mod_eq_of_lt (by omega)]
  unfold objCopy
  by_cases straight : c % 2 ^ k + n.toNat < 2 ^ k
  · simp only [if_pos (sum.mpr straight), idx, copy_straight]
    apply List.ext_getElem (by simp)
    intro i _ below
    have below : i < n.toNat := by simpa using below
    simp only [List.getElem_range', List.getElem_map, Nat.one_mul]
    rw [← Nat.mod_add_mod, Nat.mod_eq_of_lt (show c % 2 ^ k + i < 2 ^ k by omega)]
  · simp only [if_neg (mt sum.mp straight), idx, sizeNat, copyToEnd_eq, copyFrom_eq,
      List.length_range']
    apply List.ext_getElem (by simp; omega)
    intro i _ below
    have below : i < n.toNat := by simpa using below
    simp only [List.getElem_append, List.length_range', List.getElem_range', List.getElem_map,
      Nat.one_mul]
    rw [← Nat.mod_add_mod]
    by_cases before : i < 2 ^ k - c % 2 ^ k
    · rw [dif_pos before, Nat.mod_eq_of_lt (show c % 2 ^ k + i < 2 ^ k by omega)]
    · rw [dif_neg before, Nat.mod_eq_sub_mod (show 2 ^ k ≤ c % 2 ^ k + i by omega),
        Nat.mod_eq_of_lt (show c % 2 ^ k + i - 2 ^ k < 2 ^ k by omega)]
      omega

/-! ## A ring at rest -/

/-- Between calls: the elements at the positions from `t` up to `f` are published. -/
structure Rests (k t f : Nat) (item : Nat → Obj) (r : MemRing) : Prop where
  size_eq : r.size = word (2 ^ k)
  mask_eq : r.mask = word (2 ^ k - 1)
  prodTail_eq : r.prodTail = word f
  consTail_eq : r.consTail = word t
  ordered : t ≤ f
  limit : f ≤ t + 2 ^ k
  slots : ∀ q, t ≤ q → q < f → (r.ring (q % 2 ^ k)).dataL = item q

/-- The flags of a side name the process, and its indices are equal. -/
structure Settled (pid : UInt32) (r : MemRing) (side : Side) : Prop where
  hflag_eq : hflag r side = pid
  tflag_eq : tflag r side = pid
  head_eq : head r side = tail r side

/-- The elements of a ring at rest, oldest first. -/
def queue (t f : Nat) (item : Nat → Obj) : List Obj := (List.range' t (f - t)).map item

/-- The memory after a complete enqueue. -/
def put (r : MemRing) (obj : Obj) : MemRing :=
  { { r with prodHead := r.prodTail + 1 }.setSlot r.prodTail (.ofDataL obj) with
    prodTail := r.prodTail + 1 }

/-- The memory after a complete dequeue of some elements. -/
def take (r : MemRing) (num : UInt32) : MemRing :=
  { r with consHead := r.consTail + num, consTail := r.consTail + num }

variable {t f : Nat} {item : Nat → Obj} {pid : UInt32} {side : Side}

theorem queue_put (ordered : t ≤ f) (obj : Obj) :
    queue t (f + 1) (Function.update item f obj) = queue t f item ++ [obj] := by
  have last : t + (f - t) = f := by omega
  simp only [queue, Nat.succ_sub ordered, List.range'_concat, List.map_append, Nat.one_mul, last,
    List.map_cons, List.map_nil, Function.update_self, List.append_cancel_right_eq,
    List.map_inj_left]
  grind

theorem queue_take {n : Nat} (stored : n ≤ f - t) :
    (queue t f item).take n = (List.range' t n).map item ∧
      (queue t f item).drop n = queue (t + n) f item := by
  have split : f - t = n + (f - (t + n)) := by omega
  grind [List.range'_append_1, queue]

/-- A complete enqueue publishes one more element. -/
theorem Rests.put (rests : Rests k t f item r) (fits : k < 32) (room : f < t + 2 ^ k)
    (obj : Obj) : Rests k t (f + 1) (Function.update item f obj) (put r obj) := by
  have index : (r.prodTail &&& r.mask).toNat = f % 2 ^ k := by
    rw [rests.prodTail_eq, rests.mask_eq, toNat_and_word f (by omega)]
  refine ⟨rests.size_eq, rests.mask_eq, ?_, rests.consTail_eq, by have := rests.ordered; omega,
    room, ?_⟩
  · change r.prodTail + 1 = word (f + 1)
    rw [rests.prodTail_eq, word_succ]
  · intro q after before
    change (Function.update r.ring (r.prodTail &&& r.mask).toNat (.ofDataL obj) _).dataL = _
    rw [index]
    by_cases new : q = f
    · rw [new, Function.update_self, Function.update_self, RingData.dataL_ofDataL]
    · have other : q % 2 ^ k ≠ f % 2 ^ k :=
        (mod_ne_of_window (show q < f by omega) (by omega)).symm
      rw [Function.update_of_ne other, Function.update_of_ne new, rests.slots q after (by omega)]

theorem Rests.take (rests : Rests k t f item r) {num : UInt32} (stored : num.toNat ≤ f - t) :
    Rests k (t + num.toNat) f item (take r num) := by
  have := rests.ordered
  have := rests.limit
  refine ⟨rests.size_eq, rests.mask_eq, rests.prodTail_eq, ?_, by omega, by omega, ?_⟩
  · change r.consTail + num = word (t + num.toNat)
    rw [rests.consTail_eq, ← word_add, word_toNat]
  · intro q after before
    exact rests.slots q (by omega) before

theorem Rests.published_eq (rests : Rests k t f item r) (fits : k < 32) :
    published r = queue t f item := by
  have bound : 2 ^ k < 2 ^ 32 := Nat.pow_lt_pow_right (by decide) fits
  have := rests.ordered
  have := rests.limit
  have length : (r.prodTail - r.consTail).toNat = f - t := by
    rw [rests.prodTail_eq, rests.consTail_eq, toNat_word_sub (by omega) (by omega)]
  rw [published, queue, length]
  apply List.ext_getElem (by simp)
  intro i _ below
  have below : i < f - t := by simpa using below
  simp only [List.getElem_map, List.getElem_range, List.getElem_range', Nat.one_mul]
  rw [← rests.slots (t + i) (by omega) (by omega), MemRing.slot, rests.consTail_eq, word_add,
    rests.mask_eq, toNat_and_word (t + i) (by omega)]

/-! ## Parts shared by the operations -/

section Parts

variable {κ τ : Type} {code : Code κ τ MemRing Result Event} {events : List Event} {res : Result}
  {r' : MemRing}

/-- The memory after a fork recovery. -/
def recovered (pid : UInt32) (r : MemRing) (side : Side) : MemRing :=
  if hflag r side = pid then r
  else setTflag (setHead (setHflag r pid side) (tail r side) side) pid side

/-- A side whose flag names the process is settled. -/
def Owned (pid : UInt32) (r : MemRing) (side : Side) : Prop :=
  hflag r side = pid → Settled pid r side

theorem Owned.recovered (owned : Owned pid r side) :
    Settled pid (recovered pid r side) side := by
  unfold Nshmem.recovered
  split
  · exact owned ‹_›
  · cases side <;> exact ⟨rfl, rfl, rfl⟩

theorem Rests.recovered (rests : Rests k t f item r) (pid : UInt32) (side : Side) :
    Rests k t f item (recovered pid r side) := by
  unfold Nshmem.recovered
  simp only [hflag, setTflag, setHead, setHflag, tail]
  constructor <;> grind [Rests]

/-- A lone fork recovery runs through. -/
theorem recov_runs (side : Side) (pid : UInt32) (place : RecovPc → τ) (after : τ)
    (steps : ∀ pc r, code.step (place pc) r = match recovStep side pid pc r with
      | (.inl pc, r) => (.inl (place pc), r)
      | (.inr _, r) => (.inl after, r))
    (quiet : ∀ pc r, code.event (place pc) r = none)
    (rest : Trace code after (recovered pid r side) events res r') :
    Trace code (place .loadFlag) r events res r' := by
  unfold Nshmem.recovered at rest
  by_cases own : hflag r side = pid
  · rw [if_pos own] at rest
    exact .silent after r (by simp [steps, recovStep, own]) (quiet _ _) rest
  · rw [if_neg own] at rest
    have tails : tail (setHflag r pid side) side = tail r side := by cases side <;> rfl
    have heads : head (setHflag r pid side) side = head r side := by cases side <;> rfl
    refine .silent (place (.casFlag (hflag r side))) r (by simp [steps, recovStep, own])
      (quiet _ _) ?_
    refine .silent (place .loadTail) (setHflag r pid side) (by simp [steps, recovStep])
      (quiet _ _) ?_
    refine .silent (place (.loadHead (tail r side))) (setHflag r pid side)
      (by simp [steps, recovStep, tails]) (quiet _ _) ?_
    by_cases same : tail r side = head r side
    · have unmoved : setHead (setHflag r pid side) (tail r side) side = setHflag r pid side := by
        rw [same]
        cases side <;> rfl
      rw [unmoved] at rest
      refine .silent (place .storeFlag) (setHflag r pid side)
        (by simp [steps, recovStep, heads, same]) (quiet _ _) ?_
      exact .silent after _ (by simp [steps, recovStep]) (quiet _ _) rest
    · refine .silent (place .reloadTail) (setHflag r pid side)
        (by simp [steps, recovStep, heads, same]) (quiet _ _) ?_
      refine .silent (place (.storeHead (tail r side))) (setHflag r pid side)
        (by simp [steps, recovStep, tails]) (quiet _ _) ?_
      refine .silent (place .storeFlag) (setHead (setHflag r pid side) (tail r side) side)
        (by simp [steps, recovStep]) (quiet _ _) ?_
      exact .silent after _ (by simp [steps, recovStep]) (quiet _ _) rest

theorem wait_runs (side : Side) (place : WaitPc → τ) (after : τ)
    (steps : ∀ pc r, code.step (place pc) r = match waitStep side pc r with
      | .inl pc => (.inl (place pc), r)
      | .inr _ => (.inl after, r))
    (quiet : ∀ pc r, code.event (place pc) r = none) (settled : Settled pid r side)
    (rest : Trace code after r events res r') :
    Trace code (place .loadTail) r events res r' := by
  refine .silent (place (.loadHead (tail r side))) r (by simp [steps, waitStep]) (quiet _ _) ?_
  refine .silent (place .loadFlag) r (by simp [steps, waitStep, settled.head_eq]) (quiet _ _) ?_
  refine .silent (place (.cmpFlag pid)) r ?_ (quiet _ _) ?_
  · cases side <;> simp [steps, waitStep, settled.hflag_eq, settled.tflag_eq]
  · refine .silent after r ?_ (quiet _ _) rest
    cases side <;> simp [steps, waitStep, settled.hflag_eq, settled.tflag_eq]

theorem copy_runs (place : List Nat → List Obj → τ) (after : List Obj → τ)
    (stops : ∀ out r, code.step (place [] out) r = (.inl (after out), r) ∧
      code.event (place [] out) r = none)
    (steps : ∀ idx todo out r, code.step (place (idx :: todo) out) r =
        (.inl (place todo (out ++ [(r.ring idx).dataL])), r) ∧
      code.event (place (idx :: todo) out) r = some (.delivered (r.ring idx).dataL))
    (todo : List Nat) (out : List Obj)
    (rest : Trace code (after (out ++ todo.map fun idx => (r.ring idx).dataL)) r events res r') :
    Trace code (place todo out) r
      ((todo.map fun idx => .delivered (r.ring idx).dataL) ++ events) res r' := by
  induction todo generalizing out with
  | nil =>
    rw [List.map_nil, List.append_nil] at rest
    exact .silent (after out) r (stops out r).1 (stops out r).2 rest
  | cons idx todo ih =>
    rw [List.map_cons, List.append_cons] at rest
    rw [List.map_cons, List.cons_append]
    exact .emits _ r _ (steps idx todo out r).1 (steps idx todo out r).2 (ih _ rest)

end Parts

/-! ## Enqueue -/

theorem Rests.freeTest (rests : Rests k t f item r) (fits : k < 32) :
    1 > r.size + r.consTail - word f ↔ f = t + 2 ^ k := by
  have bound : 2 ^ k < 2 ^ 32 := Nat.pow_lt_pow_right (by decide) fits
  have := rests.ordered
  have := rests.limit
  rw [gt_iff_lt, UInt32.lt_iff_toNat_lt, rests.size_eq, rests.consTail_eq, word_add,
    toNat_word_sub (by omega) (by omega), UInt32.toNat_one]
  omega

/-- A producer whose reservation is the oldest open one goes on to publish it. -/
theorem mp_turn (pid : UInt32) {h : UInt32} (oldest : r.prodTail = h) :
    mpStep pid (.turn h) r = (.inl (.publish h), r) := by
  simp [mpStep, oldest]

/-- A consumer whose claim is the oldest open one goes on to publish it. -/
theorem mc_turn (pid : UInt32) {c num : UInt32} (oldest : r.consTail = c) (out : List Obj) :
    mcStep pid (.turn c num out) r = (.inl (.publish c num out), r) := by
  simp [mcStep, oldest]

/-- A lone producer that has found room reserves, writes and publishes the next slot. -/
theorem mp_reserves (owned : Owned pid r .prod) (obj : Obj) :
    Trace (mpEnqueue pid) (.recov obj r.prodTail .loadFlag) r [.reserved obj] ⟨1, []⟩
      (put (recovered pid r .prod) obj) := by
  have settled := owned.recovered
  have tail : (recovered pid r .prod).prodTail = r.prodTail := by
    unfold Nshmem.recovered
    split <;> rfl
  have head : (recovered pid r .prod).prodHead = r.prodTail := settled.head_eq.trans tail
  refine recov_runs .prod pid (MpPc.recov obj r.prodTail) (.wait obj r.prodTail .loadTail)
    (fun _ _ => rfl) (fun _ _ => rfl) ?_
  refine wait_runs .prod (MpPc.wait obj r.prodTail) (.cas obj r.prodTail) (fun _ _ => rfl)
    (fun _ _ => rfl) settled ?_
  rw [put, tail]
  refine .emits (.write obj r.prodTail)
    { recovered pid r .prod with prodHead := r.prodTail + 1 } _
    (by simp only [mpEnqueue, mpStep, if_pos head]) (by simp only [mpEnqueue, if_pos head]) ?_
  refine .silent (.turn r.prodTail) _ rfl rfl ?_
  refine .silent (.publish r.prodTail) _ (mp_turn pid tail) rfl ?_
  exact .ends rfl rfl

theorem mp_accepts (rests : Rests k t f item r) (fits : k < 32) (owned : Owned pid r .prod)
    (head : r.prodHead = r.prodTail) (room : f < t + 2 ^ k) (obj : Obj) :
    Trace (mpEnqueue pid) (.loadHead obj) r [.reserved obj] ⟨1, []⟩
      (put (recovered pid r .prod) obj) := by
  have free : ¬ 1 > r.size + r.consTail - r.prodTail := by
    rw [rests.prodTail_eq, rests.freeTest fits]
    omega
  refine .silent (.loadTail obj r.prodTail) r (by simp only [mpEnqueue, mpStep, head]) rfl ?_
  refine .silent (.recov obj r.prodTail .loadFlag) r
    (by simp only [mpEnqueue, mpStep, if_neg free]) rfl ?_
  exact mp_reserves owned obj

theorem mp_refuses (rests : Rests k t f item r) (fits : k < 32)
    (head : r.prodHead = r.prodTail) (full : f = t + 2 ^ k) (obj : Obj) :
    Trace (mpEnqueue pid) (.loadHead obj) r [] ⟨0, []⟩ r := by
  have noRoom : 1 > r.size + r.consTail - r.prodTail := by
    rw [rests.prodTail_eq, rests.freeTest fits]
    exact full
  refine .silent (.loadTail obj r.prodTail) r (by simp only [mpEnqueue, mpStep, head]) rfl ?_
  exact .ends (by simp only [mpEnqueue, mpStep, if_pos noRoom]) rfl

/-- A lone enqueue into a ring with room by the single producer. -/
theorem sp_accepts (rests : Rests k t f item r) (fits : k < 32)
    (head : r.prodHead = r.prodTail) (room : f < t + 2 ^ k) (obj : Obj) :
    Trace (spEnqueue pid) (.loadHead obj) r [.reserved obj] ⟨1, []⟩
      (put (recovered pid r .prod) obj) := by
  have free : ¬ 1 > r.size + r.consTail - r.prodTail := by
    rw [rests.prodTail_eq, rests.freeTest fits]
    omega
  have tail : (recovered pid r .prod).prodTail = r.prodTail := by
    unfold Nshmem.recovered
    split <;> rfl
  refine .silent (.loadTail obj r.prodTail) r (by simp only [spEnqueue, spStep, head]) rfl ?_
  refine .silent (.recov obj r.prodTail .loadFlag) r
    (by simp only [spEnqueue, spStep, if_neg free]) rfl ?_
  refine recov_runs .prod pid (SpPc.recov obj r.prodTail) (.storeHead obj r.prodTail)
    (fun _ _ => rfl) (fun _ _ => rfl) ?_
  rw [put, tail]
  refine .emits (.write obj r.prodTail) _ _ rfl rfl ?_
  refine .silent (.storeTail r.prodTail) _ rfl rfl ?_
  exact .ends rfl rfl

/-- A lone enqueue by the single producer that finds no room changes nothing. -/
theorem sp_refuses (rests : Rests k t f item r) (fits : k < 32)
    (head : r.prodHead = r.prodTail) (full : f = t + 2 ^ k) (obj : Obj) :
    Trace (spEnqueue pid) (.loadHead obj) r [] ⟨0, []⟩ r := by
  have noRoom : 1 > r.size + r.consTail - r.prodTail := by
    rw [rests.prodTail_eq, rests.freeTest fits]
    exact full
  refine .silent (.loadTail obj r.prodTail) r (by simp only [spEnqueue, spStep, head]) rfl ?_
  exact .ends (by simp only [spEnqueue, spStep, if_pos noRoom]) rfl

/-! ## Dequeue -/

theorem Rests.entries_eq (rests : Rests k t f item r) (fits : k < 32) :
    (r.prodTail - word t).toNat = f - t := by
  have bound : 2 ^ k < 2 ^ 32 := Nat.pow_lt_pow_right (by decide) fits
  have := rests.ordered
  have := rests.limit
  rw [rests.prodTail_eq, toNat_word_sub (by omega) (by omega)]

theorem Rests.copied (rests : Rests k t f item r) (fits : k < 32) {num : UInt32}
    (stored : num.toNat ≤ f - t) :
    ((objCopy r (word t) num).map fun idx => (r.ring idx).dataL) =
      (queue t f item).take num.toNat := by
  have := rests.limit
  have := Nat.two_pow_pos k
  rw [objCopy_eq rests.size_eq rests.mask_eq fits t (by omega), (queue_take stored).1,
    List.map_map]
  apply List.map_congr_left
  grind [rests.slots]

/-- A lone batch copy from a ring at rest reads the oldest elements. -/
theorem Rests.copy_runs {κ τ : Type} {code : Code κ τ MemRing Result Event} {res : Result}
    {r₁ r' : MemRing} (place : List Nat → List Obj → τ) (after : List Obj → τ)
    (stops : ∀ out r, code.step (place [] out) r = (.inl (after out), r) ∧
      code.event (place [] out) r = none)
    (steps : ∀ idx todo out r, code.step (place (idx :: todo) out) r =
        (.inl (place todo (out ++ [(r.ring idx).dataL])), r) ∧
      code.event (place (idx :: todo) out) r = some (.delivered (r.ring idx).dataL))
    (rests : Rests k t f item r) (fits : k < 32) {num : UInt32} (stored : num.toNat ≤ f - t)
    (same : r₁.ring = r.ring)
    (rest : Trace code (after ((queue t f item).take num.toNat)) r₁ [] res r') :
    Trace code (place (objCopy r r.consTail num) []) r₁
      (((queue t f item).take num.toNat).map .delivered) res r' := by
  have copied := rests.copied fits stored
  rw [← rests.consTail_eq, ← same] at copied
  have items : (((queue t f item).take num.toNat).map Event.delivered) =
      ((objCopy r r.consTail num).map fun idx => .delivered (r₁.ring idx).dataL) ++ [] := by
    rw [← copied, List.map_map, List.append_nil]
    rfl
  rw [items]
  apply Nshmem.copy_runs place after stops steps
  rw [List.nil_append, copied]
  exact rest

theorem gave_take {num : UInt32} (stored : num.toNat ≤ f - t) :
    (⟨int32 num.toNat, (queue t f item).take num.toNat⟩ : Result) =
      .gave ((queue t f item).take num.toNat) := by grind [queue, Fifo.Reply.gave]

/-- The events of a dequeue: the claim, and the deliveries. -/
def takeEvents (items : List Obj) (num : UInt32) : List Event :=
  .claimed num.toNat :: items.map .delivered

/-- A lone dequeue that has found its number of elements takes them, on a settled side. -/
theorem mc_claims (rests : Rests k t f item r) (fits : k < 32) (settled : Settled pid r .cons)
    (n : UInt32) {num : UInt32} (stored : num.toNat ≤ f - t) :
    Trace (mcDequeue pid) (.wait n r.consTail num .loadTail) r
      (takeEvents ((queue t f item).take num.toNat) num)
      (.gave ((queue t f item).take num.toNat)) (take r num) := by
  have head : r.consHead = r.consTail := settled.head_eq
  refine wait_runs .cons (McPc.wait n r.consTail num) (.cas n r.consTail num) (fun _ _ => rfl)
    (fun _ _ => rfl) settled ?_
  refine .emits (.copy r.consTail num (objCopy r r.consTail num) [])
    { r with consHead := r.consTail + num } _
    (by simp only [mcDequeue, mcStep, if_pos head]) (by simp only [mcDequeue, if_pos head]) ?_
  refine rests.copy_runs (McPc.copy r.consTail num) (.turn r.consTail num)
    (fun _ _ => ⟨rfl, rfl⟩) (fun _ _ _ _ => ⟨rfl, rfl⟩) fits stored ?_ ?_
  · rfl
  refine .silent (.publish r.consTail num _) _ (mc_turn pid rfl _) rfl ?_
  exact .ends (by simp only [mcDequeue, mcStep, gave_take stored]; rfl) rfl

/-- A lone dequeue by the single consumer that has found its number of elements. -/
theorem sc_claims (pid : UInt32) (rests : Rests k t f item r) (fits : k < 32) {num : UInt32}
    (stored : num.toNat ≤ f - t) :
    Trace (scDequeue pid) (.storeHead r.consTail num) r
      (takeEvents ((queue t f item).take num.toNat) num)
      (.gave ((queue t f item).take num.toNat)) (take r num) := by
  refine .emits (.copy r.consTail num (objCopy r r.consTail num) [])
    { r with consHead := r.consTail + num } _ rfl rfl ?_
  refine rests.copy_runs (ScPc.copy r.consTail num) (.storeTail r.consTail num)
    (fun _ _ => ⟨rfl, rfl⟩) (fun _ _ _ _ => ⟨rfl, rfl⟩) fits stored ?_ ?_
  · rfl
  exact .ends (by simp only [scDequeue, scStep, gave_take stored]; rfl) rfl

/-! ## Complete calls -/

/-- Nothing of a side has changed. -/
structure Untouched (r r' : MemRing) (side : Side) : Prop where
  hflag_eq : hflag r' side = hflag r side
  tflag_eq : tflag r' side = tflag r side
  head_eq : head r' side = head r side
  tail_eq : tail r' side = tail r side

theorem Settled.untouched {r' : MemRing} (settled : Settled pid r side)
    (same : Untouched r r' side) : Settled pid r' side :=
  ⟨same.hflag_eq.trans settled.hflag_eq, same.tflag_eq.trans settled.tflag_eq,
    same.head_eq.trans (settled.head_eq.trans same.tail_eq.symm)⟩

theorem Untouched.refl (r : MemRing) (side : Side) : Untouched r r side :=
  ⟨rfl, rfl, rfl, rfl⟩

/-- A recovery of the consumers' side does not touch the producers' side. -/
theorem untouched_recovered (r : MemRing) (pid : UInt32) :
    Untouched r (recovered pid r .cons) .prod := by
  unfold Nshmem.recovered
  split <;> exact ⟨rfl, rfl, rfl, rfl⟩

theorem untouched_put (r : MemRing) (pid : UInt32) (obj : Obj) :
    Untouched r (put (recovered pid r .prod) obj) .cons := by
  unfold Nshmem.recovered
  split <;> exact ⟨rfl, rfl, rfl, rfl⟩

theorem untouched_take (r : MemRing) (pid num : UInt32) :
    Untouched r (take (recovered pid r .cons) num) .prod := by
  unfold Nshmem.recovered
  split <;> exact ⟨rfl, rfl, rfl, rfl⟩

theorem Settled.put (settled : Settled pid r .prod) (obj : Obj) :
    Settled pid (put r obj) .prod :=
  ⟨settled.hflag_eq, settled.tflag_eq, rfl⟩

theorem Settled.take (settled : Settled pid r .cons) (num : UInt32) :
    Settled pid (take r num) .cons :=
  ⟨settled.hflag_eq, settled.tflag_eq, rfl⟩

/-- What a complete enqueue leaves: the queue's reply, and a settled side unless the call
changed nothing. -/
def PutCall (k t f : Nat) (item : Nat → Obj) (pid : UInt32) (r : MemRing)
    (calls : Obj → MemRing → Result → MemRing → Prop) (obj : Obj) : Prop :=
  ∃ ret r' f' item', calls obj r ⟨ret, []⟩ r' ∧ Rests k t f' item' r' ∧
    Fifo.Step (2 ^ k) (queue t f item) (.put obj) ⟨ret, []⟩ (queue t f' item') ∧
    (Settled pid r' .prod ∨ r' = r) ∧ Untouched r r' .cons

/-- What a complete dequeue leaves. -/
def TakeCall (k t f : Nat) (item : Nat → Obj) (pid : UInt32) (r : MemRing)
    (calls : UInt32 → MemRing → Result → MemRing → Prop) (n : UInt32) : Prop :=
  ∃ r' t', calls n r (.gave ((queue t f item).take n.toNat)) r' ∧ Rests k t' f item r' ∧
    queue t' f item = (queue t f item).drop n.toNat ∧ t ≤ t' ∧
    (Settled pid r' .cons ∨ r' = r) ∧ Untouched r r' .prod

/-- An enqueue that a trace accepts behaves as the queue. -/
theorem putCall_accepted {τ : Type} {code : Code Obj τ MemRing Result Event} {obj : Obj}
    (rests : Rests k t f item r) (fits : k < 32) (owned : Owned pid r .prod)
    (room : f < t + 2 ^ k)
    (trace : Trace code (code.start obj) r [.reserved obj] ⟨1, []⟩
      (put (recovered pid r .prod) obj)) :
    PutCall k t f item pid r code.Calls obj := by
  refine ⟨1, _, f + 1, _, trace.returns, (rests.recovered pid .prod).put fits room obj, ?_,
    .inl (owned.recovered.put obj), untouched_put r pid obj⟩
  have length : (queue t f item).length < 2 ^ k := by grind [queue]
  rw [queue_put rests.ordered]
  exact .accepted length

theorem putCall_refused {τ : Type} {code : Code Obj τ MemRing Result Event} {obj : Obj}
    (rests : Rests k t f item r) (full : f = t + 2 ^ k)
    (trace : Trace code (code.start obj) r [] ⟨0, []⟩ r) :
    PutCall k t f item pid r code.Calls obj := by
  refine ⟨0, r, f, item, trace.returns, rests, ?_, .inr rfl, .refl r .cons⟩
  exact .refused (by simp [queue]; omega)

/-- A multi-producer enqueue on a side with no open reservation behaves as the queue. -/
theorem mp_call (rests : Rests k t f item r) (fits : k < 32) (owned : Owned pid r .prod)
    (head : r.prodHead = r.prodTail) (obj : Obj) :
    PutCall k t f item pid r (mpEnqueue pid).Calls obj := by
  have := rests.limit
  by_cases room : f < t + 2 ^ k
  · exact putCall_accepted rests fits owned room (mp_accepts rests fits owned head room obj)
  · have full : f = t + 2 ^ k := by omega
    exact putCall_refused rests full (mp_refuses rests fits head full obj)

/-- A single-producer enqueue on a side with no open reservation behaves as the queue. -/
theorem sp_call (rests : Rests k t f item r) (fits : k < 32) (owned : Owned pid r .prod)
    (head : r.prodHead = r.prodTail) (obj : Obj) :
    PutCall k t f item pid r (spEnqueue pid).Calls obj := by
  have := rests.limit
  by_cases room : f < t + 2 ^ k
  · exact putCall_accepted rests fits owned room (sp_accepts rests fits head room obj)
  · have full : f = t + 2 ^ k := by omega
    exact putCall_refused rests full (sp_refuses rests fits head full obj)

/-- A dequeue that a trace takes behaves as the queue. -/
theorem takeCall_taken {τ : Type} {code : Code UInt32 τ MemRing Result Event} {n num : UInt32}
    (rests : Rests k t f item r) (owned : Owned pid r .cons)
    (stored : num.toNat = min n.toNat (f - t))
    (trace : Trace code (code.start n) r (takeEvents ((queue t f item).take num.toNat) num)
      (.gave ((queue t f item).take num.toNat)) (take (recovered pid r .cons) num)) :
    TakeCall k t f item pid r code.Calls n := by
  have length : (queue t f item).length = f - t := by simp [queue]
  have taken : (queue t f item).take num.toNat = (queue t f item).take n.toNat := by
    rw [stored, ← length, List.take_eq_take_min]
    simp
  have left : queue (t + num.toNat) f item = (queue t f item).drop n.toNat := by
    rw [← (queue_take (by omega)).2, stored, ← length]
    simp
  rw [taken] at trace
  exact ⟨_, t + num.toNat, trace.returns, (rests.recovered pid .cons).take (by omega), left,
    by omega, .inl (owned.recovered.take num), untouched_take r pid num⟩

/-- A dequeue without anything to take behaves as the queue. -/
theorem takeCall_nothing {τ : Type} {code : Code UInt32 τ MemRing Result Event} {n : UInt32}
    {r' : MemRing} (rests : Rests k t f item r') (nothing : n.toNat = 0 ∨ f = t)
    (settled : Settled pid r' .cons ∨ r' = r) (same : Untouched r r' .prod)
    (trace : Trace code (code.start n) r [] ⟨0, []⟩ r') :
    TakeCall k t f item pid r code.Calls n := by
  have none : (queue t f item).take n.toNat = [] := by
    rcases nothing with zero | empty
    · rw [zero, List.take_zero]
    · simp [queue, empty]
  have all : (queue t f item).drop n.toNat = queue t f item := by
    rcases nothing with zero | empty
    · rw [zero, List.drop_zero]
    · simp [queue, empty]
  refine ⟨r', t, ?_, rests, all.symm, Nat.le_refl t, settled, same⟩
  rw [none]
  exact trace.returns

/-- The number of elements a dequeue claims, and what it does without any. -/
theorem Rests.claim_cases (rests : Rests k t f item r) (fits : k < 32) (n : UInt32) :
    (n > r.prodTail - r.consTail ∧ ¬ r.prodTail - r.consTail > 0 ∧ f = t) ∨
    (n > r.prodTail - r.consTail ∧ r.prodTail - r.consTail > 0 ∧
      (r.prodTail - r.consTail).toNat = min n.toNat (f - t)) ∨
    (¬ n > r.prodTail - r.consTail ∧ n.toNat = min n.toNat (f - t)) := by
  grind [rests.entries_eq, rests.consTail_eq, rests.ordered, UInt32.lt_iff_toNat_lt]

/-- The fork recovery comes first in a multi-consumer dequeue. -/
theorem mc_enters {n : UInt32} {events : List Event} {res : Result} {r' : MemRing}
    (owned : Owned pid r .cons) (asked : n ≠ 0)
    (rest : Trace (mcDequeue pid) (.loadTail n (recovered pid r .cons).consTail)
      (recovered pid r .cons) events res r') :
    Trace (mcDequeue pid) (.start n) r events res r' := by
  have head : (recovered pid r .cons).consHead = (recovered pid r .cons).consTail :=
    owned.recovered.head_eq
  refine .silent (.recov n .loadFlag) r (by simp [mcDequeue, mcStep, asked]) rfl ?_
  refine recov_runs .cons pid (McPc.recov n) (.loadHead n) (fun _ _ => rfl) (fun _ _ => rfl) ?_
  exact .silent _ _ (by simp only [mcDequeue, mcStep, head]) rfl rest

/-- A lone multi-consumer dequeue takes what it has asked for, as far as there is any. -/
theorem mc_takes (rests : Rests k t f item r) (fits : k < 32) (owned : Owned pid r .cons)
    {n num : UInt32} (asked : n ≠ 0) (some : num ≠ 0)
    (stored : num.toNat = min n.toNat (f - t)) :
    Trace (mcDequeue pid) (.start n) r (takeEvents ((queue t f item).take num.toNat) num)
      (.gave ((queue t f item).take num.toNat)) (take (recovered pid r .cons) num) := by
  have rests' := rests.recovered pid .cons
  have claims := mc_claims rests' fits owned.recovered n (show num.toNat ≤ f - t by omega)
  have positive : num.toNat ≠ 0 := fun zero => some (UInt32.toNat_inj.mp zero)
  apply mc_enters owned asked
  rcases rests'.claim_cases fits n with ⟨few, none, empty⟩ | ⟨few, left, all⟩ | ⟨enough, all⟩
  · omega
  · obtain rfl := UInt32.toNat_inj.mp (stored.trans all.symm)
    exact .silent _ _ (by simp only [mcDequeue, mcStep, if_pos few, if_pos left]) rfl claims
  · obtain rfl := UInt32.toNat_inj.mp (stored.trans all.symm)
    exact .silent _ _ (by simp only [mcDequeue, mcStep, if_neg enough]) rfl claims

/-- A multi-consumer dequeue behaves as the queue, whatever the consumers' side held. -/
theorem mc_call (rests : Rests k t f item r) (fits : k < 32) (owned : Owned pid r .cons)
    (n : UInt32) : TakeCall k t f item pid r (mcDequeue pid).Calls n := by
  by_cases zero : n = 0
  · refine takeCall_nothing rests (.inl (by simp [zero])) (.inr rfl) (.refl r .prod) ?_
    exact .ends (by simp [mcDequeue, mcStep, zero]) rfl
  have rests' := rests.recovered pid .cons
  have positive : n.toNat ≠ 0 := fun none => zero (UInt32.toNat_inj.mp none)
  rcases rests'.claim_cases fits n with ⟨few, none, empty⟩ | ⟨_, some, stored⟩ | ⟨_, stored⟩
  · refine takeCall_nothing rests' (.inr empty) (.inl owned.recovered)
      (untouched_recovered r pid) (mc_enters owned zero ?_)
    exact .ends (by simp only [mcDequeue, mcStep, if_pos few, if_neg none]) rfl
  · exact takeCall_taken rests owned stored
      (mc_takes rests fits owned zero (UInt32.ne_of_lt some).symm stored)
  · exact takeCall_taken rests owned stored (mc_takes rests fits owned zero zero stored)

/-- A single-consumer dequeue on a side with no open claim behaves as the queue. -/
theorem sc_call (rests : Rests k t f item r) (fits : k < 32) (owned : Owned pid r .cons)
    (head : r.consHead = r.consTail) (n : UInt32) :
    TakeCall k t f item pid r (scDequeue pid).Calls n := by
  have rests' := rests.recovered pid .cons
  have tail : (recovered pid r .cons).consTail = r.consTail := by
    unfold Nshmem.recovered
    split <;> rfl
  -- the number is chosen first, and the recovery comes only when there is something to take
  have takes {num : UInt32} (stored : num.toNat = min n.toNat (f - t))
      (chosen : scStep pid (.loadTail n r.consTail) r =
        (.inl (.recov r.consTail num .loadFlag), r)) :
      TakeCall k t f item pid r (scDequeue pid).Calls n := by
    refine takeCall_taken rests owned stored ?_
    refine .silent (.loadTail n r.consTail) r (by simp only [scDequeue, scStep, head]) rfl ?_
    refine .silent (.recov r.consTail num .loadFlag) r chosen rfl ?_
    refine recov_runs .cons pid (ScPc.recov r.consTail num) (.storeHead r.consTail num)
      (fun _ _ => rfl) (fun _ _ => rfl) ?_
    grind [sc_claims]
  rcases rests.claim_cases fits n with ⟨few, none, empty⟩ | ⟨few, some, num⟩ | ⟨enough, num⟩
  · refine takeCall_nothing rests (.inr empty) (.inr rfl) (.refl r .prod) ?_
    refine .silent (.loadTail n r.consTail) r (by simp only [scDequeue, scStep, head]) rfl ?_
    exact .ends (by simp only [scDequeue, scStep, if_pos few, if_neg none]) rfl
  · exact takes num (by simp only [scStep, if_pos few, if_pos some])
  · exact takes num (by simp only [scStep, if_neg enough])

/-! ## The queue -/

/-- A call: enqueues carry an object, dequeues the number asked for; first the
multi-threaded flavour, then the single one. -/
abbrev Call := (Obj ⊕ Obj) ⊕ (UInt32 ⊕ UInt32)

/-- The queue operation a call stands for. -/
def queueOp : Call → Fifo.Op Obj
  | .inl (.inl obj) => .put obj
  | .inl (.inr obj) => .put obj
  | .inr (.inl n) => .take n.toNat
  | .inr (.inr n) => .take n.toNat

/-- Every call may be made. -/
def anyCall (_ : Call) (_ : MemRing) : Prop := True

/-- The queue a settled ring stands for. -/
def StandsFor (k : Nat) (pid : UInt32) (q : List Obj) (r : MemRing) : Prop :=
  ∃ t f item, Rests k t f item r ∧ Settled pid r .prod ∧ Settled pid r .cons ∧
    q = queue t f item

/-- A side that a call has settled or has not changed is settled if it was. -/
theorem Settled.after {r' : MemRing} (settled : Settled pid r side)
    (left : Settled pid r' side ∨ r' = r) : Settled pid r' side := by
  rcases left with settled' | rfl
  · exact settled'
  · exact settled

theorem PutCall.simulates {calls : Obj → MemRing → Result → MemRing → Prop} {obj : Obj}
    (call : PutCall k t f item pid r calls obj) (prod : Settled pid r .prod)
    (cons : Settled pid r .cons) :
    ∃ res r' q', calls obj r res r' ∧ Fifo.Step (2 ^ k) (queue t f item) (.put obj) res q' ∧
      StandsFor k pid q' r' := by
  obtain ⟨ret, r', f', item', run, rests', step, left, same⟩ := call
  exact ⟨_, r', _, run, step, t, f', item', rests', prod.after left, cons.untouched same, rfl⟩

/-- A complete dequeue keeps the ring standing for the queue. -/
theorem TakeCall.simulates {calls : UInt32 → MemRing → Result → MemRing → Prop} {n : UInt32}
    (call : TakeCall k t f item pid r calls n) (prod : Settled pid r .prod)
    (cons : Settled pid r .cons) :
    ∃ res r' q', calls n r res r' ∧
      Fifo.Step (2 ^ k) (queue t f item) (.take n.toNat) res q' ∧ StandsFor k pid q' r' := by
  obtain ⟨r', t', run, rests', left, _, settled, same⟩ := call
  exact ⟨_, r', _, run, .taken, t', f, item, rests', prod.untouched same, cons.after settled,
    left.symm⟩

theorem Settled.owned (settled : Settled pid r side) : Owned pid r side := fun _ => settled

/-- Every call behaves as the queue the ring stands for. -/
theorem ops_simulate (fits : k < 32) (q : List Obj) (r : MemRing) (c : Call)
    (stands : StandsFor k pid q r) :
    ∃ res r' q', (ops pid).Calls c r res r' ∧ Fifo.Step (2 ^ k) q (queueOp c) res q' ∧
      StandsFor k pid q' r' := by
  obtain ⟨t, f, item, rests, prod, cons, rfl⟩ := stands
  match c with
  | .inl (.inl obj) =>
    obtain ⟨res, r', q', call, step, stands⟩ :=
      (mp_call rests fits prod.owned prod.head_eq obj).simulates prod cons
    exact ⟨res, r', q', (call.inl _).inl _, step, stands⟩
  | .inl (.inr obj) =>
    obtain ⟨res, r', q', call, step, stands⟩ :=
      (sp_call rests fits prod.owned prod.head_eq obj).simulates prod cons
    exact ⟨res, r', q', (call.inr _).inl _, step, stands⟩
  | .inr (.inl n) =>
    obtain ⟨res, r', q', call, step, stands⟩ :=
      (mc_call rests fits cons.owned n).simulates prod cons
    exact ⟨res, r', q', (call.inl _).inr _, step, stands⟩
  | .inr (.inr n) =>
    obtain ⟨res, r', q', call, step, stands⟩ :=
      (sc_call rests fits cons.owned cons.head_eq n).simulates prod cons
    exact ⟨res, r', q', (call.inr _).inr _, step, stands⟩

/-- A ring that was just initialised is at rest and empty. -/
theorem rests_init (ring : MemRing) (item : Nat → Obj) (addrbase : Nat) (memtype flag : UInt8)
    (pid : UInt32) :
    Rests k 0 0 item (memRingInit ring (word (2 ^ k)) addrbase memtype flag pid) where
  size_eq := rfl
  mask_eq := word_sub (Nat.one_le_two_pow)
  prodTail_eq := rfl
  consTail_eq := rfl
  ordered := Nat.le_refl 0
  limit := Nat.zero_le _
  slots := fun _ _ before => absurd before (Nat.not_lt_zero _)

/-- A ring that was just initialised is settled for the process that initialised it. -/
theorem settled_init (ring : MemRing) (size : UInt32) (addrbase : Nat) (memtype flag : UInt8)
    (pid : UInt32) (side : Side) :
    Settled pid (memRingInit ring size addrbase memtype flag pid) side := by
  cases side <;> exact ⟨rfl, rfl, rfl⟩

/-- For every power-of-two size of 32 bits, every run of complete calls of the four operations
by the process that created the ring is a run of the queue of that capacity, and every call
of it returns. -/
theorem nshmem_refines_fifo (ring : MemRing) (k : Nat) (fits : k < 32) (addrbase : Nat)
    (memtype flag : UInt8) (pid : UInt32) :
    Fifo.Refines (ops pid) queueOp anyCall (2 ^ k)
      (memRingInit ring (word (2 ^ k)) addrbase memtype flag pid) [] := by
  refine Fifo.refines_of_simulation (StandsFor k pid) (fun q r c stands _ =>
    ops_simulate fits q r c stands) ?_
  exact ⟨0, 0, fun _ => 0, rests_init ring _ addrbase memtype flag pid,
    settled_init ring _ addrbase memtype flag pid .prod,
    settled_init ring _ addrbase memtype flag pid .cons, rfl⟩

/-- The largest ring: 2³¹ slots. -/
theorem nshmem_refines_fifo_largest :
    Fifo.Refines (ops 7) queueOp anyCall (2 ^ 31)
      (memRingInit default (word (2 ^ 31)) 0 0 0 7) [] :=
  nshmem_refines_fifo default 31 (by decide) 0 0 0 7

end Dmm.Ring.Nshmem
