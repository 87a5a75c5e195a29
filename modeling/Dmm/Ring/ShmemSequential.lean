import Dmm.Ring.ShmemView

/-!
# Lone calls of the multi-producer multi-consumer ring

A call that runs alone scans forward from its hint. Positions it passes are recognised by
their slots, so it arrives at the true end of the queue provided the hint lags by no more
than the reach of the scan, `mask - 1`; beyond that reach the scan falls back to the hint
and never ends. From `HeadNear` and `TailNear` the lag is at most four positions, which
every size but two and four can scan.
-/

namespace Dmm.Ring.Shmem

open Dmm.Machine Dmm.Word

variable {k : Nat} {v : View} {r r' : MemRing} {res : Result}

/-- How far past the hint a scan goes before it falls back: `mask - 1` as an `unsigned int`. -/
def scanReach (k : Nat) : Nat := if k = 0 then 2 ^ 32 - 1 else 2 ^ k - 2

/-- The reach of the scan is the word the code compares with. -/
theorem Holds.toNat_mask_pred (holds : Holds k v r) (fits : k < 32) :
    (r.mask - 1).toNat = scanReach k := by
  have small : 2 ^ k < 2 ^ 32 := Nat.pow_lt_pow_right (by decide) fits
  rw [holds.mask_eq, show (1 : UInt32) = word 1 from rfl, scanReach]
  split
  · rename_i zero
    subst zero
    rfl
  · rename_i positive
    have two : 2 ^ 1 ≤ 2 ^ k := Nat.pow_le_pow_right (by decide) (by omega)
    rw [toNat_word_sub (by omega) (by omega)]
    omega

theorem Holds.advance_near (holds : Holds k v r) (fits : k < 32) {p hint : Nat}
    (after : hint ≤ p) (near : p - hint < scanReach k) :
    advance r (word p) (word hint) = word (p + 1) := by
  have reach : scanReach k < 2 ^ 32 := by
    have small : 2 ^ k < 2 ^ 32 := Nat.pow_lt_pow_right (by decide) fits
    unfold scanReach
    split <;> omega
  rw [advance, if_pos, word_succ]
  rw [UInt32.lt_iff_toNat_lt, holds.toNat_mask_pred fits, toNat_word_sub after (by omega)]
  exact near

theorem Holds.advance_far (holds : Holds k v r) (fits : k < 32) {p hint : Nat}
    (after : hint ≤ p) (word_range : p < hint + 2 ^ 32) (far : scanReach k ≤ p - hint) :
    advance r (word p) (word hint) = word hint := by
  rw [advance, if_neg]
  rw [UInt32.lt_iff_toNat_lt, holds.toNat_mask_pred fits, toNat_word_sub after word_range]
  omega

/-! ## Enqueue -/

/-- The distance test of an enqueue, at a position the tail hint has room for. -/
theorem Holds.roomTest (holds : Holds k v r) (fits : k < 32) {p : Nat}
    (after : v.tailHint ≤ p) (before : p ≤ v.tailHint + 2 ^ k) :
    r.consTail + r.size - word p = 0 ↔ p = v.tailHint + 2 ^ k := by
  have small : 2 ^ k < 2 ^ 32 := Nat.pow_lt_pow_right (by decide) fits
  exact holds.fullTest (by omega) before

/-- A producer passes a position that is enqueued already. -/
theorem mp_pass (holds : Holds k v r) (fits : k < 32) {box p : Nat}
    (after : v.headHint ≤ p) (enqueued : p < v.filled)
    (rest : Returns mpEnqueue (.loadNext box (word p)) r res r') :
    Returns mpEnqueue (.loadTail box (word p)) r res r' := by
  have := holds.tail_le
  have := holds.taken_le
  have := holds.filled_le
  have room : r.consTail + r.size - word p ≠ 0 := by
    rw [ne_eq, holds.roomTest fits (by omega) (by omega)]
    omega
  have slot := holds.slot_of_stored (Nat.le_of_lt fits) (q := p) (by omega) enqueued
  have full : r.slot (word p) ≠ expectPostVal r (word p) := by
    rw [slot, expectPostVal]
    intro same
    exact holds.value_ne p enqueued (congrArg RingData.val same)
  refine .next (.loadVer box (word p)) r (by simp [mpEnqueue, mpStep, room]) ?_
  by_cases version : (r.slot (word p)).ver = (expectPostVal r (word p)).ver
  · refine .next (.casSlot box (word p)) r (by simp [mpEnqueue, mpStep, version]) ?_
    exact .next _ r (by simp [mpEnqueue, mpStep, full]) rest
  · exact .next _ r (by simp [mpEnqueue, mpStep, version]) rest

/-- A producer whose hint is in reach arrives at the next free position. -/
theorem mp_scan (holds : Holds k v r) (fits : k < 32) {box : Nat}
    (reach : v.filled - v.headHint ≤ scanReach k)
    (rest : Returns mpEnqueue (.loadTail box (word v.filled)) r res r') :
    ∀ d p, v.filled - p = d → v.headHint ≤ p → p ≤ v.filled →
      Returns mpEnqueue (.loadTail box (word p)) r res r' := by
  intro d
  induction d with
  | zero =>
    intro p arrived _ before
    rwa [show p = v.filled by omega]
  | succ d ih =>
    intro p distance after before
    refine mp_pass holds fits after (by omega) ?_
    have next := holds.advance_near fits after (by omega : p - v.headHint < scanReach k)
    refine .next (.loadTail box (word (p + 1))) r ?_ (ih (p + 1) (by omega) (by omega) (by omega))
    simp [mpEnqueue, mpStep, holds.head_eq, next]

/-- An enqueue into a full ring returns zero and changes nothing. -/
theorem mp_full (holds : Holds k v r) (fits : k < 32) {box : Nat}
    (inRange : outOfRange r box = false)
    (reach : v.filled - v.headHint ≤ scanReach k) (full : v.filled = v.taken + 2 ^ k) :
    mpEnqueue.Calls box r ⟨0, []⟩ r := by
  have := holds.tail_le
  have := holds.taken_le
  have := holds.head_le
  have := holds.filled_le
  have positive := Nat.two_pow_pos k
  have atTail : v.tailHint = v.taken := by omega
  have noRoom : r.consTail + r.size - word v.filled = 0 :=
    (holds.roomTest fits (by omega) (by omega)).mpr (by omega)
  have slot := holds.slot_of_stored (Nat.le_of_lt fits) (q := v.tailHint) (by omega) (by omega)
  have occupied : (r.slot r.consTail).val ≠ 0 := by
    rw [holds.tail_eq, slot]
    exact holds.value_ne _ (by omega)
  refine .next (.loadTail box (word v.headHint)) r
    (by simp [mpEnqueue, mpStep, inRange, holds.head_eq]) ?_
  refine mp_scan holds fits reach ?_ _ _ rfl (Nat.le_refl _) (by omega)
  refine .next (.loadVal box (word v.filled) r.consTail) r
    (by simp [mpEnqueue, mpStep, noRoom]) ?_
  exact .done (by simp only [mpEnqueue, mpStep, if_neg occupied])

/-- The hint update that follows an enqueue at position `p`. -/
theorem mp_hint (holds : Holds k v r) (fits : k < 32) {p : Nat} (last : p + 1 = v.filled) :
    Returns mpEnqueue (.loadHint (word p)) r ⟨1, []⟩
        { r with prodHead := word (movedHint p v.headHint) } ∧
      Holds k { v with headHint := movedHint p v.headHint }
        { r with prodHead := word (movedHint p v.headHint) } := by
  have := holds.tail_le
  have := holds.taken_le
  have := holds.head_le
  have := holds.filled_le
  have small : 2 ^ k ≤ 2 ^ 31 := Nat.pow_le_pow_right (by decide) (by omega)
  have moved := movedHint_bounds p v.headHint
  refine ⟨?_, holds.moveHead (by omega) (by omega)⟩
  have test : hintBehind (word p) r.prodHead = true ↔ p % 4 = 0 ∧ v.headHint < p := by
    rw [holds.head_eq]
    exact hintBehind_word (by omega) (by omega)
  by_cases moves : p % 4 = 0 ∧ v.headHint < p
  · rw [movedHint, if_pos moves]
    refine .next (.casHint (word p) r.prodHead) r
      (by simp only [mpEnqueue, mpStep, if_pos (test.mpr moves)]) ?_
    exact .done (by simp [mpEnqueue, mpStep, MemRing.casProdHead])
  · have same : { r with prodHead := word v.headHint } = r := by rw [← holds.head_eq]
    rw [movedHint, if_neg moves, same]
    exact .done (by simp only [mpEnqueue, mpStep, if_neg (mt test.mp moves)])

/-- An enqueue into a ring with room returns one and appends the box. -/
theorem mp_room (holds : Holds k v r) (fits : k < 32) {box : Nat}
    (inRange : outOfRange r box = false)
    (reach : v.filled - v.headHint ≤ scanReach k) (room : v.filled < v.taken + 2 ^ k) :
    ∃ r', mpEnqueue.Calls box r ⟨1, []⟩ r' ∧
      Holds k (v.enqueued k (BitVec.ofNat 40 (box - r.addrbase))) r' ∧
      r'.addrbase = r.addrbase := by
  have := holds.tail_le
  have := holds.taken_le
  have := holds.head_le
  have := holds.filled_le
  have fits' := Nat.le_of_lt fits
  -- the full test at the free position moves a lagging tail hint by one
  obtain ⟨r₁, holds₁, base, room', reaches⟩ : ∃ r₁,
      Holds k { v with tailHint :=
        if v.filled = v.tailHint + 2 ^ k then v.tailHint + 1 else v.tailHint } r₁ ∧
      r₁.addrbase = r.addrbase ∧
      v.filled < (if v.filled = v.tailHint + 2 ^ k then v.tailHint + 1 else v.tailHint) + 2 ^ k ∧
      ∀ res r', Returns mpEnqueue (.loadVer box (word v.filled)) r₁ res r' →
        Returns mpEnqueue (.loadTail box (word v.filled)) r res r' := by
    by_cases atTail : v.filled = v.tailHint + 2 ^ k
    · have noRoom : r.consTail + r.size - word v.filled = 0 :=
        (holds.roomTest fits (by omega) (by omega)).mpr atTail
      have emptied : (r.slot r.consTail).val = 0 := by
        rw [holds.tail_eq, holds.slot_of_taken fits' (Nat.le_refl _) (by omega)]
      rw [if_pos atTail]
      refine ⟨{ r with consTail := word (v.tailHint + 1) },
        holds.moveTail (by omega) (by omega), rfl, by omega, fun res r' rest => ?_⟩
      refine .next (.loadVal box (word v.filled) r.consTail) r
        (by simp only [mpEnqueue, mpStep, if_pos noRoom]) ?_
      refine .next (.bumpTail box (word v.filled) r.consTail) r
        (by simp only [mpEnqueue, mpStep, if_pos emptied]) ?_
      refine .next _ _ ?_ rest
      simp [mpEnqueue, mpStep, MemRing.casConsTail, holds.tail_eq]
    · have hasRoom : r.consTail + r.size - word v.filled ≠ 0 := by
        rw [ne_eq, holds.roomTest fits (by omega) (by omega)]
        exact atTail
      rw [if_neg atTail]
      refine ⟨r, holds, rfl, by omega, fun res r' rest => ?_⟩
      exact .next _ r (by simp only [mpEnqueue, mpStep, if_neg hasRoom]) rest
  have expected : r₁.slot (word v.filled) = expectPostVal r₁ (word v.filled) := by
    have slot := holds₁.slot_free fits' (by dsimp only; omega)
    rw [slot, expectPostVal, holds₁.size_eq]
  have holds₂ := holds₁.enqueue fits' (offset_ne_zero inRange) room'
  obtain ⟨hint, holds₃⟩ := mp_hint holds₂ fits rfl
  refine ⟨_, ?_, holds₃, base⟩
  refine .next (.loadTail box (word v.headHint)) r ?_ ?_
  · simp [mpEnqueue, mpStep, inRange, holds.head_eq]
  refine mp_scan holds fits reach (reaches _ _ ?_) _ _ rfl (Nat.le_refl _) (by omega)
  refine .next (.casSlot box (word v.filled)) r₁
    (by simp only [mpEnqueue, mpStep, expected, if_true]) ?_
  refine .next (.loadHint (word v.filled)) _ ?_ hint
  simp only [mpEnqueue, mpStep, if_pos expected, curVal, base]

/-- A producer whose hint lags by more than the reach of the scan never returns. -/
theorem mp_diverges (holds : Holds k v r) (fits : k < 32) {box : Nat}
    (inRange : outOfRange r box = false)
    (far : scanReach k < v.filled - v.headHint) (res : Result) (r' : MemRing) :
    ¬ mpEnqueue.Calls box r res r' := by
  have := holds.tail_le
  have := holds.taken_le
  have := holds.head_le
  have := holds.filled_le
  have small : 2 ^ k < 2 ^ 32 := Nat.pow_lt_pow_right (by decide) fits
  -- every position in reach of the hint is enqueued already
  let trap (l : MpPc) (s : MemRing) : Prop := s = r ∧ (l = .start box ∨
    ∃ p, v.headHint ≤ p ∧ p - v.headHint ≤ scanReach k ∧
      (l = .loadTail box (word p) ∨ l = .loadVer box (word p) ∨ l = .casSlot box (word p) ∨
        l = .loadNext box (word p)))
  refine not_returns_of_trapped trap ?_ (show trap (.start box) r from ⟨rfl, .inl rfl⟩) res r'
  rintro l s ⟨rfl, rfl | ⟨p, after, reach, at_p⟩⟩
  · refine ⟨.loadTail box (word v.headHint), s, ?_, rfl, .inr ⟨v.headHint, ?_⟩⟩
    · simp [mpEnqueue, mpStep, inRange, holds.head_eq]
    · simp
  have room : s.consTail + s.size - word p ≠ 0 := by
    rw [ne_eq, holds.roomTest fits (by omega) (by omega)]
    omega
  have full : s.slot (word p) ≠ expectPostVal s (word p) := by
    rw [holds.slot_of_stored (Nat.le_of_lt fits) (by omega) (by omega), expectPostVal]
    intro same
    exact holds.value_ne p (by omega) (congrArg RingData.val same)
  obtain rfl | rfl | rfl | rfl := at_p
  · refine ⟨.loadVer box (word p), s, ?_, rfl, .inr ⟨p, after, reach, by simp⟩⟩
    simp only [mpEnqueue, mpStep, if_neg room]
  · by_cases version : (s.slot (word p)).ver = (expectPostVal s (word p)).ver
    · refine ⟨.casSlot box (word p), s, ?_, rfl, .inr ⟨p, after, reach, by simp⟩⟩
      simp only [mpEnqueue, mpStep, if_pos version]
    · refine ⟨.loadNext box (word p), s, ?_, rfl, .inr ⟨p, after, reach, by simp⟩⟩
      simp only [mpEnqueue, mpStep, if_neg version]
  · refine ⟨.loadNext box (word p), s, ?_, rfl, .inr ⟨p, after, reach, by simp⟩⟩
    simp only [mpEnqueue, mpStep, if_neg full]
  · by_cases inside : p - v.headHint < scanReach k
    · refine ⟨.loadTail box (word (p + 1)), s, ?_, rfl, .inr ⟨p + 1, by omega, by omega, by simp⟩⟩
      simp only [mpEnqueue, mpStep, holds.head_eq, holds.advance_near fits after inside]
    · refine ⟨.loadTail box (word v.headHint), s, ?_, rfl, .inr ⟨v.headHint, ?_⟩⟩
      · simp only [mpEnqueue, mpStep, holds.head_eq,
          holds.advance_far fits after (by omega) (by omega)]
      · simp

/-! ## Dequeue -/

/-- The empty test of a dequeue, at a position the head hint has not passed. -/
theorem Holds.emptyTest (holds : Holds k v r) (fits : k < 32) {q : Nat}
    (after : v.tailHint ≤ q) (before : q ≤ v.headHint) :
    word q = r.prodHead ↔ q = v.headHint := by
  have := holds.head_le
  have := holds.filled_le
  have small : 2 ^ k < 2 ^ 32 := Nat.pow_lt_pow_right (by decide) fits
  rw [holds.head_eq, word_inj (by omega) (by omega)]

/-- A consumer passes a position that is dequeued already. -/
theorem mc_pass (holds : Holds k v r) (fits : k < 32) {b : Batch} {out : List Nat} {q : Nat}
    (after : v.tailHint ≤ q) (dequeued : q < v.taken)
    (rest : Returns mcDequeue (.loadNext b out (word q)) r res r') :
    Returns mcDequeue (.loadHead b out (word q)) r res r' := by
  have := holds.taken_le
  have passed : word q ≠ r.prodHead := by
    rw [ne_eq, holds.emptyTest fits after (by omega)]
    omega
  have empty : ¬ ((curNullVal (word q)).ver = (r.slot (word q)).ver ∧
      (r.slot (word q)).val ≠ 0) := by
    rw [holds.slot_of_taken (Nat.le_of_lt fits) after dequeued]
    simp
  refine .next (.loadSlot b out (word q)) r (by simp only [mcDequeue, mcStep, if_neg passed]) ?_
  exact .next _ r (by simp only [mcDequeue, mcStep, if_neg empty]) rest

/-- A consumer whose hint is in reach arrives at the oldest position not dequeued. -/
theorem mc_scan (holds : Holds k v r) (fits : k < 32) {b : Batch} {out : List Nat}
    (goesOn : b.goesOn out = true) (reach : v.taken - v.tailHint ≤ scanReach k)
    (rest : Returns mcDequeue (.loadHead b out (word v.taken)) r res r') :
    ∀ d q, v.taken - q = d → v.tailHint ≤ q → q ≤ v.taken →
      Returns mcDequeue (.loadHead b out (word q)) r res r' := by
  intro d
  induction d with
  | zero =>
    intro q arrived _ before
    rwa [show q = v.taken by omega]
  | succ d ih =>
    intro q distance after before
    refine mc_pass holds fits after (by omega) ?_
    have next := holds.advance_near fits after (by omega : q - v.tailHint < scanReach k)
    refine .next (.loadHead b out (word (q + 1))) r ?_
      (ih (q + 1) (by omega) (by omega) (by omega))
    simp only [mcDequeue, mcStep, holds.tail_eq, next, goesOn, if_true]

/-- A dequeue from an empty ring returns zero and changes nothing. -/
theorem mc_nothing (holds : Holds k v r) (fits : k < 32) {b : Batch}
    (goesOn : b.goesOn [] = true) (reach : v.taken - v.tailHint ≤ scanReach k)
    (empty : v.taken = v.filled) : mcDequeue.Calls b r (.gave []) r := by
  have := holds.tail_le
  have := holds.taken_le
  have := holds.head_le
  have positive := Nat.two_pow_pos k
  have atHead : word v.taken = r.prodHead :=
    (holds.emptyTest fits (by omega) (by omega)).mpr (by omega)
  have emptied : ¬ (r.slot r.prodHead).val ≠ 0 := by
    rw [← atHead, empty, holds.slot_free (Nat.le_of_lt fits) (by omega)]
    simp
  refine .next (.loadHead b [] (word v.tailHint)) r
    (by simp only [mcDequeue, mcStep, holds.tail_eq]) ?_
  refine mc_scan holds fits goesOn reach ?_ _ _ rfl (Nat.le_refl _) (by omega)
  refine .next (.loadVal b [] (word v.taken) r.prodHead) r
    (by simp only [mcDequeue, mcStep, if_pos atHead, if_true]) ?_
  exact .done (by simp only [mcDequeue, mcStep, if_neg emptied, dequeued])

/-- A dequeue from a ring that is not empty arrives at the slot of the oldest element, past
a head hint that it may have moved. -/
theorem mc_arrive (holds : Holds k v r) (fits : k < 32) {b : Batch}
    (goesOn : b.goesOn [] = true) (reach : v.taken - v.tailHint ≤ scanReach k)
    (stored : v.taken < v.filled) :
    ∃ r₁, Holds k { v with headHint :=
        if v.taken = v.headHint then v.headHint + 1 else v.headHint } r₁ ∧
      r₁.addrbase = r.addrbase ∧
      ∀ res r', Returns mcDequeue (.loadSlot b [] (word v.taken)) r₁ res r' →
        mcDequeue.Calls b r res r' := by
  have := holds.tail_le
  have := holds.taken_le
  have scan : ∀ res r', Returns mcDequeue (.loadHead b [] (word v.taken)) r res r' →
      mcDequeue.Calls b r res r' := by
    intro res r' rest
    refine .next (.loadHead b [] (word v.tailHint)) r
      (by simp only [mcDequeue, mcStep, holds.tail_eq]) ?_
    exact mc_scan holds fits goesOn reach rest _ _ rfl (Nat.le_refl _) (by omega)
  by_cases atHead : v.taken = v.headHint
  · have here : word v.taken = r.prodHead :=
      (holds.emptyTest fits (by omega) (by omega)).mpr atHead
    have occupied : (r.slot r.prodHead).val ≠ 0 := by
      rw [← here, holds.slot_of_stored (Nat.le_of_lt fits) (Nat.le_refl _) stored]
      exact holds.value_ne _ stored
    rw [if_pos atHead]
    refine ⟨{ r with prodHead := word (v.headHint + 1) }, holds.moveHead (by omega) (by omega),
      rfl, fun res r' rest => scan res r' ?_⟩
    refine .next (.loadVal b [] (word v.taken) r.prodHead) r
      (by simp only [mcDequeue, mcStep, if_pos here, if_true]) ?_
    refine .next (.bumpHead b [] (word v.taken) r.prodHead) r
      (by simp only [mcDequeue, mcStep, if_pos occupied]) ?_
    refine .next _ _ ?_ rest
    simp [mcDequeue, mcStep, MemRing.casProdHead, holds.head_eq]
  · have passed : word v.taken ≠ r.prodHead := by
      rw [ne_eq, holds.emptyTest fits (by omega) (by omega)]
      exact atHead
    rw [if_neg atHead]
    refine ⟨r, holds, rfl, fun res r' rest => scan res r' ?_⟩
    exact .next _ r (by simp only [mcDequeue, mcStep, if_neg passed]) rest

/-- The hint update that follows a dequeue at position `q`. -/
theorem mc_hint (holds : Holds k v r) (fits : k < 32) {b : Batch} {out : List Nat} {q : Nat}
    (last : q + 1 = v.taken)
    (rest : Resumes mcDequeue (mcTaken b out (word q))
      { r with consTail := word (movedHint q v.tailHint) } res r') :
    Returns mcDequeue (.loadHint b out (word q)) r res r' := by
  have := holds.tail_le
  have := holds.taken_le
  have := holds.head_le
  have := holds.filled_le
  have small : 2 ^ k ≤ 2 ^ 31 := Nat.pow_le_pow_right (by decide) (by omega)
  have positive := Nat.two_pow_pos k
  have test : hintBehind (word q) r.consTail = true ↔ q % 4 = 0 ∧ v.tailHint < q := by
    rw [holds.tail_eq]
    exact hintBehind_word (by omega) (by omega)
  by_cases moves : q % 4 = 0 ∧ v.tailHint < q
  · rw [movedHint, if_pos moves] at rest
    refine .next (.casHint b out (word q) r.consTail) r
      (by simp only [mcDequeue, mcStep, if_pos (test.mpr moves)]) ?_
    refine .of_step _ _ ?_ rest
    simp [mcDequeue, mcStep, MemRing.casConsTail]
  · have same : { r with consTail := word v.tailHint } = r := by rw [← holds.tail_eq]
    rw [movedHint, if_neg moves, same] at rest
    exact .of_step _ r (by simp only [mcDequeue, mcStep, if_neg (mt test.mp moves)]) rest

/-- A consumer at the slot of the oldest element, with the head hint past it, takes it. -/
theorem mc_take (holds : Holds k v r) (fits : k < 32) (stored : v.taken < v.headHint) :
    ∃ r₁, Holds k { v with taken := v.taken + 1, tailHint := movedHint v.taken v.tailHint } r₁ ∧
      r₁.addrbase = r.addrbase ∧
      ∀ b out res r', Resumes mcDequeue
          (mcTaken b (out ++ [r.addrbase + (v.value v.taken).toNat]) (word v.taken)) r₁ res r' →
        Returns mcDequeue (.loadSlot b out (word v.taken)) r res r' := by
  have := holds.tail_le
  have := holds.head_le
  have fits' := Nat.le_of_lt fits
  have moved := movedHint_bounds v.taken v.tailHint
  have slot := holds.slot_of_stored fits' (Nat.le_refl v.taken) (by omega)
  have occupied : (curNullVal (word v.taken)).ver = (r.slot (word v.taken)).ver ∧
      (r.slot (word v.taken)).val ≠ 0 := by
    rw [slot]
    exact ⟨rfl, holds.value_ne _ (by omega)⟩
  have holds₁ := holds.dequeue fits' stored
  have tailMoved := holds₁.moveTail moved.1 (by dsimp only; omega)
  refine ⟨_, tailMoved, rfl, fun b out res r' rest => ?_⟩
  refine .next (.casSlot b out (word v.taken) (r.slot (word v.taken))) r
    (by simp only [mcDequeue, mcStep, if_pos occupied]) ?_
  refine .next (.loadHint b (out ++ [boxOf r (r.slot (word v.taken))]) (word v.taken))
    (r.setSlot (word v.taken) (curNullVal (word v.taken)))
    (by simp only [mcDequeue, mcStep, if_true]) ?_
  refine mc_hint holds₁ fits rfl ?_
  rw [slot]
  exact rest

/-- `nsfw_shmem_ring_mc_dequeue` of a ring that is not empty returns the oldest box. -/
theorem mc_one (holds : Holds k v r) (fits : k < 32)
    (reach : v.taken - v.tailHint ≤ scanReach k) (stored : v.taken < v.filled) :
    ∃ r', mcDequeue.Calls .one r (.gave [r.addrbase + (v.value v.taken).toNat]) r' ∧
      Holds k v.dequeued r' ∧ r'.addrbase = r.addrbase := by
  have := holds.taken_le
  obtain ⟨r₁, holds₁, base₁, reaches⟩ := mc_arrive (b := Batch.one) holds fits rfl reach stored
  obtain ⟨r₂, holds₂, base₂, takes⟩ := mc_take holds₁ fits (by dsimp only; split <;> omega)
  rw [base₁] at takes base₂
  exact ⟨r₂, reaches _ _ (takes .one [] _ _ ⟨rfl, rfl⟩), holds₂, base₂⟩

/-- After its first element the vector dequeue goes on to the position that follows, from
either branch of the advance. -/
theorem Holds.advance_taken (holds : Holds k v r) (fits : k < 32) (large : 3 ≤ k)
    (near : v.TailNear) {q : Nat} (last : q + 1 = v.taken) :
    advance r (word q) r.consTail = word v.taken := by
  have lag := lag_le_four near
  have := holds.tail_le
  have eight : 2 ^ 3 ≤ 2 ^ k := Nat.pow_le_pow_right (by decide) large
  have reach : 6 ≤ scanReach k := by
    rw [scanReach, if_neg (by omega)]
    omega
  rw [holds.tail_eq]
  by_cases passed : v.tailHint ≤ q
  · rw [holds.advance_near fits passed (by omega), last]
  · rw [show v.tailHint = v.taken by omega]
    unfold advance
    split
    · rw [word_succ, last]
    · rfl

/-- The rest of a vector dequeue: it stops at its limit or at the head hint, whichever
comes first, with a prefix of the queue. -/
theorem mc_rest (fits : k < 32) (large : 3 ≤ k) (n : UInt32) :
    ∀ d (v : View) (r : MemRing) (out : List Nat) (q : Nat), v.headHint - v.taken = d →
      Holds k v r → v.HeadNear → v.TailNear → q + 1 = v.taken → out ≠ [] →
      out.length ≤ n.toNat →
      ∃ j v' r', Returns mcDequeue (.loadNext (.vec n) out (word q)) r
          (.gave (out ++ (v.queue r.addrbase).take j)) r' ∧
        Holds k v' r' ∧ v'.HeadNear ∧ v'.TailNear ∧ r'.addrbase = r.addrbase ∧
        v'.queue r.addrbase = (v.queue r.addrbase).drop j ∧
        out.length + j ≤ n.toNat ∧ j ≤ v.filled - v.taken := by
  intro d
  induction d with
  | zero =>
    intro v r out q atHint holds head tail last some limit
    have := holds.taken_le
    have := holds.tail_le
    have hint : word v.taken = r.prodHead :=
      (holds.emptyTest fits (by omega) (by omega)).mpr (by omega)
    refine ⟨0, v, r, ?_, holds, head, tail, rfl, by simp, by omega, by omega⟩
    rw [List.take_zero, List.append_nil]
    by_cases more : (Batch.vec n).goesOn out = true
    · refine .next (.loadHead (.vec n) out (word v.taken)) r ?_ ?_
      · simp only [mcDequeue, mcStep, if_pos more, holds.advance_taken fits large tail last]
      · exact .done (by simp only [mcDequeue, mcStep, if_pos hint, if_neg some, dequeued])
    · exact .done (by simp only [mcDequeue, mcStep, if_neg more, dequeued])
  | succ d ih =>
    intro v r out q distance holds head tail last some limit
    have := holds.tail_le
    have := holds.head_le
    by_cases more : (Batch.vec n).goesOn out = true
    · have room : out.length < n.toNat := by
        have inWord := n.toNat_lt
        simpa [Batch.goesOn, UInt32.lt_iff_toNat_lt,
          toNat_word_of_lt (show out.length < 2 ^ 32 by omega)]
          using more
      have notHint : word v.taken ≠ r.prodHead := by
        rw [ne_eq, holds.emptyTest fits (by omega) (by omega)]
        omega
      obtain ⟨r₁, holds₁, base₁, takes⟩ := mc_take holds fits (by omega)
      have queue := v.queue_dequeued r.addrbase (by omega)
      have tail₁ := tail.dequeued
      have split : v.dequeued = { v with
          taken := v.taken + 1, tailHint := movedHint v.taken v.tailHint } := by
        rw [View.dequeued, if_neg (by omega)]
      rw [← split] at holds₁
      obtain ⟨j, v', r', returns, holds', head', tail', base', queue', limit', stored'⟩ :=
        ih v.dequeued r₁ (out ++ [r.addrbase + (v.value v.taken).toNat]) v.taken
          (by rw [split]; dsimp only; omega) holds₁ head.dequeued tail₁ rfl (by simp)
          (by simp; omega)
      rw [base₁] at returns base' queue'
      simp only [List.length_append, List.length_cons, List.length_nil] at limit'
      simp only [split] at stored'
      refine ⟨j + 1, v', r', ?_, holds', head', tail', base', ?_, by omega, by omega⟩
      · refine .next (.loadHead (.vec n) out (word v.taken)) r ?_ ?_
        · simp only [mcDequeue, mcStep, if_pos more, holds.advance_taken fits large tail last]
        refine .next (.loadSlot (.vec n) out (word v.taken)) r
          (by simp only [mcDequeue, mcStep, if_neg notHint]) ?_
        refine takes (.vec n) out _ _ ?_
        have taken : out ++ (v.queue r.addrbase).take (j + 1) =
            out ++ [r.addrbase + (v.value v.taken).toNat] ++
              (v.dequeued.queue r.addrbase).take j := by
          simp [queue]
        rw [taken]
        exact returns
      · rw [queue', queue, List.drop_succ_cons]
    · refine ⟨0, v, r, ?_, holds, head, tail, rfl, by simp, by omega, by omega⟩
      rw [List.take_zero, List.append_nil]
      exact .done (by simp only [mcDequeue, mcStep, if_neg more, dequeued])

/-- `nsfw_shmem_ring_mc_dequeuev` of a ring that is not empty returns a prefix of the queue
that is not empty and no longer than asked. -/
theorem mc_vec (holds : Holds k v r) (fits : k < 32) (large : 3 ≤ k) {n : UInt32} (asked : n ≠ 0)
    (head : v.HeadNear) (tail : v.TailNear) (stored : v.taken < v.filled) :
    ∃ j v' r', mcDequeue.Calls (.vec n) r (.gave ((v.queue r.addrbase).take j)) r' ∧
      Holds k v' r' ∧ v'.HeadNear ∧ v'.TailNear ∧ r'.addrbase = r.addrbase ∧
      v'.queue r.addrbase = (v.queue r.addrbase).drop j ∧
      1 ≤ j ∧ j ≤ n.toNat ∧ j ≤ v.filled - v.taken := by
  have := holds.taken_le
  have lag := lag_le_four tail
  have eight : 2 ^ 3 ≤ 2 ^ k := Nat.pow_le_pow_right (by decide) large
  have reach : v.taken - v.tailHint ≤ scanReach k := by
    rw [scanReach, if_neg (by omega)]
    omega
  have positive : 0 < n.toNat := by
    have nonzero : n.toNat ≠ 0 := fun zero => asked (UInt32.toNat_inj.mp zero)
    omega
  have goesOn : (Batch.vec n).goesOn [] = true := by
    simpa [Batch.goesOn, UInt32.lt_iff_toNat_lt, toNat_word] using positive
  obtain ⟨r₁, holds₁, base₁, reaches⟩ := mc_arrive holds fits goesOn reach stored
  obtain ⟨r₂, holds₂, base₂, takes⟩ := mc_take holds₁ fits (by dsimp only; split <;> omega)
  rw [base₁] at takes base₂
  have queue := v.queue_dequeued r.addrbase stored
  obtain ⟨j, v', r', returns, holds', head', tail', base', queue', limit', stored'⟩ :=
    mc_rest fits large n _ v.dequeued r₂ [r.addrbase + (v.value v.taken).toNat] v.taken rfl holds₂
      head.dequeued tail.dequeued rfl (by simp) positive
  rw [base₂] at returns base' queue'
  simp only [List.length_cons, List.length_nil] at limit'
  simp only [View.dequeued] at stored'
  refine ⟨j + 1, v', r', ?_, holds', head', tail', base', ?_, by omega, by omega, by omega⟩
  · refine reaches _ _ (takes (.vec n) [] _ _ ?_)
    rw [queue, List.take_succ_cons]
    exact returns
  · rw [queue', queue, List.drop_succ_cons]

end Dmm.Ring.Shmem
