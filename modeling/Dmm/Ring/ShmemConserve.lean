import Dmm.Ring.Shmem

/-!
# Conservation of elements under concurrency

All four flavours of the shared-memory ring, run by any pool of threads: the operations of
a multi-threaded side may be called by everybody, those of a single-threaded side by one
thread. Every access either leaves the slots alone, fills a slot that is empty, or empties
a slot that is not (`Move`). A compare-and-swap checks that itself. The plain stores of the
single-threaded operations rely on the others: only a producer fills an empty slot and only
a consumer empties a full one, so what the lone producer (consumer) has read of its slot is
still there when it stores.
-/

namespace Dmm.Ring.Shmem

open Dmm.Machine Dmm.Word

variable {ι : Type} [DecidableEq ι]

/-! ## What is stored and what was handed out -/

/-- The box in a slot, if any. -/
def boxes (r : MemRing) (d : RingData) : Multiset Nat := if d.val = 0 then 0 else {boxOf r d}

/-- The boxes in all slots. -/
def content (r : MemRing) : Multiset Nat := ∑ i ∈ Finset.range r.size.toNat, boxes r (r.ring i)

/-- The boxes that successful enqueues have stored. -/
def storedBoxes (log : List Event) : Multiset Nat :=
  (log.filterMap fun | .stored box => some box | .handed _ => none : List Nat)

/-- The boxes that successful dequeues have handed out. -/
def handedBoxes (log : List Event) : Multiset Nat :=
  (log.filterMap fun | .handed box => some box | .stored _ => none : List Nat)

/-- Nothing is lost, duplicated, overwritten or invented. -/
def Balanced (r : MemRing) (log : List Event) : Prop :=
  handedBoxes log + content r = storedBoxes log

theorem index_lt {r : MemRing} (inside : r.mask.toNat < r.size.toNat) (pos : UInt32) :
    (pos &&& r.mask).toNat < r.size.toNat := by
  rw [UInt32.toNat_and]
  exact Nat.lt_of_le_of_lt Nat.and_le_right inside

theorem content_setSlot {r : MemRing} (inside : r.mask.toNat < r.size.toNat) (pos : UInt32)
    (d : RingData) :
    content (r.setSlot pos d) + boxes r (r.slot pos) = content r + boxes r d := by
  have member : (pos &&& r.mask).toNat ∈ Finset.range r.size.toNat :=
    Finset.mem_range.mpr (index_lt inside pos)
  have before := Finset.add_sum_erase _ (fun i => boxes r (r.ring i)) member
  have after := Finset.add_sum_erase _ (fun i => boxes r ((r.setSlot pos d).ring i)) member
  have others : ∑ i ∈ (Finset.range r.size.toNat).erase (pos &&& r.mask).toNat,
        boxes r ((r.setSlot pos d).ring i) =
      ∑ i ∈ (Finset.range r.size.toNat).erase (pos &&& r.mask).toNat, boxes r (r.ring i) := by
    apply Finset.sum_congr rfl
    intro i other
    rw [MemRing.setSlot_ring, Function.update_of_ne (Finset.ne_of_mem_erase other)]
  have here : (r.setSlot pos d).ring (pos &&& r.mask).toNat = d := by
    rw [MemRing.setSlot_ring, Function.update_self]
  change (∑ i ∈ Finset.range r.size.toNat, boxes r ((r.setSlot pos d).ring i)) +
    boxes r (r.ring _) = (∑ i ∈ Finset.range r.size.toNat, boxes r (r.ring i)) + boxes r d
  rw [← before, ← after, others, here]
  abel

/-! ## What one access can do to the slots -/

/-- The memories agree on everything but the hints. -/
structure SameSlots (r r' : MemRing) : Prop where
  ring : r'.ring = r.ring
  size : r'.size = r.size
  mask : r'.mask = r.mask
  addrbase : r'.addrbase = r.addrbase

/-- An access leaves the slots alone, fills an empty slot, or empties a full one. -/
inductive Move (r : MemRing) : Option Event → MemRing → Prop
  | quiet {r'} : SameSlots r r' → Move r none r'
  | fill (pos : UInt32) (d : RingData) : (r.slot pos).val = 0 → d.val ≠ 0 →
      Move r (some (.stored (boxOf r d))) (r.setSlot pos d)
  | drain (pos : UInt32) (d : RingData) : (r.slot pos).val ≠ 0 → d.val = 0 →
      Move r (some (.handed (boxOf r (r.slot pos)))) (r.setSlot pos d)

theorem SameSlots.refl (r : MemRing) : SameSlots r r := ⟨rfl, rfl, rfl, rfl⟩

theorem Move.still (r : MemRing) : Move r none r := .quiet (.refl r)

/-- The range check reads nothing that a move of the hints changes. -/
theorem SameSlots.outOfRange {r r' : MemRing} {box : Nat} (same : SameSlots r r') :
    outOfRange r' box = outOfRange r box := by
  unfold Shmem.outOfRange
  rw [same.addrbase]

/-- Storing a box in range to a slot that is as expected fills it. -/
theorem Move.store {r : MemRing} {box : Nat} {curHead : UInt32}
    (inRange : outOfRange r box = false) (expected : r.slot curHead = expectPostVal r curHead) :
    Move r (some (.stored box)) (r.setSlot curHead (curVal r curHead box)) := by
  have value : boxOf r (curVal r curHead box) = box := toNat_offset inRange
  have empty : (r.slot curHead).val = 0 := by rw [expected, expectPostVal]
  have move := Move.fill curHead (curVal r curHead box) empty (offset_ne_zero inRange)
  rwa [value] at move

theorem Move.frame {r r' : MemRing} {e : Option Event} (move : Move r e r') :
    r'.size = r.size ∧ r'.mask = r.mask ∧ r'.addrbase = r.addrbase := by
  cases move with
  | quiet same => exact ⟨same.size, same.mask, same.addrbase⟩
  | fill => exact ⟨rfl, rfl, rfl⟩
  | drain => exact ⟨rfl, rfl, rfl⟩

/-- Every access keeps the balance of the boxes. -/
theorem Move.balanced {r r' : MemRing} {e : Option Event} {log : List Event} (move : Move r e r')
    (inside : r.mask.toNat < r.size.toNat) (balanced : Balanced r log) :
    Balanced r' (log ++ e.toList) := by
  unfold Balanced at balanced ⊢
  cases move with
  | quiet same =>
    have unchanged : content r' = content r := by
      unfold content boxes boxOf
      rw [same.ring, same.size, same.addrbase]
    rw [unchanged, Option.toList_none, List.append_nil]
    exact balanced
  | fill pos d empty full =>
    have replaced := content_setSlot inside pos d
    rw [boxes, if_pos empty, add_zero, boxes, if_neg full] at replaced
    have handed : handedBoxes (log ++ [.stored (boxOf r d)]) = handedBoxes log := by
      simp [handedBoxes]
    have stored : storedBoxes (log ++ [.stored (boxOf r d)]) = storedBoxes log + {boxOf r d} := by
      rw [storedBoxes, List.filterMap_append, ← Multiset.coe_add]
      rfl
    rw [Option.toList_some, handed, stored, replaced, ← add_assoc, balanced]
  | drain pos d full empty =>
    have replaced := content_setSlot inside pos d
    rw [boxes, if_neg full, boxes, if_pos empty, add_zero] at replaced
    have handed : handedBoxes (log ++ [.handed (boxOf r (r.slot pos))]) =
        handedBoxes log + {boxOf r (r.slot pos)} := by
      rw [handedBoxes, List.filterMap_append, ← Multiset.coe_add]
      rfl
    have stored : storedBoxes (log ++ [.handed (boxOf r (r.slot pos))]) = storedBoxes log := by
      simp [storedBoxes]
    rw [Option.toList_some, handed, stored, ← balanced, ← replaced]
    abel

/-! ## What each local state knows -/

/-- A multi-threaded producer carries a box in range. -/
def MpPc.Sane (r : MemRing) : MpPc → Prop
  | .loadTail box _ | .loadVal box _ _ | .bumpTail box _ _ | .loadVer box _ | .casSlot box _
  | .loadNext box _ => outOfRange r box = false
  | .start _ | .loadHint _ | .casHint _ _ => True

/-- A lone producer carries a box in range, and finds the slot it stores to as it read it. -/
def SpPc.Sane (r : MemRing) : SpPc → Prop
  | .loadTail box _ | .loadVal box _ _ | .bumpTail box _ _ | .loadSlot box _ =>
    outOfRange r box = false
  | .storeSlot box curHead =>
    outOfRange r box = false ∧ r.slot curHead = expectPostVal r curHead
  | .start _ | .storeHead _ => True

/-- A multi-threaded consumer swaps out something. -/
def McPc.Sane (_ : MemRing) : McPc → Prop
  | .casSlot _ _ _ excp => excp.val ≠ 0
  | _ => True

/-- A lone consumer finds the slot it empties as it read it, and not empty. -/
def ScPc.Sane (r : MemRing) : ScPc → Prop
  | .storeSlot _ _ curTail excp => r.slot curTail = excp ∧ excp.val ≠ 0
  | _ => True

/-- The outcome of an access: what it did to the slots, and what the next local state knows. -/
def Outcome {τ : Type} (sane : MemRing → τ → Prop) (r : MemRing) (e : Option Event)
    (outcome : (τ ⊕ Result) × MemRing) : Prop :=
  Move r e outcome.2 ∧ ∀ l, outcome.1 = .inl l → sane outcome.2 l

section Outcome

variable {τ : Type} {sane : MemRing → τ → Prop} {r r' : MemRing} {e : Option Event}

theorem Outcome.goesOn {l : τ} (move : Move r e r') (knows : sane r' l) :
    Outcome sane r e (.inl l, r') := by
  refine ⟨move, ?_⟩
  rintro _ ⟨⟩
  exact knows

theorem Outcome.returns {res : Result} (move : Move r e r') : Outcome sane r e (.inr res, r') :=
  ⟨move, by simp⟩

end Outcome

/-- What an access of thread `i` keeps for the lone producer and the lone consumer. -/
structure Spares (fl : Flavour ι) (i : ι) (r r' : MemRing) : Prop where
  frame : r'.size = r.size ∧ r'.mask = r.mask ∧ r'.addrbase = r.addrbase
  empty : ∀ j, j ≠ i → fl.producer = some j → ∀ n, (r.ring n).val = 0 → r'.ring n = r.ring n
  full : ∀ j, j ≠ i → fl.consumer = some j → ∀ n, (r.ring n).val ≠ 0 → r'.ring n = r.ring n

/-- What a thread knows of the memory, and by which operation it may be there. -/
def Knows (fl : Flavour ι) (r : MemRing) (i : ι) (_ : Nat) :
    Option ((MpPc ⊕ SpPc) ⊕ (McPc ⊕ ScPc)) → Prop
  | none => True
  | some (.inl (.inl l)) => fl.producer = none ∧ l.Sane r
  | some (.inl (.inr l)) => fl.producer = some i ∧ l.Sane r
  | some (.inr (.inl l)) => fl.consumer = none ∧ l.Sane r
  | some (.inr (.inr l)) => fl.consumer = some i ∧ l.Sane r

omit [DecidableEq ι] in
/-- What a thread knows survives the accesses of the others. -/
theorem Knows.stable {fl : Flavour ι} {r r' : MemRing} {i j : ι} {b : Nat}
    {l : Option ((MpPc ⊕ SpPc) ⊕ (McPc ⊕ ScPc))} (other : i ≠ j) (spares : Spares fl j r r')
    (knows : Knows fl r i b l) : Knows fl r' i b l := by
  obtain ⟨size, mask, base⟩ := spares.frame
  have range : ∀ box, outOfRange r' box = outOfRange r box := by
    intro box
    unfold outOfRange
    rw [base]
  match l, knows with
  | none, _ => trivial
  | some (.inl (.inl l)), ⟨flavour, sane⟩ =>
    refine ⟨flavour, ?_⟩
    cases l <;> first | exact (range _).trans sane | trivial
  | some (.inl (.inr l)), ⟨flavour, sane⟩ =>
    refine ⟨flavour, ?_⟩
    cases l with
    | storeSlot box curHead =>
      have empty : (r.slot curHead).val = 0 := by rw [sane.2, expectPostVal]
      have untouched := spares.empty i other flavour _ empty
      refine ⟨(range box).trans sane.1, ?_⟩
      rw [expectPostVal, size, ← expectPostVal, ← sane.2, MemRing.slot, mask]
      exact untouched
    | _ => first | exact (range _).trans sane | trivial
  | some (.inr (.inl l)), ⟨flavour, sane⟩ =>
    exact ⟨flavour, by cases l <;> exact sane⟩
  | some (.inr (.inr l)), ⟨flavour, sane⟩ =>
    refine ⟨flavour, ?_⟩
    cases l with
    | storeSlot b out curTail excp =>
      have full : (r.slot curTail).val ≠ 0 := by rw [sane.1]; exact sane.2
      have untouched := spares.full i other flavour _ full
      refine ⟨?_, sane.2⟩
      rw [← sane.1, MemRing.slot, mask]
      exact untouched
    | _ => trivial

/-- The memory of the proof is the memory itself, in balance with the log. -/
def Accounted (g r : MemRing) (log : List Event) : Prop :=
  g = r ∧ r.mask.toNat < r.size.toNat ∧ Balanced r log

omit [DecidableEq ι] in
/-- An access whose outcome is known keeps the account and what its thread knows. -/
theorem Outcome.account {τ : Type} {sane : MemRing → τ → Prop} {fl : Flavour ι} {r : MemRing}
    {e : Option Event} {out : (τ ⊕ Result) × MemRing} {log : List Event} {i : ι} {b : Nat}
    (embed : τ → (MpPc ⊕ SpPc) ⊕ (McPc ⊕ ScPc)) (outcome : Outcome sane r e out)
    (knows : ∀ r l, sane r l → Knows fl r i b (some (embed l)))
    (spares : Spares fl i r out.2) (account : Accounted r r log) :
    ∃ g', Spares fl i r g' ∧ Accounted g' out.2 (log ++ e.toList) ∧
      Knows fl g' i b (out.1.getLeft?.map embed) := by
  obtain ⟨size, mask, _⟩ := spares.frame
  refine ⟨out.2, spares, ⟨rfl, ?_, outcome.1.balanced account.2.1 account.2.2⟩, ?_⟩
  · rw [size, mask]
    exact account.2.1
  · cases next : out.1 with
    | inl l => exact knows _ _ (outcome.2 l next)
    | inr res => trivial

end Dmm.Ring.Shmem
