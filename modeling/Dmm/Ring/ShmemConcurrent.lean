import Dmm.Ring.ShmemMpmc

/-!
# The multi-producer multi-consumer ring under concurrency

While calls overlap, a position may lie anywhere behind the ends of the queue and the
hints may lag arbitrarily. What stays true is the view of the ring: enqueues happen at
`filled` and dequeues at `taken`, one after the other. Each local state knows its position
as a number (`MpPc.Stands`, `McPc.Stands`), and the version bits exclude every slot but the
right one as long as they cannot wrap within one call.

A position divisible by four that lies past its hint is owed: some thread still has to look
at the hint for it (`Due`). The debt is paid unless the compare-and-swap of the hint loses
against another update that leaves the hint behind. When every debt is paid and every call
has ended the hints are near, and a lone call reaches the end of the queue. A lost update
can leave the head hint more than the reach of the scan behind, for ever.
-/

namespace Dmm.Ring.Shmem

open Dmm.Machine Dmm.Word

/-- The number of enqueues among the events. -/
def storedCount (log : List Event) : Nat :=
  log.countP fun | .stored _ => true | .handed _ => false

/-- A view later in a run. -/
structure View.Grows (v v' : View) : Prop where
  taken : v.taken ≤ v'.taken
  filled : v.filled ≤ v'.filled
  headHint : v.headHint ≤ v'.headHint
  tailHint : v.tailHint ≤ v'.tailHint
  value : ∀ q, q < v.filled → v'.value q = v.value q

theorem View.Grows.refl (v : View) : v.Grows v :=
  ⟨Nat.le_refl _, Nat.le_refl _, Nat.le_refl _, Nat.le_refl _, fun _ _ => rfl⟩

/-- The positions whose hints a thread still has to look at. -/
structure Due where
  head : Option Nat
  tail : Option Nat

/-- Nothing is owed. -/
def Due.clear : Due := ⟨none, none⟩

/-- The boxes the range check of an enqueue admits, over the base of the ring. -/
def InRange (addrbase box : Nat) : Prop := addrbase < box ∧ box ≤ addrbase + (2 ^ 40 - 1)

/-- Where a producer stands. `born` enqueues had happened when its call started. -/
def MpPc.Stands (k addrbase born : Nat) (v : View) (due : Due) : MpPc → Prop
  | .start _ => due = .clear
  | .loadTail box cur => due = .clear ∧ InRange addrbase box ∧
    ∃ p, cur = word p ∧ born ≤ p + 2 ^ k ∧ p ≤ v.filled
  | .loadVal box cur tmp => due = .clear ∧ InRange addrbase box ∧
    ∃ p t, cur = word p ∧ tmp = word t ∧ born ≤ p + 2 ^ k ∧ p ≤ v.filled ∧ p = t + 2 ^ k ∧
      t ≤ v.tailHint
  | .bumpTail box cur tmp => due = .clear ∧ InRange addrbase box ∧
    ∃ p t, cur = word p ∧ tmp = word t ∧ born ≤ p + 2 ^ k ∧ p ≤ v.filled ∧ p = t + 2 ^ k ∧
      t ≤ v.tailHint ∧ t < v.taken
  | .loadVer box cur | .casSlot box cur => due = .clear ∧ InRange addrbase box ∧
    ∃ p, cur = word p ∧ born ≤ p + 2 ^ k ∧ p ≤ v.filled ∧ p < v.tailHint + 2 ^ k
  | .loadNext box cur => due = .clear ∧ InRange addrbase box ∧
    ∃ p, cur = word p ∧ born ≤ p + 2 ^ k ∧ p < v.filled
  | .loadHint cur => ∃ p, due = ⟨some p, none⟩ ∧ cur = word p ∧ born ≤ p + 2 ^ k ∧ p < v.filled
  | .casHint cur tmp => ∃ p h, due = ⟨some p, none⟩ ∧ cur = word p ∧ tmp = word h ∧
      born ≤ h + 2 ^ k ∧ h < p ∧ p < v.filled ∧ h ≤ v.headHint

/-- Where a consumer stands. -/
def McPc.Stands (k born : Nat) (v : View) (due : Due) : McPc → Prop
  | .start _ => due = .clear
  | .loadHead _ _ cur => due = .clear ∧ ∃ q, cur = word q ∧ born ≤ q + 2 ^ k ∧ q ≤ v.taken
  | .loadVal _ _ cur tmp => due = .clear ∧
    ∃ q, cur = word q ∧ tmp = word q ∧ born ≤ q + 2 ^ k ∧ q ≤ v.taken
  | .bumpHead _ _ cur tmp => due = .clear ∧
    ∃ q, cur = word q ∧ tmp = word q ∧ born ≤ q + 2 ^ k ∧ q ≤ v.taken ∧ q < v.filled
  | .loadSlot _ _ cur => due = .clear ∧
    ∃ q, cur = word q ∧ born ≤ q + 2 ^ k ∧ q ≤ v.taken ∧ q < v.headHint
  | .casSlot _ _ cur excp => due = .clear ∧
    ∃ q, cur = word q ∧ born ≤ q + 2 ^ k ∧ q ≤ v.taken ∧ q < v.headHint ∧ q < v.filled ∧
      excp = ⟨v.value q, verOf (word q)⟩
  | .loadNext _ _ cur => due = .clear ∧ ∃ q, cur = word q ∧ born ≤ q + 2 ^ k ∧ q < v.taken
  | .loadHint _ _ cur => ∃ q, due = ⟨none, some q⟩ ∧ cur = word q ∧ born ≤ q + 2 ^ k ∧
      q < v.taken
  | .casHint _ _ cur tmp => ∃ q t, due = ⟨none, some q⟩ ∧ cur = word q ∧ tmp = word t ∧
      born ≤ t + 2 ^ k ∧ t < q ∧ q < v.taken ∧ t ≤ v.tailHint

/-- Where a producer stands stays true while the view grows. -/
theorem MpPc.Stands.mono {k addrbase born : Nat} {v v' : View} {due : Due} {l : MpPc}
    (grows : v.Grows v') (stands : l.Stands k addrbase born v due) :
    l.Stands k addrbase born v' due := by
  have := grows.taken
  have := grows.filled
  have := grows.headHint
  have := grows.tailHint
  cases l with
  | start box => exact stands
  | loadTail box cur =>
    obtain ⟨clear, inRange, p, here, recent, before⟩ := stands
    exact ⟨clear, inRange, p, here, recent, by omega⟩
  | loadVal box cur tmp =>
    obtain ⟨clear, inRange, p, t, here, tail, recent, before, lap, hint⟩ := stands
    exact ⟨clear, inRange, p, t, here, tail, recent, by omega, lap, by omega⟩
  | bumpTail box cur tmp =>
    obtain ⟨clear, inRange, p, t, here, tail, recent, before, lap, hint, emptied⟩ := stands
    exact ⟨clear, inRange, p, t, here, tail, recent, by omega, lap, by omega, by omega⟩
  | loadVer box cur =>
    obtain ⟨clear, inRange, p, here, recent, before, room⟩ := stands
    exact ⟨clear, inRange, p, here, recent, by omega, by omega⟩
  | casSlot box cur =>
    obtain ⟨clear, inRange, p, here, recent, before, room⟩ := stands
    exact ⟨clear, inRange, p, here, recent, by omega, by omega⟩
  | loadNext box cur =>
    obtain ⟨clear, inRange, p, here, recent, before⟩ := stands
    exact ⟨clear, inRange, p, here, recent, by omega⟩
  | loadHint cur =>
    obtain ⟨p, owes, here, recent, before⟩ := stands
    exact ⟨p, owes, here, recent, by omega⟩
  | casHint cur tmp =>
    obtain ⟨p, h, owes, here, hint, recent, behind, before, passed⟩ := stands
    exact ⟨p, h, owes, here, hint, recent, behind, by omega, by omega⟩

/-- Where a consumer stands stays true while the view grows. -/
theorem McPc.Stands.mono {k born : Nat} {v v' : View} {due : Due} {l : McPc}
    (grows : v.Grows v') (stands : l.Stands k born v due) : l.Stands k born v' due := by
  have := grows.taken
  have := grows.filled
  have := grows.headHint
  have := grows.tailHint
  cases l with
  | start b => exact stands
  | loadHead b out cur =>
    obtain ⟨clear, q, here, recent, before⟩ := stands
    exact ⟨clear, q, here, recent, by omega⟩
  | loadVal b out cur tmp =>
    obtain ⟨clear, q, here, head, recent, before⟩ := stands
    exact ⟨clear, q, here, head, recent, by omega⟩
  | bumpHead b out cur tmp =>
    obtain ⟨clear, q, here, head, recent, before, stored⟩ := stands
    exact ⟨clear, q, here, head, recent, by omega, by omega⟩
  | loadSlot b out cur =>
    obtain ⟨clear, q, here, recent, before, hint⟩ := stands
    exact ⟨clear, q, here, recent, by omega, by omega⟩
  | casSlot b out cur excp =>
    obtain ⟨clear, q, here, recent, before, hint, stored, read⟩ := stands
    rw [← grows.value q stored] at read
    exact ⟨clear, q, here, recent, by omega, by omega, by omega, read⟩
  | loadNext b out cur =>
    obtain ⟨clear, q, here, recent, before⟩ := stands
    exact ⟨clear, q, here, recent, by omega⟩
  | loadHint b out cur =>
    obtain ⟨q, owes, here, recent, before⟩ := stands
    exact ⟨q, owes, here, recent, by omega⟩
  | casHint b out cur tmp =>
    obtain ⟨q, t, owes, here, hint, recent, behind, before, passed⟩ := stands
    exact ⟨q, t, owes, here, hint, recent, behind, by omega, by omega⟩

/-! ## One access -/

/-- The memory and the view a thread finds, with little enough enqueued since its call
started. -/
structure Finds (k addrbase born : Nat) (v : View) (r : MemRing) : Prop where
  holds : Holds k v r
  base : r.addrbase = addrbase
  since : born ≤ v.filled
  near : v.filled + 2 * 2 ^ k ≤ born + 2 ^ 24

/-- The positions that should have moved the head hint are owed or past. -/
def HeadKept (v v' : View) (due due' : Due) : Prop :=
  ∀ p, p < v'.filled → p % 4 = 0 →
    p < v.filled ∧ due.head ≠ some p ∨ p ≤ v'.headHint ∨ due'.head = some p

/-- The positions that should have moved the tail hint are owed or past. -/
def TailKept (v v' : View) (due due' : Due) : Prop :=
  ∀ q, q < v'.taken → q % 4 = 0 →
    q < v.taken ∧ due.tail ≠ some q ∨ q ≤ v'.tailHint ∨ due'.tail = some q

/-- How many enqueues an access commits. -/
def stores : Option Event → Nat
  | some (.stored _) => 1
  | _ => 0

/-- What an access leaves: a grown view that the memory holds, debts that are kept, and a
next local state that stands somewhere in it. -/
structure Post {τ : Type} (k addrbase : Nat) (stands : View → Due → τ → Prop) (v : View)
    (due : Due) (e : Option Event) (out : (τ ⊕ Result) × MemRing) (v' : View) (due' : Due) :
    Prop where
  grows : v.Grows v'
  holds : Holds k v' out.2
  base : out.2.addrbase = addrbase
  filled : v'.filled = v.filled + stores e
  head : HeadKept v v' due due'
  tail : TailKept v v' due due'
  goes : ∀ l, out.1 = .inl l → stands v' due' l
  ends : ∀ res, out.1 = .inr res → due' = .clear

section Access

variable {k addrbase born : Nat} {v : View} {r : MemRing} {due : Due}

theorem Finds.fits (finds : Finds k addrbase born v r) : k < 24 := by
  have := finds.since
  have := finds.near
  have small : 2 ^ k < 2 ^ 24 := by omega
  exact (Nat.pow_lt_pow_iff_right (by decide)).mp small

theorem Holds.ordered (holds : Holds k v r) :
    v.tailHint ≤ v.taken ∧ v.taken ≤ v.headHint ∧ v.headHint ≤ v.filled ∧
      v.filled ≤ v.tailHint + 2 ^ k :=
  ⟨holds.tail_le, holds.taken_le, holds.head_le, holds.filled_le⟩

theorem HeadKept.same {v' : View} {due' : Due} (filled : v'.filled = v.filled)
    (owed : due'.head = due.head) : HeadKept v v' due due' := by
  intro p before _
  grind

theorem TailKept.same {v' : View} {due' : Due} (taken : v'.taken = v.taken)
    (owed : due'.tail = due.tail) : TailKept v v' due due' := by
  intro q before _
  grind

/-- A debt of the head hint is paid once the hint is not behind. -/
theorem HeadKept.paid {v' : View} {p : Nat} (filled : v'.filled = v.filled)
    (owes : due = ⟨some p, none⟩) (passed : p % 4 = 0 → p ≤ v'.headHint) :
    HeadKept v v' due .clear := by
  intro p' before aligned
  grind

/-- A debt of the tail hint is paid once the hint is not behind. -/
theorem TailKept.paid {v' : View} {q : Nat} (taken : v'.taken = v.taken)
    (owes : due = ⟨none, some q⟩) (passed : q % 4 = 0 → q ≤ v'.tailHint) :
    TailKept v v' due .clear := by
  intro q' before aligned
  grind

variable {τ : Type} {stands : View → Due → τ → Prop}

/-- An access that leaves the memory as it is and settles what was owed. -/
theorem Post.settles (finds : Finds k addrbase born v r) {next : τ ⊕ Result}
    (head : HeadKept v v due .clear) (tail : TailKept v v due .clear)
    (goes : ∀ l, next = .inl l → stands v .clear l) :
    ∃ v' due', Post k addrbase stands v due none (next, r) v' due' :=
  ⟨v, .clear, .refl v, finds.holds, finds.base, rfl, head, tail, goes, fun _ _ => rfl⟩

theorem Post.reads (finds : Finds k addrbase born v r) {l : τ} (here : stands v due l) :
    ∃ v' due', Post k addrbase stands v due none (.inl l, r) v' due' := by
  refine ⟨v, due, .refl v, finds.holds, finds.base, rfl, .same rfl rfl, .same rfl rfl, ?_, ?_⟩
  · rintro _ ⟨⟩
    exact here
  · simp

/-- An access that only reads, with which a call that owes nothing returns. -/
theorem Post.returns (finds : Finds k addrbase born v r) {res : Result} (clear : due = .clear) :
    ∃ v' due', Post k addrbase stands v due none (.inr res, r) v' due' := by
  subst clear
  exact Post.settles finds (.same rfl rfl) (.same rfl rfl) (by simp)

/-- An access that moves `prod.head` forward over enqueued positions. -/
theorem Post.movesHead (finds : Finds k addrbase born v r) {n : Nat} {due' : Due}
    {next : τ ⊕ Result} (after : v.headHint ≤ n) (before : n ≤ v.filled)
    (head : HeadKept v { v with headHint := n } due due') (tail : due'.tail = due.tail)
    (goes : ∀ l, next = .inl l → stands { v with headHint := n } due' l)
    (ends : ∀ res, next = .inr res → due' = .clear) :
    ∃ v' due', Post k addrbase stands v due none (next, { r with prodHead := word n }) v' due' := by
  obtain ⟨_, taken, _, _⟩ := finds.holds.ordered
  refine ⟨{ v with headHint := n }, due', ?_, finds.holds.moveHead (by omega) before,
    finds.base, rfl, head, .same rfl tail, goes, ends⟩
  exact { View.Grows.refl v with headHint := after }

/-- An access that moves `cons.tail` forward over dequeued positions. -/
theorem Post.movesTail (finds : Finds k addrbase born v r) {n : Nat} {due' : Due}
    {next : τ ⊕ Result} (after : v.tailHint ≤ n) (before : n ≤ v.taken)
    (head : due'.head = due.head) (tail : TailKept v { v with tailHint := n } due due')
    (goes : ∀ l, next = .inl l → stands { v with tailHint := n } due' l)
    (ends : ∀ res, next = .inr res → due' = .clear) :
    ∃ v' due', Post k addrbase stands v due none (next, { r with consTail := word n }) v' due' := by
  refine ⟨{ v with tailHint := n }, due', ?_, finds.holds.moveTail after before,
    finds.base, rfl, .same rfl head, tail, goes, ends⟩
  exact { View.Grows.refl v with tailHint := after }

end Access

/-! ## Producers -/

section Producer

variable {k addrbase born : Nat} {v : View} {r : MemRing} {due : Due}

/-- An access of a producer finds and leaves the ring in order. -/
def MpKeeps (k addrbase born : Nat) (v : View) (due : Due) (r : MemRing) (l : MpPc) : Prop :=
  ∃ v' due', Post k addrbase (fun v due l => l.Stands k addrbase born v due) v due
    (mpEnqueue.event l r) (mpStep l r) v' due'

theorem Finds.inRange (finds : Finds k addrbase born v r) {box : Nat} :
    outOfRange r box = false ↔ InRange addrbase box := by
  rw [inRange_iff, finds.base, InRange]

theorem mp_start_keeps (finds : Finds k addrbase born v r) {box : Nat}
    (stands : (MpPc.start box).Stands k addrbase born v due) :
    MpKeeps k addrbase born v due r (.start box) := by
  obtain ⟨_, taken, head, filled⟩ := finds.holds.ordered
  have since := finds.since
  by_cases refused : outOfRange r box = true
  · simp only [MpKeeps, mpEnqueue, mpStep, if_pos refused]
    exact Post.returns finds stands
  · have inRange := finds.inRange.mp (Bool.eq_false_iff.mpr refused)
    simp only [MpKeeps, mpEnqueue, mpStep, if_neg refused]
    refine Post.reads finds ⟨stands, inRange, v.headHint, finds.holds.head_eq, ?_, head⟩
    omega

/-- The full test: a position one size past the tail hint has to look at the slot there. -/
theorem mp_loadTail_keeps (finds : Finds k addrbase born v r) {box : Nat} {cur : UInt32}
    (stands : (MpPc.loadTail box cur).Stands k addrbase born v due) :
    MpKeeps k addrbase born v due r (.loadTail box cur) := by
  obtain ⟨clear, inRange, p, rfl, recent, before⟩ := stands
  obtain ⟨_, _, _, filled⟩ := finds.holds.ordered
  have near := finds.near
  have test := finds.holds.fullTest (p := p) (by omega) (by omega)
  by_cases full : r.consTail + r.size - word p = 0
  · have lap := test.mp full
    simp only [MpKeeps, mpEnqueue, mpStep, if_pos full]
    exact Post.reads finds ⟨clear, inRange, p, v.tailHint, rfl, finds.holds.tail_eq, recent,
      before, lap, Nat.le_refl _⟩
  · have room : p ≠ v.tailHint + 2 ^ k := mt test.mpr full
    simp only [MpKeeps, mpEnqueue, mpStep, if_neg full]
    exact Post.reads finds ⟨clear, inRange, p, rfl, recent, before, by omega⟩

/-- An emptied slot at the tail hint lets the producer move the hint. -/
theorem mp_loadVal_keeps (finds : Finds k addrbase born v r) {box : Nat} {cur tmp : UInt32}
    (stands : (MpPc.loadVal box cur tmp).Stands k addrbase born v due) :
    MpKeeps k addrbase born v due r (.loadVal box cur tmp) := by
  obtain ⟨clear, inRange, p, t, rfl, rfl, recent, before, lap, hint⟩ := stands
  obtain ⟨tail, _, _, filled⟩ := finds.holds.ordered
  have positive := Nat.two_pow_pos k
  by_cases empty : (r.slot (word t)).val = 0
  · -- an element at the tail hint of a full ring would still be there
    have emptied : t < v.taken := by
      grind [finds.holds.slot_of_stored, finds.fits, finds.holds.value_ne]
    simp only [MpKeeps, mpEnqueue, mpStep, if_pos empty]
    exact Post.reads finds ⟨clear, inRange, p, t, rfl, rfl, recent, before, lap, hint, emptied⟩
  · simp only [MpKeeps, mpEnqueue, mpStep, if_neg empty]
    exact Post.returns finds clear

/-- The tail hint moves over an emptied slot, by this compare-and-swap or an earlier one. -/
theorem mp_bumpTail_keeps (finds : Finds k addrbase born v r) {box : Nat} {cur tmp : UInt32}
    (stands : (MpPc.bumpTail box cur tmp).Stands k addrbase born v due) :
    MpKeeps k addrbase born v due r (.bumpTail box cur tmp) := by
  obtain ⟨clear, inRange, p, t, rfl, rfl, recent, before, lap, hint, emptied⟩ := stands
  obtain ⟨tail, taken, head, filled⟩ := finds.holds.ordered
  have near := finds.near
  have test : r.consTail = word t ↔ v.tailHint = t := by
    rw [finds.holds.tail_eq]
    exact word_inj (by omega) (by omega)
  by_cases swaps : r.consTail = word t
  · obtain rfl := test.mp swaps
    simp only [MpKeeps, mpEnqueue, mpStep, MemRing.casConsTail, if_pos swaps, word_succ]
    apply Post.movesTail finds (Nat.le_succ _) emptied rfl (.same rfl rfl)
    · rintro _ ⟨⟩
      exact ⟨clear, inRange, p, rfl, recent, before, by dsimp only; omega⟩
    · simp
  · have moved : v.tailHint ≠ t := mt test.mpr swaps
    simp only [MpKeeps, mpEnqueue, mpStep, MemRing.casConsTail, if_neg swaps]
    exact Post.reads finds ⟨clear, inRange, p, rfl, recent, before, by omega⟩

/-- A slot with another version has been enqueued already. -/
theorem mp_loadVer_keeps (finds : Finds k addrbase born v r) {box : Nat} {cur : UInt32}
    (stands : (MpPc.loadVer box cur).Stands k addrbase born v due) :
    MpKeeps k addrbase born v due r (.loadVer box cur) := by
  obtain ⟨clear, inRange, p, rfl, recent, before, room⟩ := stands
  by_cases version : (r.slot (word p)).ver = (expectPostVal r (word p)).ver
  · simp only [MpKeeps, mpEnqueue, mpStep, if_pos version]
    exact Post.reads finds ⟨clear, inRange, p, rfl, recent, before, room⟩
  · have enqueued : p ≠ v.filled := by
      grind [finds.holds.slot_filled, finds.fits, expectPostVal, finds.holds.size_eq]
    simp only [MpKeeps, mpEnqueue, mpStep, if_neg version]
    exact Post.reads finds ⟨clear, inRange, p, rfl, recent, by omega⟩

/-- The swap succeeds only at the next position to enqueue, and fails only before it. -/
theorem mp_casSlot_keeps (finds : Finds k addrbase born v r) {box : Nat} {cur : UInt32}
    (stands : (MpPc.casSlot box cur).Stands k addrbase born v due) :
    MpKeeps k addrbase born v due r (.casSlot box cur) := by
  obtain ⟨clear, inRange, p, rfl, recent, before, room⟩ := stands
  have holds := finds.holds
  obtain ⟨tail, taken, head, filled⟩ := holds.ordered
  have near := finds.near
  have fits : k ≤ 32 := by have := finds.fits; omega
  by_cases expected : r.slot (word p) = expectPostVal r (word p)
  · -- the version leaves only the next position to enqueue
    obtain rfl : p = v.filled := by
      apply holds.eq_filled_of_version fits before (by omega)
      rw [expected, expectPostVal, holds.size_eq]
    have offset := offset_ne_zero (finds.inRange.mpr inRange)
    simp only [MpKeeps, mpEnqueue, mpStep, if_pos expected]
    refine ⟨_, ⟨some v.filled, none⟩, ?_, holds.enqueue fits offset room, finds.base, rfl, ?_, ?_,
      ?_, ?_⟩
    · constructor <;> grind
    · intro p' below aligned
      by_cases new : p' = v.filled
      · exact .inr (.inr (by rw [new]))
      · refine .inl ⟨by dsimp only at below; omega, ?_⟩
        rw [clear]
        exact fun owed => by cases owed
    · rw [clear]
      exact .same rfl rfl
    · rintro _ ⟨⟩
      exact ⟨v.filled, rfl, rfl, recent, Nat.lt_succ_self _⟩
    · simp
  · have enqueued : p ≠ v.filled := by grind [holds.slot_free, expectPostVal, holds.size_eq]
    simp only [MpKeeps, mpEnqueue, mpStep, if_neg expected]
    exact Post.reads finds ⟨clear, inRange, p, rfl, recent, by omega⟩

/-- A producer leaves the head hint alone only where it is not behind. -/
theorem mp_loadHint_keeps (finds : Finds k addrbase born v r) {cur : UInt32}
    (stands : (MpPc.loadHint cur).Stands k addrbase born v due) :
    MpKeeps k addrbase born v due r (.loadHint cur) := by
  obtain ⟨p, owes, rfl, recent, enqueued⟩ := stands
  obtain ⟨tail, taken, head, filled⟩ := finds.holds.ordered
  have near := finds.near
  have since := finds.since
  have test : hintBehind (word p) r.prodHead = true ↔ p % 4 = 0 ∧ v.headHint < p := by
    rw [finds.holds.head_eq]
    exact hintBehind_word (by omega) (by omega)
  by_cases behind : hintBehind (word p) r.prodHead = true
  · have passed := (test.mp behind).2
    simp only [MpKeeps, mpEnqueue, mpStep, if_pos behind]
    exact Post.reads finds ⟨p, v.headHint, owes, rfl, finds.holds.head_eq, by omega, passed,
      enqueued, Nat.le_refl _⟩
  · have paid : p % 4 = 0 → p ≤ v.headHint := by
      intro aligned
      by_contra short
      exact behind (test.mpr ⟨aligned, by omega⟩)
    simp only [MpKeeps, mpEnqueue, mpStep, if_neg behind]
    exact Post.settles finds (.paid rfl owes paid) (.same rfl (by rw [owes]; rfl)) (by simp)

/-- The swap of the head hint pays the debt, unless it is lost to a hint that is still behind. -/
theorem mp_casHint_keeps (finds : Finds k addrbase born v r) {cur tmp : UInt32}
    (stands : (MpPc.casHint cur tmp).Stands k addrbase born v due)
    (notLost : r.prodHead = tmp ∨ ¬ r.prodHead - cur > 0x80000000) :
    MpKeeps k addrbase born v due r (.casHint cur tmp) := by
  obtain ⟨p, h, owes, rfl, rfl, recent, passed, enqueued, hint⟩ := stands
  obtain ⟨tail, taken, head, filled⟩ := finds.holds.ordered
  have near := finds.near
  have since := finds.since
  have test : r.prodHead = word h ↔ v.headHint = h := by
    rw [finds.holds.head_eq]
    exact word_inj (by omega) (by omega)
  by_cases swaps : r.prodHead = word h
  · obtain rfl := test.mp swaps
    simp only [MpKeeps, mpEnqueue, mpStep, MemRing.casProdHead, if_pos swaps, word_succ]
    apply Post.movesHead finds (by omega) enqueued (.paid rfl owes fun _ => Nat.le_succ p)
    · rw [owes]
      rfl
    · simp
    · simp
  · have reached : p ≤ v.headHint := by grind [finds.holds.head_eq, word_behind]
    simp only [MpKeeps, mpEnqueue, mpStep, MemRing.casProdHead, if_neg swaps]
    exact Post.settles finds (.paid rfl owes fun _ => reached) (.same rfl (by rw [owes]; rfl))
      (by simp)

/-- The scan goes to the next position or back to the head hint. -/
theorem mp_loadNext_keeps (finds : Finds k addrbase born v r) {box : Nat} {cur : UInt32}
    (stands : (MpPc.loadNext box cur).Stands k addrbase born v due) :
    MpKeeps k addrbase born v due r (.loadNext box cur) := by
  obtain ⟨clear, inRange, p, rfl, recent, enqueued⟩ := stands
  obtain ⟨tail, taken, head, filled⟩ := finds.holds.ordered
  have since := finds.since
  apply Post.reads finds
  refine ⟨clear, inRange, ?_⟩
  grind [advance, word_succ, finds.holds.head_eq]

/-- Every access of a producer keeps the ring in order, if no hint update is lost. -/
theorem mp_keeps (finds : Finds k addrbase born v r) {l : MpPc}
    (stands : l.Stands k addrbase born v due)
    (notLost : ∀ cur tmp, l = .casHint cur tmp →
      r.prodHead = tmp ∨ ¬ r.prodHead - cur > 0x80000000) :
    MpKeeps k addrbase born v due r l := by
  cases l with
  | start box => exact mp_start_keeps finds stands
  | loadTail box cur => exact mp_loadTail_keeps finds stands
  | loadVal box cur tmp => exact mp_loadVal_keeps finds stands
  | bumpTail box cur tmp => exact mp_bumpTail_keeps finds stands
  | loadVer box cur => exact mp_loadVer_keeps finds stands
  | casSlot box cur => exact mp_casSlot_keeps finds stands
  | loadHint cur => exact mp_loadHint_keeps finds stands
  | casHint cur tmp => exact mp_casHint_keeps finds stands (notLost cur tmp rfl)
  | loadNext box cur => exact mp_loadNext_keeps finds stands

end Producer

/-! ## Consumers -/

section Consumer

variable {k addrbase born : Nat} {v : View} {r : MemRing} {due : Due}

/-- An access of a consumer finds and leaves the ring in order. -/
def McKeeps (k addrbase born : Nat) (v : View) (due : Due) (r : MemRing) (l : McPc) : Prop :=
  ∃ v' due', Post k addrbase (fun v due l => l.Stands k born v due) v due
    (mcDequeue.event l r) (mcStep l r) v' due'

theorem mc_start_keeps (finds : Finds k addrbase born v r) {b : Batch}
    (stands : (McPc.start b).Stands k born v due) :
    McKeeps k addrbase born v due r (.start b) := by
  obtain ⟨tail, _, _, filled⟩ := finds.holds.ordered
  have since := finds.since
  exact Post.reads finds ⟨stands, v.tailHint, finds.holds.tail_eq, by omega, tail⟩

/-- The empty test: a position at the head hint has to look at the slot there. -/
theorem mc_loadHead_keeps (finds : Finds k addrbase born v r) {b : Batch} {out : List Nat}
    {cur : UInt32} (stands : (McPc.loadHead b out cur).Stands k born v due) :
    McKeeps k addrbase born v due r (.loadHead b out cur) := by
  obtain ⟨clear, q, rfl, recent, before⟩ := stands
  obtain ⟨_, taken, head, _⟩ := finds.holds.ordered
  have near := finds.near
  by_cases here : word q = r.prodHead
  · by_cases none : out = []
    · simp only [McKeeps, mcDequeue, mcStep, if_pos here, if_pos none]
      exact Post.reads finds ⟨clear, q, rfl, here.symm, recent, before⟩
    · simp only [McKeeps, mcDequeue, mcStep, if_pos here, if_neg none]
      exact Post.returns finds clear
  · have passed : q ≠ v.headHint := by
      rintro rfl
      exact here finds.holds.head_eq.symm
    simp only [McKeeps, mcDequeue, mcStep, if_neg here]
    exact Post.reads finds ⟨clear, q, rfl, recent, before, by omega⟩

/-- An element at the head hint lets the consumer move the hint. -/
theorem mc_loadVal_keeps (finds : Finds k addrbase born v r) {b : Batch} {out : List Nat}
    {cur tmp : UInt32} (stands : (McPc.loadVal b out cur tmp).Stands k born v due) :
    McKeeps k addrbase born v due r (.loadVal b out cur tmp) := by
  obtain ⟨clear, q, rfl, rfl, recent, before⟩ := stands
  obtain ⟨_, taken, head, _⟩ := finds.holds.ordered
  have positive := Nat.two_pow_pos k
  by_cases full : (r.slot (word q)).val ≠ 0
  · -- the slot past everything enqueued of an empty ring is empty
    have stored : q < v.filled := by grind [finds.holds.slot_free, finds.fits]
    simp only [McKeeps, mcDequeue, mcStep, if_pos full]
    exact Post.reads finds ⟨clear, q, rfl, rfl, recent, before, stored⟩
  · simp only [McKeeps, mcDequeue, mcStep, if_neg full]
    exact Post.returns finds clear

/-- The head hint moves over an element, by this compare-and-swap or an earlier one. -/
theorem mc_bumpHead_keeps (finds : Finds k addrbase born v r) {b : Batch} {out : List Nat}
    {cur tmp : UInt32} (stands : (McPc.bumpHead b out cur tmp).Stands k born v due) :
    McKeeps k addrbase born v due r (.bumpHead b out cur tmp) := by
  obtain ⟨clear, q, rfl, rfl, recent, before, stored⟩ := stands
  obtain ⟨_, taken, head, _⟩ := finds.holds.ordered
  have near := finds.near
  have test : r.prodHead = word q ↔ v.headHint = q := by
    rw [finds.holds.head_eq]
    exact word_inj (by omega) (by omega)
  by_cases swaps : r.prodHead = word q
  · obtain rfl := test.mp swaps
    simp only [McKeeps, mcDequeue, mcStep, MemRing.casProdHead, if_pos swaps, word_succ]
    apply Post.movesHead finds (Nat.le_succ _) stored (.same rfl rfl) rfl
    · rintro _ ⟨⟩
      exact ⟨clear, _, rfl, recent, before, Nat.lt_succ_self _⟩
    · simp
  · have moved : v.headHint ≠ q := mt test.mpr swaps
    simp only [McKeeps, mcDequeue, mcStep, MemRing.casProdHead, if_neg swaps]
    exact Post.reads finds ⟨clear, q, rfl, recent, before, by omega⟩

/-- A slot without the element of its position has been dequeued already. -/
theorem mc_loadSlot_keeps (finds : Finds k addrbase born v r) {b : Batch} {out : List Nat}
    {cur : UInt32} (stands : (McPc.loadSlot b out cur).Stands k born v due) :
    McKeeps k addrbase born v due r (.loadSlot b out cur) := by
  obtain ⟨clear, q, rfl, recent, before, hint⟩ := stands
  have holds := finds.holds
  obtain ⟨_, taken, head, _⟩ := holds.ordered
  have near := finds.near
  have fits : k ≤ 32 := by have := finds.fits; omega
  by_cases full : (curNullVal (word q)).ver = (r.slot (word q)).ver ∧ (r.slot (word q)).val ≠ 0
  · have slot := holds.slot_of_version fits (by omega) (by omega) full.1.symm
    have oldest : v.taken ≤ q := by
      by_contra older
      rw [slot, if_neg older] at full
      exact full.2 rfl
    rw [if_pos oldest] at slot
    simp only [McKeeps, mcDequeue, mcStep, if_pos full]
    exact Post.reads finds ⟨clear, q, rfl, recent, before, hint, by omega, slot⟩
  · have dequeued : q ≠ v.taken := by
      rintro rfl
      rw [holds.slot_of_stored fits (Nat.le_refl _) (by omega)] at full
      exact full ⟨rfl, holds.value_ne _ (by omega)⟩
    simp only [McKeeps, mcDequeue, mcStep, if_neg full]
    exact Post.reads finds ⟨clear, q, rfl, recent, by omega⟩

/-- The swap succeeds only at the oldest element, and fails only before it. -/
theorem mc_casSlot_keeps (finds : Finds k addrbase born v r) {b : Batch} {out : List Nat}
    {cur : UInt32} {excp : RingData}
    (stands : (McPc.casSlot b out cur excp).Stands k born v due) :
    McKeeps k addrbase born v due r (.casSlot b out cur excp) := by
  obtain ⟨clear, q, rfl, recent, before, hint, stored, rfl⟩ := stands
  have holds := finds.holds
  have near := finds.near
  have fits : k ≤ 32 := by have := finds.fits; omega
  by_cases swaps : r.slot (word q) = ⟨v.value q, verOf (word q)⟩
  · obtain rfl : q = v.taken := by grind [holds.slot_of_version, holds.value_ne]
    simp only [McKeeps, mcDequeue, mcStep, if_pos swaps]
    refine ⟨_, ⟨none, some v.taken⟩, ?_, holds.dequeue fits hint, finds.base, rfl, ?_, ?_, ?_, ?_⟩
    · exact { View.Grows.refl v with taken := Nat.le_succ _ }
    · rw [clear]
      exact .same rfl rfl
    · intro q' below aligned
      by_cases new : q' = v.taken
      · exact .inr (.inr (by rw [new]))
      · refine .inl ⟨by dsimp only at below; omega, ?_⟩
        rw [clear]
        exact fun owed => by cases owed
    · rintro _ ⟨⟩
      exact ⟨v.taken, rfl, rfl, recent, Nat.lt_succ_self _⟩
    · simp
  · have dequeued : q ≠ v.taken := by
      rintro rfl
      exact swaps (holds.slot_of_stored fits (Nat.le_refl _) stored)
    simp only [McKeeps, mcDequeue, mcStep, if_neg swaps]
    exact Post.reads finds ⟨clear, q, rfl, recent, by omega⟩

/-- Where a consumer goes once it has looked at the tail hint. -/
theorem mcTaken_stands {b : Batch} {out : List Nat} {q : Nat} (recent : born ≤ q + 2 ^ k)
    (dequeued : q < v.taken) {l : McPc} (next : mcTaken b out (word q) = .inl l) :
    l.Stands k born v .clear := by
  cases b with
  | one => cases next
  | vec n =>
    obtain rfl := Sum.inl.inj next
    exact ⟨rfl, q, rfl, recent, dequeued⟩

/-- A consumer leaves the tail hint alone only where it is not behind. -/
theorem mc_loadHint_keeps (finds : Finds k addrbase born v r) {b : Batch} {out : List Nat}
    {cur : UInt32} (stands : (McPc.loadHint b out cur).Stands k born v due) :
    McKeeps k addrbase born v due r (.loadHint b out cur) := by
  obtain ⟨q, owes, rfl, recent, dequeued⟩ := stands
  obtain ⟨tail, taken, head, filled⟩ := finds.holds.ordered
  have near := finds.near
  have since := finds.since
  have test : hintBehind (word q) r.consTail = true ↔ q % 4 = 0 ∧ v.tailHint < q := by
    rw [finds.holds.tail_eq]
    exact hintBehind_word (by omega) (by omega)
  by_cases behind : hintBehind (word q) r.consTail = true
  · have passed := (test.mp behind).2
    simp only [McKeeps, mcDequeue, mcStep, if_pos behind]
    exact Post.reads finds ⟨q, v.tailHint, owes, rfl, finds.holds.tail_eq, by omega, passed,
      dequeued, Nat.le_refl _⟩
  · have paid : q % 4 = 0 → q ≤ v.tailHint := by
      intro aligned
      by_contra short
      exact behind (test.mpr ⟨aligned, by omega⟩)
    simp only [McKeeps, mcDequeue, mcStep, if_neg behind]
    exact Post.settles finds (.same rfl (by rw [owes]; rfl)) (.paid rfl owes paid)
      fun l next => mcTaken_stands recent dequeued next

/-- The swap of the tail hint pays the debt, unless it is lost to a hint that is still
behind. -/
theorem mc_casHint_keeps (finds : Finds k addrbase born v r) {b : Batch} {out : List Nat}
    {cur tmp : UInt32} (stands : (McPc.casHint b out cur tmp).Stands k born v due)
    (notLost : r.consTail = tmp ∨ ¬ r.consTail - cur > 0x80000000) :
    McKeeps k addrbase born v due r (.casHint b out cur tmp) := by
  obtain ⟨q, t, owes, rfl, rfl, recent, passed, dequeued, hint⟩ := stands
  obtain ⟨tail, taken, head, filled⟩ := finds.holds.ordered
  have near := finds.near
  have since := finds.since
  have later : born ≤ q + 2 ^ k := by omega
  have test : r.consTail = word t ↔ v.tailHint = t := by
    rw [finds.holds.tail_eq]
    exact word_inj (by omega) (by omega)
  by_cases swaps : r.consTail = word t
  · obtain rfl := test.mp swaps
    simp only [McKeeps, mcDequeue, mcStep, MemRing.casConsTail, if_pos swaps, word_succ]
    have paid : TailKept v { v with tailHint := q + 1 } due .clear :=
      .paid rfl owes fun _ => Nat.le_succ q
    refine Post.movesTail finds (by omega) dequeued ?_ paid ?_ fun _ _ => rfl
    · rw [owes]
      rfl
    · grind [mcTaken_stands]
  · have reached : q ≤ v.tailHint := by grind [finds.holds.tail_eq, word_behind]
    simp only [McKeeps, mcDequeue, mcStep, MemRing.casConsTail, if_neg swaps]
    exact Post.settles finds (.same rfl (by rw [owes]; rfl)) (.paid rfl owes fun _ => reached)
      fun l next => mcTaken_stands later dequeued next

/-- The scan goes to the next position or back to the tail hint. -/
theorem mc_loadNext_keeps (finds : Finds k addrbase born v r) {b : Batch} {out : List Nat}
    {cur : UInt32} (stands : (McPc.loadNext b out cur).Stands k born v due) :
    McKeeps k addrbase born v due r (.loadNext b out cur) := by
  obtain ⟨clear, q, rfl, recent, dequeued⟩ := stands
  obtain ⟨tail, taken, head, filled⟩ := finds.holds.ordered
  have since := finds.since
  by_cases more : b.goesOn out = true
  · simp only [McKeeps, mcDequeue, mcStep, if_pos more]
    apply Post.reads finds
    refine ⟨clear, ?_⟩
    simp only [advance]
    grind [word_succ, finds.holds.tail_eq]
  · simp only [McKeeps, mcDequeue, mcStep, if_neg more]
    exact Post.returns finds clear

/-- Every access of a consumer keeps the ring in order, if no hint update is lost. -/
theorem mc_keeps (finds : Finds k addrbase born v r) {l : McPc} (stands : l.Stands k born v due)
    (notLost : ∀ b out cur tmp, l = .casHint b out cur tmp →
      r.consTail = tmp ∨ ¬ r.consTail - cur > 0x80000000) :
    McKeeps k addrbase born v due r l := by
  cases l with
  | start b => exact mc_start_keeps finds stands
  | loadHead b out cur => exact mc_loadHead_keeps finds stands
  | loadVal b out cur tmp => exact mc_loadVal_keeps finds stands
  | bumpHead b out cur tmp => exact mc_bumpHead_keeps finds stands
  | loadSlot b out cur => exact mc_loadSlot_keeps finds stands
  | casSlot b out cur excp => exact mc_casSlot_keeps finds stands
  | loadHint b out cur => exact mc_loadHint_keeps finds stands
  | casHint b out cur tmp => exact mc_casHint_keeps finds stands (notLost b out cur tmp rfl)
  | loadNext b out cur => exact mc_loadNext_keeps finds stands

end Consumer

/-! ## Whole runs -/

section Runs

variable {ι : Type} [DecidableEq ι] {k addrbase : Nat}

/-- The run as the proof sees it. -/
structure History (ι : Type) where
  view : View
  log : List Event
  due : ι → Due

/-- The memory and the log agree with the history, and every debt is some thread's. -/
structure Agrees (k addrbase : Nat) (g : History ι) (r : MemRing) (log : List Event) : Prop where
  events : g.log = log
  holds : Holds k g.view r
  base : r.addrbase = addrbase
  filled : g.view.filled = storedCount log
  head : ∀ p, p < g.view.filled → p % 4 = 0 →
    p ≤ g.view.headHint ∨ ∃ i, (g.due i).head = some p
  tail : ∀ q, q < g.view.taken → q % 4 = 0 →
    q ≤ g.view.tailHint ∨ ∃ i, (g.due i).tail = some q

/-- Where a thread stands in the history, whose call started at length `b` of the log. -/
def Placed (k addrbase : Nat) (g : History ι) (i : ι) (b : Nat) : Option (MpPc ⊕ McPc) → Prop
  | none => g.due i = .clear
  | some (.inl l) => b ≤ g.log.length ∧
      l.Stands k addrbase (storedCount (g.log.take b)) g.view (g.due i)
  | some (.inr l) => b ≤ g.log.length ∧
      l.Stands k (storedCount (g.log.take b)) g.view (g.due i)

/-- What a step of thread `i` does to the history. -/
structure Continues (i : ι) (g g' : History ι) : Prop where
  grows : g.view.Grows g'.view
  events : ∃ new, g'.log = g.log ++ new
  due : ∀ j, j ≠ i → g'.due j = g.due j

theorem storedCount_append (left right : List Event) :
    storedCount (left ++ right) = storedCount left + storedCount right :=
  List.countP_append

theorem storedCount_toList (e : Option Event) : storedCount e.toList = stores e := by
  rcases e with _ | (_ | _) <;> rfl

omit [DecidableEq ι] in
/-- Where a thread stands survives the steps of the others. -/
theorem Placed.stable {g g' : History ι} {i j : ι} {b : Nat} {l : Option (MpPc ⊕ McPc)}
    (other : i ≠ j) (continues : Continues j g g') (placed : Placed k addrbase g i b l) :
    Placed k addrbase g' i b l := by
  have due := continues.due i other
  obtain ⟨new, log⟩ := continues.events
  match l, placed with
  | none, clear => exact due.trans clear
  | some (.inl l), ⟨started, stands⟩ =>
    simp only [Placed, due, log, List.take_append_of_le_length started, List.length_append]
    exact ⟨by omega, stands.mono continues.grows⟩
  | some (.inr l), ⟨started, stands⟩ =>
    simp only [Placed, due, log, List.take_append_of_le_length started, List.length_append]
    exact ⟨by omega, stands.mono continues.grows⟩

omit [DecidableEq ι] in
/-- A thread whose steps keep the hints finds the ring in order. -/
theorem Agrees.finds {g : History ι} {r : MemRing} {log : List Event} {b : Nat}
    (agrees : Agrees k addrbase g r log) (fits : k < 32) (recent : storedCount (log.drop b) +
      2 * r.size.toNat ≤ 2 ^ 24) :
    Finds k addrbase (storedCount (log.take b)) g.view r := by
  have size : r.size.toNat = 2 ^ k := by
    rw [agrees.holds.size_eq]
    exact toNat_word_of_lt (Nat.pow_lt_pow_right (by decide) fits)
  have split := storedCount_append (log.take b) (log.drop b)
  rw [List.take_append_drop] at split
  have filled := agrees.filled
  exact ⟨agrees.holds, agrees.base, by omega, by omega⟩

/-- What one access leaves is the next state of the history. -/
theorem Post.continues {τ : Type} {stands : View → Due → τ → Prop} {g : History ι} {r : MemRing}
    {log : List Event} {i : ι} {e : Option Event} {out : (τ ⊕ Result) × MemRing} {v' : View}
    {due' : Due} (agrees : Agrees k addrbase g r log)
    (post : Post k addrbase stands g.view (g.due i) e out v' due') :
    Continues i g ⟨v', log ++ e.toList, Function.update g.due i due'⟩ ∧
      Agrees k addrbase ⟨v', log ++ e.toList, Function.update g.due i due'⟩ out.2
        (log ++ e.toList) := by
  constructor
  · exact ⟨post.grows, ⟨e.toList, by rw [agrees.events]⟩, fun j other =>
      Function.update_of_ne other _ _⟩
  · refine ⟨rfl, post.holds, post.base, ?_, ?_, ?_⟩
    · rw [storedCount_append, storedCount_toList, ← agrees.filled]
      exact post.filled
    · intro p before aligned
      rcases post.head p before aligned with ⟨old, mine⟩ | passed | owed
      · rcases agrees.head p old aligned with passed | ⟨j, owed⟩
        · exact .inl (Nat.le_trans passed post.grows.headHint)
        · have other : j ≠ i := by
            rintro rfl
            exact mine owed
          exact .inr ⟨j, by simpa only [Function.update_of_ne other] using owed⟩
      · exact .inl passed
      · exact .inr ⟨i, by simpa only [Function.update_self] using owed⟩
    · intro q before aligned
      rcases post.tail q before aligned with ⟨old, mine⟩ | passed | owed
      · rcases agrees.tail q old aligned with passed | ⟨j, owed⟩
        · exact .inl (Nat.le_trans passed post.grows.tailHint)
        · have other : j ≠ i := by
            rintro rfl
            exact mine owed
          exact .inr ⟨j, by simpa only [Function.update_of_ne other] using owed⟩
      · exact .inl passed
      · exact .inr ⟨i, by simpa only [Function.update_self] using owed⟩

/-- The slots that hold an element. -/
def occupied (r : MemRing) : Finset Nat :=
  (Finset.range r.size.toNat).filter fun i => (r.ring i).val ≠ 0

end Runs

/-! ## A kept and a lost update -/

/-- A thread performs accesses. -/
def accesses (i : Fin 3) (n : Nat) : List (Action (Fin 3) (Nat ⊕ Batch)) :=
  List.replicate n (.access i)

/-- A memory whose head hint stands at 1 while the positions below 8 are enqueued and only
position 0 is dequeued. -/
def Stranded (r : MemRing) : Prop :=
  (r.size = 8 ∧ r.mask = 7 ∧ r.prodHead = 1 ∧ r.consTail = 0 ∧ r.addrbase = 0) ∧
  ∀ p < 16, 8 ≤ p → r.ring (p % 8) =
    ⟨if 9 ≤ p then BitVec.ofNat 40 (p - 8 + 1) else 0, verOf (word p - word 8)⟩

instance (r : MemRing) : Decidable (Stranded r) := inferInstanceAs (Decidable (_ ∧ _))

theorem Stranded.holds {r : MemRing} (stranded : Stranded r) :
    Holds 3 ⟨1, 8, 1, 0, fun q => BitVec.ofNat 40 (q + 1)⟩ r := by
  obtain ⟨⟨size, mask, head, tail, _⟩, slots⟩ := stranded
  have values : ∀ q < 8, BitVec.ofNat 40 (q + 1) ≠ 0 := by decide
  exact ⟨size, mask, head, tail, by decide, by decide, by decide, by decide, values,
    fun p after below => slots p below after⟩

end Dmm.Ring.Shmem
