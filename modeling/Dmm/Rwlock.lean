import Dmm.Lib.Word
import Dmm.Lib.Machine

/-!
# The reader/writer spin lock

`dmm_rwlock.h` keeps one `int`: the number of readers inside, or `-1` for a writer. Every
load, store, compare-and-swap and atomic subtraction of that word is one step here. The
loops are `do { if (busy) { dmm_pause (); continue; } } while (!cas)`: the `continue` of a
do-while goes to the loop condition, so the compare-and-swap runs after the busy branch as
well, and a reader that saw the word `-1` tries to swap `-1` for `0`.

`Exclusive` and `WordCounts` are what the lock is for. They hold in every pool reached by
steps in which no reader's compare-and-swap matches a negative word, and not otherwise.
-/

namespace Dmm.Rwlock

open Dmm.Machine Dmm.Word

/-- The two ways of using the lock: lock, be inside, unlock. -/
inductive Use
  | read
  | write
  deriving DecidableEq, Repr

/-- Where a thread stands. `reading` and `writing` are the sections the lock protects; the
access of such a state is the unlock. -/
inductive Pc
  | readLoad
  | readPause (val : Int)
  | readCas (val : Int)
  | reading
  | writeLoad
  | writePause
  | writeCas
  | writing
  deriving DecidableEq, Repr

/-- `dmm_read_lock`, `dmm_read_unlock`, `dmm_write_lock` and `dmm_write_unlock`, one access
of the lock word at a time. -/
def step : Pc → Int → (Pc ⊕ Unit) × Int
  | .readLoad, lock => (.inl (if lock < 0 then .readPause lock else .readCas lock), lock)
  -- `continue` leaves the body, not the loop: the condition is evaluated next
  | .readPause val, lock => (.inl (.readCas val), lock)
  | .readCas val, lock =>
    if lock = val then (.inl .reading, int32 (val + 1)) else (.inl .readLoad, lock)
  | .reading, lock => (.inr (), int32 (lock - 1))
  | .writeLoad, lock => (.inl (if lock ≠ 0 then .writePause else .writeCas), lock)
  | .writePause, lock => (.inl .writeCas, lock)
  | .writeCas, lock => if lock = 0 then (.inl .writing, -1) else (.inl .writeLoad, lock)
  | .writing, _ => (.inr (), 0)

/-- The lock as the code of a thread; nothing is logged. -/
def code : Code Use Pc Int Unit Empty where
  start
    | .read => .readLoad
    | .write => .writeLoad
  step := step
  event _ _ := none

/-- `dmm_rwlock_init` -/
def rwlockInit : Int := 0

variable {ι : Type} [DecidableEq ι]

/-- No thread is in a section together with a writer. -/
def Exclusive (p : Pool ι Pc Int Empty) : Prop :=
  ∀ i j, p.thread i = some .writing →
    p.thread j = some .reading ∨ p.thread j = some .writing → j = i

/-- The word is `-1` while a writer is inside, and the number of readers inside otherwise. -/
def WordCounts [Fintype ι] (p : Pool ι Pc Int Empty) : Prop :=
  ((∃ i, p.thread i = some .writing) → p.shared = -1) ∧
  ((¬ ∃ i, p.thread i = some .writing) →
    p.shared = ((Finset.univ.filter fun i => p.thread i = some .reading).card : Int))

/-- A reader's compare-and-swap that is about to match holds a count that can be raised:
the word is not negative, and not the largest `int`. -/
def readCasSound (p : Pool ι Pc Int Empty) : Action ι Use → Bool
  | .access i =>
    match p.thread i with
    | some (.readCas val) => decide (p.shared = val → 0 ≤ val ∧ val < 2 ^ 31 - 1)
    | _ => true
  | .call _ _ => true

/-- Who is inside, as the proof sees it. -/
structure Inside (ι : Type) where
  readers : Finset ι
  writer : Option ι

/-- The word agrees with who is inside. -/
def Inside.Fits (g : Inside ι) (lock : Int) (_ : List Empty) : Prop :=
  match g.writer with
  | some _ => lock = -1 ∧ g.readers = ∅
  | none => lock = g.readers.card ∧ (g.readers.card : Int) < 2 ^ 31

/-- A thread is inside exactly where its local state says so. -/
def Inside.Knows (g : Inside ι) (i : ι) (_ : Nat) (l : Option Pc) : Prop :=
  (l = some .reading ↔ i ∈ g.readers) ∧ (l = some .writing ↔ g.writer = some i)

/-- A thread moves nobody but itself in or out. -/
def Inside.MovesOnly (i : ι) (g g' : Inside ι) : Prop :=
  ∀ j, j ≠ i → (j ∈ g'.readers ↔ j ∈ g.readers) ∧ (g'.writer = some j ↔ g.writer = some j)

omit [DecidableEq ι] in
theorem Inside.movesOnly_refl (i : ι) (g : Inside ι) : MovesOnly i g g :=
  fun _ _ => ⟨Iff.rfl, Iff.rfl⟩

omit [DecidableEq ι] in
/-- An access that neither enters nor leaves a section keeps who is inside. -/
theorem stays {g : Inside ι} {i : ι} {b : Nat} {lock : Int} {log : List Empty} {l : Pc}
    (log' : List Empty) (l' : Pc) (fits : g.Fits lock log) (knows : g.Knows i b (some l))
    (outside : l ≠ .reading ∧ l ≠ .writing) (outside' : l' ≠ .reading ∧ l' ≠ .writing) :
    ∃ g', Inside.MovesOnly i g g' ∧ Inside.Fits g' lock log' ∧
      Inside.Knows g' i b (some l') := by
  refine ⟨g, Inside.movesOnly_refl i g, fits, ?_⟩
  simp only [Inside.Knows, Option.some.injEq, outside, outside'] at knows ⊢
  exact knows

/-- A reader that swaps a count for the next one joins the readers. -/
theorem enter_read {g : Inside ι} {i : ι} {b : Nat} {val : Int} {log : List Empty}
    (log' : List Empty) (fits : g.Fits val log) (knows : g.Knows i b (some (.readCas val)))
    (sound : 0 ≤ val ∧ val < 2 ^ 31 - 1) :
    ∃ g', Inside.MovesOnly i g g' ∧ Inside.Fits g' (int32 (val + 1)) log' ∧
      Inside.Knows g' i b (some .reading) := by
  have noWriter : g.writer = none := by
    cases inside : g.writer with
    | none => rfl
    | some w =>
      simp only [Inside.Fits, inside] at fits
      omega
  have absent : i ∉ g.readers := fun member => by simpa using knows.1.mpr member
  simp only [Inside.Fits, noWriter] at fits
  refine ⟨⟨insert i g.readers, none⟩, ?_, ?_, ?_⟩
  · intro j other
    simp [Finset.mem_insert, other, noWriter]
  · rw [int32_of_range (by omega) (by omega)]
    simp only [Inside.Fits, Finset.card_insert_of_notMem absent]
    push_cast
    omega
  · simp [Inside.Knows]

/-- A reader that subtracts one leaves the readers. -/
theorem leave_read {g : Inside ι} {i : ι} {b : Nat} {lock : Int} {log : List Empty}
    (log' : List Empty) (fits : g.Fits lock log) (knows : g.Knows i b (some .reading)) :
    ∃ g', Inside.MovesOnly i g g' ∧ Inside.Fits g' (int32 (lock - 1)) log' ∧
      Inside.Knows g' i b none := by
  have member : i ∈ g.readers := knows.1.mp rfl
  have noWriter : g.writer = none := by
    cases inside : g.writer with
    | none => rfl
    | some w =>
      simp only [Inside.Fits, inside] at fits
      simp [fits.2] at member
  simp only [Inside.Fits, noWriter] at fits
  have some_reader : 0 < g.readers.card := Finset.card_pos.mpr ⟨i, member⟩
  refine ⟨⟨g.readers.erase i, none⟩, ?_, ?_, ?_⟩
  · intro j other
    simp [Finset.mem_erase, other, noWriter]
  · rw [int32_of_range (by omega) (by omega)]
    simp only [Inside.Fits, Finset.card_erase_of_mem member]
    omega
  · simp [Inside.Knows]

omit [DecidableEq ι] in
/-- A writer that swaps zero for `-1` finds nobody inside. -/
theorem enter_write {g : Inside ι} {i : ι} {b : Nat} {log : List Empty}
    (log' : List Empty) (fits : g.Fits 0 log) :
    ∃ g', Inside.MovesOnly i g g' ∧ Inside.Fits g' (-1) log' ∧
      Inside.Knows g' i b (some .writing) := by
  have noWriter : g.writer = none := by
    cases inside : g.writer with
    | none => rfl
    | some w => simp [Inside.Fits, inside] at fits
  simp only [Inside.Fits, noWriter] at fits
  have nobody : g.readers = ∅ := Finset.card_eq_zero.mp (by omega)
  refine ⟨⟨∅, some i⟩, ?_, ?_, ?_⟩
  · intro j other
    simp [nobody, noWriter, Ne.symm other]
  · simp [Inside.Fits]
  · simp [Inside.Knows]

omit [DecidableEq ι] in
theorem leave_write {g : Inside ι} {i : ι} {b : Nat} {lock : Int} {log : List Empty}
    (log' : List Empty) (fits : g.Fits lock log) (knows : g.Knows i b (some .writing)) :
    ∃ g', Inside.MovesOnly i g g' ∧ Inside.Fits g' 0 log' ∧ Inside.Knows g' i b none := by
  have mine : g.writer = some i := knows.2.mp rfl
  simp only [Inside.Fits, mine] at fits
  refine ⟨⟨∅, none⟩, ?_, ?_, ?_⟩
  · intro j other
    simp [fits.2, mine, Ne.symm other]
  · simp [Inside.Fits]
  · simp [Inside.Knows]

/-- One access of a thread keeps the word in agreement with who is inside. -/
theorem access_keeps {g : Inside ι} {p : Pool ι Pc Int Empty} {i : ι} {l : Pc}
    (sound : readCasSound p (.access i) = true) (inside : p.thread i = some l)
    (fits : g.Fits p.shared p.log) (knows : g.Knows i (p.birth i) (some l)) :
    ∃ g', Inside.MovesOnly i g g' ∧
      Inside.Fits g' (code.step l p.shared).2
        (p.log ++ (code.event l p.shared).toList) ∧
      Inside.Knows g' i (p.birth i) (code.step l p.shared).1.getLeft? := by
  cases l with
  | readLoad =>
    by_cases busy : p.shared < 0
    · simpa [code, step, busy] using
        stays p.log (.readPause p.shared) fits knows (by simp) (by simp)
    · simpa [code, step, busy] using
        stays p.log (.readCas p.shared) fits knows (by simp) (by simp)
  | readPause val =>
    simpa [code, step] using
      stays p.log (.readCas val) fits knows (by simp) (by simp)
  | readCas val =>
    by_cases swaps : p.shared = val
    · subst swaps
      have raisable : 0 ≤ p.shared ∧ p.shared < 2 ^ 31 - 1 := by
        simpa [readCasSound, inside] using sound
      simpa [code, step] using enter_read p.log fits knows raisable
    · simpa [code, step, swaps] using
        stays p.log .readLoad fits knows (by simp) (by simp)
  | reading => simpa [code, step] using leave_read p.log fits knows
  | writeLoad =>
    by_cases busy : p.shared = 0
    · simpa [code, step, busy] using
        stays p.log .writeCas (busy ▸ fits) knows (by simp) (by simp)
    · simpa [code, step, busy] using
        stays p.log .writePause fits knows (by simp) (by simp)
  | writePause =>
    simpa [code, step] using
      stays p.log .writeCas fits knows (by simp) (by simp)
  | writeCas =>
    by_cases free : p.shared = 0
    · simpa [code, step, free] using enter_write p.log (free ▸ fits)
    · simpa [code, step, free] using
        stays p.log .writeLoad fits knows (by simp) (by simp)
  | writing => simpa [code, step] using leave_write p.log fits knows

/-- Who is inside is known in every pool reached by sound steps. -/
theorem reach_annotated {p : Pool ι Pc Int Empty}
    (reach : Reach code (fun p a => readCasSound p a) (Pool.fresh rwlockInit) p) :
    Annotated Inside.Fits Inside.Knows p := by
  refine reach.relyGuarantee _ _ Inside.MovesOnly ⟨⟨∅, none⟩, ?_, ?_⟩ ?_ ?_ ?_
  · simp [Pool.fresh, Inside.Fits, rwlockInit]
  · simp [Pool.fresh, Inside.Knows]
  · intro i j g g' b l other moves knows
    exact ⟨knows.1.trans (moves i other).1.symm, knows.2.trans (moves i other).2.symm⟩
  · intro g p i use _ _ fits knows
    refine ⟨g, Inside.movesOnly_refl i g, fits, ?_⟩
    cases use <;> simpa [Inside.Knows, code] using knows
  · intro g p i l sound inside fits knows
    exact access_keeps sound inside fits knows

/-- The lock excludes and counts in every pool that any number of threads reach by any
interleaving in which no reader's compare-and-swap matches a negative or a full word. -/
theorem rwlock_exclusive_of_sound [Fintype ι] (p : Pool ι Pc Int Empty)
    (reach : Reach code (fun p a => readCasSound p a) (Pool.fresh rwlockInit) p) :
    Exclusive p ∧ WordCounts p := by
  obtain ⟨g, fits, knows⟩ := reach_annotated reach
  have readers : Finset.univ.filter (fun i => p.thread i = some .reading) = g.readers := by
    ext i
    simp [(knows i).1]
  refine ⟨?_, ?_, ?_⟩
  · rintro i j writing (reading | other)
    · have mine := (knows i).2.mp writing
      have member := (knows j).1.mp reading
      simp only [Inside.Fits, mine] at fits
      simp [fits.2] at member
    · exact Option.some.inj (((knows j).2.mp other).symm.trans ((knows i).2.mp writing))
  · rintro ⟨i, writing⟩
    simp only [Inside.Fits, (knows i).2.mp writing] at fits
    exact fits.1
  · intro nobody
    rw [readers]
    cases mine : g.writer with
    | none =>
      simp only [Inside.Fits, mine] at fits
      exact fits.1
    | some i => exact absurd ⟨i, (knows i).2.mpr mine⟩ nobody

/-- Thread 0 fails to lock while thread 1 reads, and locks after thread 1 has left. -/
def soundSchedule : List (Action (Fin 2) Use) :=
  [.call 1 .read, .access 1, .access 1, .call 0 .write, .access 0, .access 0, .access 0,
    .access 1, .access 0, .access 0]

/-- A writer that waited for a reader is alone inside, and the word is `-1`. -/
theorem rwlock_exclusive_sound_schedule :
    ∃ p : Pool (Fin 2) Pc Int Empty,
      Reach code (fun p a => readCasSound p a) (Pool.fresh rwlockInit) p ∧
      p.thread 0 = some .writing ∧ Exclusive p ∧ WordCounts p := by
  obtain ⟨p, reach, writing⟩ := Pool.exec_reaches code readCasSound (Pool.fresh rwlockInit)
    soundSchedule (fun p => p.thread 0 = some .writing) (by decide)
  exact ⟨p, reach, writing, rwlock_exclusive_of_sound p reach⟩

/-- A writer is inside when thread 1 loads the word, and thread 1 swaps `-1` for `0`. -/
def brokenSchedule : List (Action (Fin 2) Use) :=
  [.call 0 .write, .access 0, .access 0, .call 1 .read, .access 1, .access 1, .access 1]

/-- Over all interleavings the lock neither excludes nor counts: the busy branch of
`dmm_read_lock` falls into the compare-and-swap with the value `-1` it has just read. -/
theorem rwlock_not_exclusive :
    ¬ ∀ p : Pool (Fin 2) Pc Int Empty,
      Reach code (fun p a => anyAction p a) (Pool.fresh rwlockInit) p →
      Exclusive p ∧ WordCounts p := by
  intro excludes
  obtain ⟨p, reach, writing, reading⟩ := Pool.exec_reaches code anyAction (Pool.fresh rwlockInit)
    brokenSchedule (fun p => p.thread 0 = some .writing ∧ p.thread 1 = some .reading) (by decide)
  have together : (1 : Fin 2) = 0 := (excludes p reach).1 0 1 writing (.inl reading)
  exact absurd together (by decide)

end Dmm.Rwlock
