import Dmm.Lib.Machine

/-!
# Closing a descriptor that is in use

`nstack_socket.h` brackets every operation on a descriptor by `INC_FD_REF` and an
`UNLOCK_*`: the first counts the operation in `fd_ref` and turns it away unless the status
is `FD_OPEN`, the second takes it out again and calls `release_fd` when the count has
reached zero. `nstack_close` moves the status to `FD_CLOSING` under `close_lock`, gives the
reference of the open back, and calls `release_fd` when nothing is left; `release_fd`
releases the descriptor under `close_lock` if the status still is `FD_CLOSING` and the
count is not positive.

Every atomic increment, decrement and load and every section under `close_lock` is one
step here. The count is an `Int`: `ref_range` bounds it by the number of threads, so that
the `int` of the source does not wrap.
-/

namespace Dmm.FdClose

open Dmm.Machine

/-- `FD_STATUS` -/
inductive FdStatus
  | close
  | «open»
  | closing
  deriving DecidableEq, Repr

/-- `nstack_fd_local_lock_info_t`; `close_lock` is in the atomicity of the steps. -/
structure LocalLock where
  fdRef : Int
  fdStatus : FdStatus
  deriving DecidableEq, Repr

/-- `nstack_reset_fd_local_lock_info` -/
def resetFdLocalLockInfo : LocalLock := ⟨0, .close⟩

/-- `set_fd_status` -/
def setFdStatus (lock : LocalLock) (status : FdStatus) : LocalLock :=
  ⟨if status = .open then lock.fdRef + 1 else lock.fdRef, status⟩

/-- A descriptor after the open of a reset one. -/
def opened : LocalLock := setFdStatus resetFdLocalLockInfo .open

/-- What a thread calls: an operation, or `nstack_close`. -/
inductive Call
  | operate
  | close
  deriving DecidableEq, Repr

/-- How a call ends. -/
inductive Result
  /-- `-1` with `EBADF`: the status was not `FD_OPEN`. -/
  | badf
  /-- `nstack_close` found no valid descriptor and left it to the kernel. -/
  | kernel
  /-- The operation ran and returned what it returns. -/
  | served
  /-- `nstack_close` returned with the release left to somebody else. -/
  | deferred
  /-- `nstack_close` released the descriptor itself. -/
  | released
  deriving DecidableEq, Repr

/-- Where a thread stands, by the access it performs next. -/
inductive Pc
  | inc
  | check
  | refuse
  /-- The operation; its last access is the `atomic_dec` of `UNLOCK_*`. -/
  | operating
  /-- `release_fd`, with the result of the call to return afterwards. -/
  | release (result : Result)
  /-- The load of `fd_status` in `nstack_getValidInf`. -/
  | getValidInf
  /-- The section of `nstack_close` under `close_lock`. -/
  | closeSection
  | closeDec
  | closeRelease
  deriving DecidableEq, Repr

/-- `release_fd` goes on to the release: the status is `FD_CLOSING` and nobody holds a
reference. -/
def LocalLock.Releasable (lock : LocalLock) : Prop :=
  ¬ (lock.fdStatus ≠ .closing ∨ lock.fdRef > 0)

instance (lock : LocalLock) : Decidable lock.Releasable := inferInstanceAs (Decidable (¬ _))

/-- The section of `release_fd` under `close_lock`: the release stores `FD_CLOSE`, and
`nstack_fd_free_with_kernel` resets the count and the status. -/
def releaseFd (lock : LocalLock) : LocalLock :=
  if lock.Releasable then resetFdLocalLockInfo else lock

/-- One access. -/
def step : Pc → LocalLock → (Pc ⊕ Result) × LocalLock
  | .inc, lock => (.inl .check, { lock with fdRef := lock.fdRef + 1 })
  | .check, lock => (.inl (if lock.fdStatus ≠ .open then .refuse else .operating), lock)
  | .refuse, lock =>
    (if lock.fdRef - 1 = 0 then .inl (.release .badf) else .inr .badf,
      { lock with fdRef := lock.fdRef - 1 })
  | .operating, lock =>
    (if lock.fdRef - 1 = 0 then .inl (.release .served) else .inr .served,
      { lock with fdRef := lock.fdRef - 1 })
  | .release result, lock => (.inr result, releaseFd lock)
  | .getValidInf, lock =>
    (if lock.fdStatus ≠ .open then .inr .kernel else .inl .closeSection, lock)
  | .closeSection, lock =>
    if lock.fdStatus ≠ .open then (.inr .badf, lock)
    else (.inl .closeDec, setFdStatus lock .closing)
  | .closeDec, lock =>
    (if lock.fdRef - 1 > 0 then .inr .deferred else .inl .closeRelease,
      { lock with fdRef := lock.fdRef - 1 })
  | .closeRelease, lock =>
    (.inr (if lock.Releasable then .released else .deferred), releaseFd lock)

/-- What the accesses of interest are logged as. -/
inductive Event
  | closeCalled
  /-- An `nstack_close` call has passed the check for `FD_OPEN`. -/
  | closePassed
  /-- The release part of `release_fd` has been executed. -/
  | released
  deriving DecidableEq, Repr

/-- The events of one access. -/
def event : Pc → LocalLock → Option Event
  | .getValidInf, _ => some .closeCalled
  | .closeSection, lock => if lock.fdStatus ≠ .open then none else some .closePassed
  | .release _, lock => if lock.Releasable then some .released else none
  | .closeRelease, lock => if lock.Releasable then some .released else none
  | _, _ => none

/-- The code of a thread. -/
def code : Code Call Pc LocalLock Result Event where
  start
    | .operate => .inc
    | .close => .getValidInf
  step := step
  event := event

/-- The threads and the descriptor they share. -/
abbrev Threads (ι : Type) := Pool ι Pc LocalLock Event

/-- A thread that passed a check for `FD_OPEN` and has not decremented the count yet. -/
def Pc.Holds (pc : Pc) : Prop := pc = .operating ∨ pc = .closeDec

/-- Threads counted by `INC_FD_REF` that have not passed its check. -/
@[simp]
def Pc.checking : Pc → Nat
  | .check | .refuse => 1
  | _ => 0

/-- Threads that passed a check for `FD_OPEN` and hold a reference: their own, or the one of
the open, which passes to the `nstack_close` that passed. -/
@[simp]
def Pc.passed : Pc → Nat
  | .operating | .closeDec => 1
  | _ => 0

/-- Threads about to enter `release_fd`. -/
@[simp]
def Pc.releasing : Pc → Nat
  | .release _ | .closeRelease => 1
  | _ => 0

/-- Threads about to enter the section of `nstack_close`. -/
@[simp]
def Pc.closing : Pc → Nat
  | .closeSection => 1
  | _ => 0

/-- How many threads stand where. -/
structure Census where
  /-- Threads that hold a reference and have not passed a check. -/
  checking : Nat
  /-- Threads that hold a reference behind a passed check. -/
  passed : Nat
  releasing : Nat
  /-- Threads about to enter the section of `nstack_close`. -/
  closing : Nat

variable {ι : Type} [DecidableEq ι]

/-- The census of a pool. -/
noncomputable def census (thread : ι → Option Pc) : Census :=
  ⟨tally Pc.checking thread, tally Pc.passed thread, tally Pc.releasing thread,
    tally Pc.closing thread⟩

/-- What the descriptor, the log and the census have to do with each other between any two
accesses. -/
structure Accounts (lock : LocalLock) (log : List Event) (c : Census) : Prop where
  counted : lock.fdRef =
    c.checking + c.passed + if lock.fdStatus = .open then 1 else 0
  passes : log.count .closePassed = if lock.fdStatus = .open then 0 else 1
  releases : log.count .released = if lock.fdStatus = .close then 1 else 0
  free : lock.fdStatus = .close → c.passed = 0
  pending : lock.fdStatus = .closing → 0 < c.checking + c.passed + c.releasing
  called : lock.fdStatus = .open → .closeCalled ∈ log → 0 < c.closing

/-- A thread leaves one place for another, or ends its call. -/
structure Moves (l : Pc) (next : Option Pc) (c c' : Census) : Prop where
  checking : c'.checking + l.checking = c.checking + next.elim 0 Pc.checking
  passed : c'.passed + l.passed = c.passed + next.elim 0 Pc.passed
  releasing : c'.releasing + l.releasing = c.releasing + next.elim 0 Pc.releasing
  closing : c'.closing + l.closing = c.closing + next.elim 0 Pc.closing

/-- A reference is given back, and whoever takes the count to zero goes on to
`release_fd`. -/
theorem Accounts.dec {lock : LocalLock} {log : List Event} {c c' : Census}
    (accounts : Accounts lock log c)
    (held : c'.checking + c'.passed + 1 = c.checking + c.passed)
    (passed : c'.passed ≤ c.passed) (closing : c'.closing = c.closing)
    (releasing : lock.fdRef - 1 = 0 → 0 < c'.releasing) :
    Accounts { lock with fdRef := lock.fdRef - 1 } log c' where
  counted := by
    have counted := accounts.counted
    show lock.fdRef - 1 = _
    simp only
    omega
  passes := accounts.passes
  releases := accounts.releases
  free closed := by
    have free := accounts.free closed
    omega
  pending leaving := by
    have counted := accounts.counted
    rw [if_neg (by simp_all)] at counted
    by_cases last : lock.fdRef - 1 = 0
    · have entering := releasing last
      omega
    · omega
  called := by
    rw [closing]
    exact accounts.called

/-- `release_fd` releases only with no reference left, and leaves otherwise. -/
theorem Accounts.releaseFd {lock : LocalLock} {log : List Event} {c c' : Census}
    (accounts : Accounts lock log c) (checking : c'.checking = c.checking)
    (passed : c'.passed = c.passed) (closing : c'.closing = c.closing) :
    Accounts (releaseFd lock)
      (log ++ (if lock.Releasable then some Event.released else none).toList) c' := by
  have counted := accounts.counted
  by_cases frees : lock.Releasable
  · have leaving : lock.fdStatus = .closing ∧ lock.fdRef ≤ 0 := by
      simpa [LocalLock.Releasable] using frees
    have passes := accounts.passes
    have releases := accounts.releases
    simp only [leaving.1, reduceCtorEq, if_false] at counted passes releases
    constructor <;> simp [FdClose.releaseFd, frees, resetFdLocalLockInfo, passes, releases]
    all_goals omega
  · have stays : lock.fdStatus = .closing → 0 < lock.fdRef := by
      simpa [LocalLock.Releasable] using frees
    simp only [FdClose.releaseFd, frees, if_false, Option.toList_none, List.append_nil]
    refine ⟨by rw [checking, passed]; exact counted, accounts.passes, accounts.releases,
      by rw [passed]; exact accounts.free, ?_, by rw [closing]; exact accounts.called⟩
    intro leaving
    have positive := stays leaving
    simp only [leaving, reduceCtorEq, if_false] at counted
    omega

/-- One access keeps the accounts. -/
theorem Accounts.step {lock : LocalLock} {log : List Event} {c c' : Census} {l : Pc}
    (accounts : Accounts lock log c) (moves : Moves l (step l lock).1.getLeft? c c') :
    Accounts (FdClose.step l lock).2 (log ++ (event l lock).toList) c' := by
  obtain ⟨checking, passed, releasing, closing⟩ := moves
  obtain ⟨counted, passes, releases, free, pending, called⟩ := id accounts
  cases l with
  | inc =>
    simp [FdClose.step] at checking passed releasing closing
    constructor <;> simp_all [FdClose.step, event]
    omega
  | check =>
    by_cases isOpen : lock.fdStatus = .open
    all_goals
      simp [FdClose.step, isOpen] at checking passed releasing closing
      constructor <;> simp_all [FdClose.step, event]
    omega
  | refuse =>
    by_cases last : lock.fdRef - 1 = 0
    all_goals
      simp [FdClose.step, last] at checking passed releasing closing
      simpa [FdClose.step, event] using accounts.dec (by omega) (by omega) closing (by omega)
  | operating =>
    by_cases last : lock.fdRef - 1 = 0
    all_goals
      simp [FdClose.step, last] at checking passed releasing closing
      simpa [FdClose.step, event] using accounts.dec (by omega) (by omega) closing (by omega)
  | release result => exact accounts.releaseFd checking passed closing
  | getValidInf =>
    by_cases isOpen : lock.fdStatus = .open
    all_goals
      simp [FdClose.step, isOpen] at checking passed releasing closing
      constructor <;> simp_all [FdClose.step, event]
  | closeSection =>
    by_cases isOpen : lock.fdStatus = .open
    all_goals
      simp [FdClose.step, isOpen] at checking passed releasing closing
      constructor <;> simp_all [FdClose.step, event, setFdStatus]
    omega
  | closeDec =>
    by_cases others : 1 < lock.fdRef
    all_goals
      simp [FdClose.step, others] at checking passed releasing closing
      simpa [FdClose.step, event] using accounts.dec (by omega) (by omega) closing (by omega)
  | closeRelease => exact accounts.releaseFd checking passed closing

/-- The accounts hold in a pool that finitely many threads are inside a call of. -/
structure Inv (p : Threads ι) : Prop where
  busy : {i | p.thread i ≠ none}.Finite
  accounts : Accounts p.shared p.log (census p.thread)

omit [DecidableEq ι] in
theorem inv_opened : Inv (Pool.fresh opened : Threads ι) := by
  have quiet : (Pool.fresh opened : Threads ι).Quiet := fun _ => rfl
  refine ⟨by simp [Pool.fresh], ?_⟩
  simp only [census, quiet.tally_eq]
  constructor <;> simp [Pool.fresh, opened, setFdStatus, resetFdLocalLockInfo]

theorem census_update {thread : ι → Option Pc} (busy : {i | thread i ≠ none}.Finite) {i : ι}
    {l : Pc} (inside : thread i = some l) (next : Option Pc) :
    Moves l next (census thread) (census (Function.update thread i next)) := by
  have moved (w : Pc → Nat) : tally w (Function.update thread i next) + w l =
      tally w thread + next.elim 0 w := by
    simpa [inside] using tally_update w busy i next
  exact ⟨moved _, moved _, moved _, moved _⟩

theorem census_call {thread : ι → Option Pc} (busy : {i | thread i ≠ none}.Finite) {i : ι}
    (idle : thread i = none) (c : Call) :
    census (Function.update thread i (some (code.start c))) = census thread := by
  have same (w : Pc → Nat) (start : w (code.start c) = 0) :
      tally w (Function.update thread i (some (code.start c))) = tally w thread := by
    simpa [idle, start] using tally_update w busy i (some (code.start c))
  unfold census
  rw [same _ (by cases c <;> rfl), same _ (by cases c <;> rfl), same _ (by cases c <;> rfl),
    same _ (by cases c <;> rfl)]

theorem Inv.act {p p' : Threads ι} (inv : Inv p) {a : Action ι Call}
    (acted : p.act code a = some p') : Inv p' := by
  refine ⟨Pool.act_busy inv.busy acted, ?_⟩
  obtain ⟨i, c, rfl, idle, rfl⟩ | ⟨i, l, rfl, inside, rfl⟩ := Pool.act_cases acted
  · show Accounts p.shared p.log (census (Function.update p.thread i (some (code.start c))))
    rw [census_call inv.busy idle c]
    exact inv.accounts
  · exact inv.accounts.step (census_update inv.busy inside _)

theorem reach_inv {p : Threads ι}
    (reach : Reach code (fun p a => anyAction p a) (Pool.fresh opened) p) : Inv p :=
  reach.invariant inv_opened fun _ _ _ inv _ acted => inv.act acted

/-- The accesses a call has at most still to perform. -/
def Pc.rank : Pc → Nat
  | .inc | .getValidInf => 3
  | .check | .closeSection => 2
  | .refuse | .operating | .closeDec => 1
  | .release _ | .closeRelease => 0

theorem step_rank (l : Pc) (lock : LocalLock) (l' : Pc) (next : (step l lock).1 = .inl l') :
    l'.rank < l.rank := by
  cases l <;> grind [step, Pc.rank]

omit [DecidableEq ι] in
/-- What closing a descriptor under use has to guarantee. -/
structure ClosedOnce (p : Threads ι) : Prop where
  passed_le : p.log.count .closePassed ≤ 1
  passed_eq : .closeCalled ∈ p.log → (∀ i, p.thread i ≠ some .closeSection) →
    p.log.count .closePassed = 1
  released_le : p.log.count .released ≤ 1
  released_free : .released ∈ p.log → ∀ i pc, p.thread i = some pc → ¬ pc.Holds
  finishes : ∃ q, Reach code (fun p a => accessOnly p a) p q ∧ q.Quiet
  finished : p.Quiet → .closeCalled ∈ p.log → p.log.count .released = 1 ∧
    p.shared.fdRef = 0 ∧ setFdStatus p.shared .open = opened

/-- After an open, any number of threads run operations and `nstack_close` in any
interleaving: the descriptor is closed and released once, after its last use. -/
theorem fd_closed_once (p : Threads ι)
    (reach : Reach code (fun p a => anyAction p a) (Pool.fresh opened) p) : ClosedOnce p := by
  have inv := reach_inv reach
  obtain ⟨counted, passes, releases, free, pending, called⟩ := inv.accounts
  refine ⟨?_, ?_, ?_, ?_, Pool.finishes Pc.rank step_rank p inv.busy, ?_⟩
  · split at passes <;> omega
  · intro begun noneBefore
    have nobody : (census p.thread).closing = 0 := by
      apply tally_eq_zero
      intro i pc inside
      cases pc <;> first | rfl | exact absurd inside (noneBefore i)
    have left : p.shared.fdStatus ≠ .open := fun isOpen => by
      simpa [nobody] using called isOpen begun
    rwa [if_neg left] at passes
  · split at releases <;> omega
  · intro released i pc inside holds
    have closed : p.shared.fdStatus = .close := by
      by_contra other
      rw [if_neg other] at releases
      exact absurd released (List.count_eq_zero.mp releases)
    have passed : pc.passed ≤ (census p.thread).passed := le_tally Pc.passed inv.busy inside
    rw [free closed] at passed
    obtain rfl | rfl := holds <;> simp at passed
  · intro quiet begun
    simp only [census, quiet.tally_eq] at counted pending called
    cases status : p.shared.fdStatus with
    | «open» => exact absurd (called status begun) (lt_irrefl 0)
    | closing => exact absurd (pending status) (lt_irrefl 0)
    | close =>
      simp only [status, reduceCtorEq, if_false, if_true] at counted releases
      refine ⟨releases, by simpa using counted, ?_⟩
      simp [setFdStatus, opened, resetFdLocalLockInfo, counted]

/-- Thread 0 is inside an operation when thread 1 closes, thread 2 is turned away with its
count still in when thread 0 leaves, and a second `nstack_close` of thread 1 comes last. -/
def closeSchedule : List (Action (Fin 3) Call) :=
  [.call 0 .operate, .access 0, .access 0, .call 1 .close, .access 1, .access 1,
    .call 2 .operate, .access 2, .access 1, .access 0, .access 2, .access 2, .access 2,
    .call 1 .close, .access 1]

/-- In that run the refused operation is the one that releases the descriptor. -/
theorem fd_closed_once_by_refused :
    ∃ p : Threads (Fin 3), Reach code (fun p a => anyAction p a) (Pool.fresh opened) p ∧
      p.log = [.closeCalled, .closePassed, .released, .closeCalled] ∧ p.Quiet ∧
      ClosedOnce p := by
  obtain ⟨p, reach, log, quiet⟩ := Pool.exec_reaches code anyAction
    (Pool.fresh opened : Threads (Fin 3)) closeSchedule
    (fun p => p.log = [.closeCalled, .closePassed, .released, .closeCalled] ∧
      ∀ i, p.thread i = none) (by decide +kernel)
  exact ⟨p, reach, log, quiet, fd_closed_once p reach⟩

end Dmm.FdClose
