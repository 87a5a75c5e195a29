import Mathlib

/-!
# Detecting processes that have exited

`nsfw_ps_rechk_pid_exit` lists `/proc`, marks what it finds in an array of one byte for each
pid, and calls a function for every recorded pid whose byte is still clear. With
`nsfw_recycle_exit_pid_lock` as that function, which is what `nsfw_recycle_rechk_lock`
passes, the locks of these processes are released.

The marking loop stores at `ps_pid[ulI]`, and `ulI` is the counter of the loop after it: it
is zero all the way through, whatever pid was read.
-/

namespace Dmm.Ps

/-- `NSFW_MAX_PID` -/
def maxPid : Nat := 65535

/-- `NSFW_PROC_NULL` -/
def procNull : Nat := 0

/-- `NSFW_REC_LOCK_REL_MAX_FUN` -/
def recLockRelMaxFun : Nat := 32

/-- What is read of an `nsfw_pid_item`. -/
structure PidItem where
  procType : Nat
  recorded : Bool
  deriving DecidableEq, Repr

/-! ## The directory -/

/-- `filter`: the pattern `[1-9]*`. -/
def filter (name : List Char) : Bool :=
  match name with
  | [] => false
  | c :: _ => decide ('1' ≤ c) && decide (c ≤ '9')

/-- The number in front of a name, and `LONG_MAX` for one that does not fit: what `strtol` makes
of a name that begins with a digit. -/
def strtol (name : List Char) : Nat :=
  min (2 ^ 63 - 1) <|
    (name.takeWhile Char.isDigit).foldl (fun value c => 10 * value + (c.toNat - '0'.toNat)) 0

/-- `host_pid`, the low 32 bits of the number. -/
def hostPid (name : List Char) : Nat := strtol name % 2 ^ 32

/-- A process is in `/proc` under its pid in decimal. -/
def Present (names : List (List Char)) (pid : Nat) : Prop := Nat.toDigits 10 pid ∈ names

instance (names : List (List Char)) (pid : Nat) : Decidable (Present names pid) :=
  inferInstanceAs (Decidable (_ ∈ names))

/-! ## The check -/

/-- The loop of `nsfw_ps_rechk_pid_exit` over the names, last one first. -/
def markPids (ulI : Nat) (psPid : Nat → Bool) (namelist : List (List Char)) : Nat → Bool :=
  namelist.reverse.foldl
    (fun psPid name => if hostPid name < maxPid then Function.update psPid ulI true else psPid)
    psPid

/-- The loop over the table, `n` pids from its end, with `count`. -/
def callExited {σ : Type*} (call : Nat → Nat → σ → σ) (table : Nat → PidItem)
    (psPid : Nat → Bool) : Nat → Int → σ → Int × σ
  | 0, count, s => (count, s)
  | n + 1, count, s =>
    let ulI := maxPid - (n + 1)
    if (table ulI).recorded && !psPid ulI then
      callExited call table psPid n (count + 1) (call ulI (table ulI).procType s)
    else callExited call table psPid n count s

/-- `nsfw_ps_rechk_pid_exit` with a function: `ps_pid` is allocated or not, and `scandir` fails
or finds some names in `/proc`. -/
def rechkPidExit {σ : Type*} (call : Nat → Nat → σ → σ) (table : Nat → PidItem)
    (allocated : Bool) (proc : Option (List (List Char))) (s : σ) : Int × σ :=
  if !allocated then (-1, s) else
  match proc with
  | none => (-1, s)
  | some names =>
    let psPid := markPids 0 (fun _ => false) (names.filter filter)
    callExited call table psPid maxPid 0 s

/-! ## Releasing locks -/

/-- `nsfw_rec_fun_info` of a registered function. -/
structure RecFunInfo (φ δ : Type) where
  recFun : φ
  data : δ
  procType : Nat
  deriving DecidableEq, Repr

/-- `g_rec_lock_fun`; a slot without a function is empty. -/
structure RecLockFun (φ δ : Type) where
  slots : List (Option (RecFunInfo φ δ))
  /-- There are `NSFW_REC_LOCK_REL_MAX_FUN` of them. -/
  size : slots.length = recLockRelMaxFun

/-- One call of a lock release function. -/
structure Release (φ δ : Type) where
  recFun : φ
  pid : Nat
  data : δ
  deriving DecidableEq, Repr

/-- The loop of `nsfw_recycle_exit_pid_lock`, which an empty slot ends. -/
def releaseFrom {φ δ : Type} (pid procType : Nat) :
    List (Option (RecFunInfo φ δ)) → List (Release φ δ)
  | [] | none :: _ => []
  | some info :: rest =>
    if info.procType = procNull ∨ procType = info.procType then
      ⟨info.recFun, pid, info.data⟩ :: releaseFrom pid procType rest
    else releaseFrom pid procType rest

/-- `nsfw_recycle_exit_pid_lock`, adding its calls to those made before. -/
def recycleExitPidLock {φ δ : Type} (funs : RecLockFun φ δ) (pid procType : Nat)
    (released : List (Release φ δ)) : List (Release φ δ) :=
  released ++ releaseFrom pid procType funs.slots

/-- `nsfw_recycle_rechk_lock` -/
def recycleRechkLock {φ δ : Type} (funs : RecLockFun φ δ) (table : Nat → PidItem)
    (allocated : Bool) (proc : Option (List (List Char))) : Int × List (Release φ δ) :=
  rechkPidExit (recycleExitPidLock funs) table allocated proc []

/-! ## What is called -/

/-- A call that notes its arguments. -/
def noteCall (pid procType : Nat) (calls : List (Nat × Nat)) : List (Nat × Nat) :=
  calls ++ [(pid, procType)]

/-- The pids the second loop calls its function for, `n` pids from its end. -/
def exited (table : Nat → PidItem) (psPid : Nat → Bool) (n : Nat) : List Nat :=
  (List.range' (maxPid - n) n).filter fun pid => (table pid).recorded && !psPid pid

theorem exited_succ (table : Nat → PidItem) (psPid : Nat → Bool) {n : Nat} (inside : n < maxPid) :
    exited table psPid (n + 1) =
      (if (table (maxPid - (n + 1))).recorded && !psPid (maxPid - (n + 1)) then
        [maxPid - (n + 1)] else []) ++ exited table psPid n := by
  have next : maxPid - (n + 1) + 1 = maxPid - n := by omega
  rw [exited, List.range'_succ, next, List.filter_cons]
  split <;> rfl

/-- The loop calls its function for these pids in turn and counts them. -/
theorem callExited_eq {σ : Type*} (call : Nat → Nat → σ → σ) (table : Nat → PidItem)
    (psPid : Nat → Bool) {n : Nat} (inside : n ≤ maxPid) (count : Int) (s : σ) :
    callExited call table psPid n count s =
      (count + (exited table psPid n).length,
        (exited table psPid n).foldl (fun s pid => call pid (table pid).procType s) s) := by
  induction n generalizing count s with
  | zero => simp [callExited, exited]
  | succ n ih =>
    rw [callExited, exited_succ table psPid inside]
    split
    · rw [ih (by omega)]
      simp only [List.cons_append, List.nil_append, List.length_cons, List.foldl_cons]
      congr 1
      omega
    · rw [ih (by omega), List.nil_append]

/-- Marking touches one byte, and sets it when a small pid is listed. -/
theorem markPids_apply (ulI : Nat) (names : List (List Char)) (pid : Nat) :
    markPids ulI (fun _ => false) names pid = true ↔
      pid = ulI ∧ ∃ name ∈ names, hostPid name < maxPid := by
  rw [markPids, List.foldl_reverse]
  induction names with
  | nil => simp
  | cons name rest ih =>
    rw [List.foldr_cons]
    by_cases small : hostPid name < maxPid
    · rw [if_pos small]
      by_cases here : pid = ulI
      · subst here
        simp [small]
      · rw [Function.update_of_ne here, ih]
        simp [here]
    · rw [if_neg small, ih]
      simp [small]

/-- A name of `/proc` that passes the filter and reads as a pid of the table. -/
def ListsSmall (names : List (List Char)) : Prop :=
  ∃ name ∈ names, filter name = true ∧ hostPid name < maxPid

theorem mem_exited (table : Nat → PidItem) (names : List (List Char)) (pid : Nat) :
    pid ∈ exited table (markPids 0 (fun _ => false) (names.filter filter)) maxPid ↔
      pid < maxPid ∧ (table pid).recorded = true ∧ ¬ (pid = 0 ∧ ListsSmall names) := by
  have marked := markPids_apply 0 (names.filter filter) pid
  have lists : (∃ name ∈ names.filter filter, hostPid name < maxPid) ↔ ListsSmall names := by
    simp [ListsSmall, and_assoc]
  rw [lists] at marked
  rw [exited, List.mem_filter, List.mem_range', ← marked]
  simp

/-- The whole check: what is called, in ascending order, and how many. -/
theorem rechkPidExit_eq {σ : Type*} (call : Nat → Nat → σ → σ) (table : Nat → PidItem)
    (names : List (List Char)) (s : σ) :
    let pids := exited table (markPids 0 (fun _ => false) (names.filter filter)) maxPid
    rechkPidExit call table true (some names) s =
      ((pids.length : Int), pids.foldl (fun s pid => call pid (table pid).procType s) s) := by
  intro pids
  have loop := callExited_eq call table (markPids 0 (fun _ => false) (names.filter filter))
    (Nat.le_refl maxPid) 0 s
  rw [Int.zero_add] at loop
  simp only [rechkPidExit, Bool.not_true, Bool.false_eq_true, if_false]
  exact loop

theorem foldl_noteCall (table : Nat → PidItem) (pids : List Nat) (calls : List (Nat × Nat)) :
    pids.foldl (fun calls pid => noteCall pid (table pid).procType calls) calls =
      calls ++ pids.map fun pid => (pid, (table pid).procType) := by
  induction pids generalizing calls with
  | nil => simp
  | cons pid rest ih => rw [List.foldl_cons, ih]; simp [noteCall]

theorem foldl_recycleExitPidLock {φ δ : Type} (funs : RecLockFun φ δ) (table : Nat → PidItem)
    (pids : List Nat) (released : List (Release φ δ)) :
    pids.foldl (fun released pid => recycleExitPidLock funs pid (table pid).procType released)
        released =
      released ++ pids.flatMap fun pid => releaseFrom pid (table pid).procType funs.slots := by
  induction pids generalizing released with
  | nil => simp
  | cons pid rest ih => rw [List.foldl_cons, ih]; simp [recycleExitPidLock]

/-- A release is for the process it was asked for. -/
theorem pid_of_mem_releaseFrom {φ δ : Type} {pid procType : Nat}
    {slots : List (Option (RecFunInfo φ δ))} {release : Release φ δ}
    (mem : release ∈ releaseFrom pid procType slots) : release.pid = pid := by
  induction slots with
  | nil => simp [releaseFrom] at mem
  | cons slot rest ih =>
    cases slot with
    | none => simp [releaseFrom] at mem
    | some info =>
      rw [releaseFrom] at mem
      split at mem
      · cases List.mem_cons.mp mem with
        | inl here => rw [here]
        | inr later => exact ih later
      · exact ih mem

/-! ## Exactness -/

/-- The pids whose processes have exited are called for, with their types, once each, and they
are what is counted. -/
structure Exact (table : Nat → PidItem) (names : List (List Char))
    (result : Int × List (Nat × Nat)) : Prop where
  called : ∀ pid procType, (pid, procType) ∈ result.2 ↔
    pid < maxPid ∧ (table pid).recorded = true ∧ ¬ Present names pid ∧
      procType = (table pid).procType
  once : (result.2.map Prod.fst).Nodup
  counted : result.1 = result.2.length

/-- No lock of a process that is in `/proc` is released. -/
def SparesRunning {φ δ : Type} (names : List (List Char)) (released : List (Release φ δ)) :
    Prop :=
  ∀ release ∈ released, ¬ Present names release.pid

/-- When the check is exact: no recorded process runs, but for pid 0, which has to run if and
only if a pid of the table is listed. -/
def Meets (table : Nat → PidItem) (names : List (List Char)) : Prop :=
  ∀ pid < maxPid, (table pid).recorded = true →
    (Present names pid ↔ pid = 0 ∧ ListsSmall names)

theorem calls_eq (table : Nat → PidItem) (names : List (List Char)) :
    rechkPidExit noteCall table true (some names) [] =
      (((exited table (markPids 0 (fun _ => false) (names.filter filter)) maxPid).length : Int),
        (exited table (markPids 0 (fun _ => false) (names.filter filter)) maxPid).map
          fun pid => (pid, (table pid).procType)) := by
  rw [rechkPidExit_eq, foldl_noteCall, List.nil_append]

/-- The check is exact for these tables and directories, and for no others. -/
theorem exact_iff (table : Nat → PidItem) (names : List (List Char)) :
    Exact table names (rechkPidExit noteCall table true (some names) []) ↔
      Meets table names := by
  rw [calls_eq]
  constructor
  · intro exact pid small recorded
    have called := exact.called pid (table pid).procType
    simp only [List.mem_map, Prod.mk.injEq] at called
    have mem := mem_exited table names pid
    have reached : (∃ other, other ∈ exited table
        (markPids 0 (fun _ => false) (names.filter filter)) maxPid ∧ other = pid ∧
        (table other).procType = (table pid).procType) ↔
        pid ∈ exited table (markPids 0 (fun _ => false) (names.filter filter)) maxPid :=
      ⟨fun ⟨_, listed, same, _⟩ => same ▸ listed, fun listed => ⟨pid, listed, rfl, rfl⟩⟩
    rw [reached, mem] at called
    tauto
  · intro meets
    constructor
    · intro pid procType
      simp only [List.mem_map, Prod.mk.injEq]
      constructor
      · intro ⟨other, listed, same, type⟩
        subst same
        have facts := (mem_exited table names other).mp listed
        have running := meets other facts.1 facts.2.1
        exact ⟨facts.1, facts.2.1, fun present => facts.2.2 (running.mp present), type.symm⟩
      · intro ⟨small, recorded, gone, type⟩
        have running := meets pid small recorded
        have spared : ¬ (pid = 0 ∧ ListsSmall names) := fun marked => gone (running.mpr marked)
        exact ⟨pid, (mem_exited table names pid).mpr ⟨small, recorded, spared⟩, rfl, type.symm⟩
    · rw [List.map_map]
      have fst : (Prod.fst ∘ fun pid => (pid, (table pid).procType)) = id := rfl
      rw [fst, List.map_id]
      exact List.Nodup.filter _ List.nodup_range'
    · rw [List.length_map]

/-- An exact check releases no lock of a running process. -/
theorem spares_running {φ δ : Type} (funs : RecLockFun φ δ) {table : Nat → PidItem}
    {names : List (List Char)} (meets : Meets table names) :
    SparesRunning names (recycleRechkLock funs table true (some names)).2 := by
  intro release mem
  rw [recycleRechkLock, rechkPidExit_eq, foldl_recycleExitPidLock, List.nil_append,
    List.mem_flatMap] at mem
  obtain ⟨pid, listed, mem⟩ := mem
  rw [pid_of_mem_releaseFrom mem]
  have facts := (mem_exited table names pid).mp listed
  exact fun present => facts.2.2 ((meets pid facts.1 facts.2.1).mp present)

/-- After a scan of `/proc` the calls are exactly those for exited processes, and the locks of
running processes are left alone, if and only if no recorded process runs, pid 0 apart. -/
theorem exit_detection_exact_iff {φ δ : Type} (funs : RecLockFun φ δ) (table : Nat → PidItem)
    (names : List (List Char)) :
    (Exact table names (rechkPidExit noteCall table true (some names) []) ∧
      SparesRunning names (recycleRechkLock funs table true (some names)).2) ↔
    Meets table names := by
  constructor
  · intro both
    exact (exact_iff table names).mp both.1
  · intro meets
    exact ⟨(exact_iff table names).mpr meets, spares_running funs meets⟩

/-- A table that holds the application with pid 7. -/
def sevenTable (pid : Nat) : PidItem := ⟨3, decide (pid = 7)⟩

/-- One function that releases the locks of all types of processes. -/
def oneLockFun : RecLockFun Unit Unit where
  slots := some ⟨(), (), procNull⟩ :: List.replicate 31 none
  size := by decide

/-- Pid 7 is in `/proc` and its locks are released. -/
theorem running_process_released :
    Present [['1'], ['7']] 7 ∧
      (7, 3) ∈ (rechkPidExit noteCall sevenTable true (some [['1'], ['7']]) []).2 ∧
      ⟨(), 7, ()⟩ ∈ (recycleRechkLock oneLockFun sevenTable true (some [['1'], ['7']])).2 := by
  have listed := (mem_exited sevenTable [['1'], ['7']] 7).mpr
    ⟨by decide, by decide, fun marked => absurd marked.1 (by decide)⟩
  constructor
  · decide
  · constructor
    · rw [calls_eq]
      exact List.mem_map.mpr ⟨7, listed, rfl⟩
    · rw [recycleRechkLock, rechkPidExit_eq, foldl_recycleExitPidLock, List.nil_append]
      exact List.mem_flatMap.mpr ⟨7, listed, by decide⟩

end Dmm.Ps
