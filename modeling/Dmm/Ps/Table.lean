import Dmm.Lib.Run
import Dmm.Ps.Recheck

/-!
# The table of processes

A process has a record of a pool, `nsfw_ps_info`. Records in use are on the running list, and
`g_ps_info` has for each pid the record of the process. A record is also known to timers.

`Core` is what the table is about: which record is in use for which pid, the index, the list and the
pool. Every function of the module takes a record, gives one back or leaves the core as it is.

The pool has been created, so that `g_main_ps_info` is not used, and the callbacks of a state do not
touch the table. The heartbeat and resend timers of a record are set by callbacks only.
-/

namespace Dmm.Ps

/-! ## The model -/

/-- `nsfw_ps_state` -/
inductive PsState
  | null
  | start
  | running
  | parentFork
  | childFork
  | hbtFailed
  | exiting
  | exit
  deriving DecidableEq, Repr

/-- `nsfw_ps_info`, with the two of its `value` that are used. -/
structure PsInfo where
  allocFlag : Bool := false
  state : PsState := .null
  procType : Nat := 0
  rechkFlg : Bool := false
  hostPid : Nat := 0
  exitTimer : Option Nat := none
  recIdx : Int := 0
  recTimer : Option Nat := none
  deriving DecidableEq

/-- The timers of the modules, with the data they are registered with. -/
inductive Alarm (count : Nat)
  | exiting (r : Fin count)
  | recycle (pid : Nat)
  | chk (reallocFlg : Bool)
  | chkExit (pid : Nat)
  deriving DecidableEq

/-- The records, `g_ps_info`, `g_ps_runing_list`, the pool and the timers that are pending. -/
structure Table (count : Nat) where
  info : Fin count → PsInfo
  item : Nat → Option (Fin count)
  itemType : Nat → Nat
  running : List (Fin count)
  pool : List (Fin count)
  timers : List (Nat × Alarm count)
  nextTimer : Nat

variable {count : Nat}

/-- Write to a record. -/
def Table.modify (s : Table count) (r : Fin count) (f : PsInfo → PsInfo) : Table count :=
  { s with info := Function.update s.info r (f (s.info r)) }

/-- `nsfw_timer_reg_timer` -/
def Table.regTimer (s : Table count) (alarm : Alarm count) : Table count :=
  { s with timers := s.timers ++ [(s.nextTimer, alarm)], nextTimer := s.nextTimer + 1 }

/-- `nsfw_timer_rmv_timer` -/
def Table.rmvTimer (s : Table count) (timer : Option Nat) : Table count :=
  { s with timers := s.timers.filter (some ·.1 ≠ timer) }

/-- `nsfw_ps_info_get` -/
def psInfoGet (s : Table count) (pid : Nat) : Option (Fin count) :=
  if pid < maxPid then s.item pid else none

/-- `nsfw_ps_info_free`. A ring of the size of the pool takes the record, if it is not full. -/
def psInfoFree (s : Table count) (r : Fin count) : Table count :=
  if (s.info r).allocFlag = false then s else
  let pid := (s.info r).hostPid
  let s := (s.rmvTimer (s.info r).exitTimer).modify r fun i =>
    { i with exitTimer := none, allocFlag := false }
  let s := { s with running := s.running.erase r }
  if count ≤ s.pool.length then s else
  let s := { s with pool := s.pool ++ [r] }
  if pid < maxPid then
    { s with item := Function.update s.item pid none,
             itemType := Function.update s.itemType pid 0 }
  else s

/-- `nsfw_sw_ps_state` -/
def swPsState (s : Table count) (r : Fin count) (new : PsState) : Table count :=
  let s := if new ≠ .hbtFailed then s.modify r fun i => { i with state := new } else s
  let s := if new = .exit then psInfoFree s r else s
  if new = .exiting then
    (s.modify r fun i => { i with exitTimer := some s.nextTimer }).regTimer (.exiting r)
  else s

/-- `nsfw_ps_info_alloc` -/
def psInfoAlloc (s : Table count) (pid procType : Nat) : Option (Fin count) × Table count :=
  match s.pool with
  | [] => (none, s)
  | r :: pool =>
    let s := { s with pool := pool, running := s.running ++ [r] }
    let s := s.modify r fun _ => { procType := procType, hostPid := pid, allocFlag := true }
    let s := swPsState s r .running
    (some r, if pid < maxPid then
      { s with item := Function.update s.item pid (some r),
               itemType := Function.update s.itemType pid procType }
      else s)

/-- `nsfw_ps_info_fork_alloc` -/
def psInfoForkAlloc (s : Table count) (parent child : Nat) : Option (Fin count) × Table count :=
  match psInfoGet s parent with
  | none => (none, s)
  | some p =>
    let values := s.info p
    let copy (s : Table count) (r : Fin count) :=
      s.modify r fun i => { i with recIdx := values.recIdx, recTimer := values.recTimer }
    match psInfoGet s child with
    | some r => (some r, copy s r)
    | none =>
      match psInfoAlloc s child values.procType with
      | (none, s) => (none, s)
      | (some r, s) => (some r, copy s r)

/-- `nsfw_ps_exit`, for `MGR_MSG_APP_EXIT_RSP` -/
def psExit (s : Table count) (pid : Nat) : Table count :=
  match psInfoGet s pid with
  | none => s
  | some r => swPsState s r .exit

/-- `nsfw_ps_change_fun`, for `PROC_EVENT_EXIT` -/
def psChangeFun (s : Table count) (pid : Nat) : Table count :=
  match psInfoGet s pid with
  | none => s
  | some r => if (s.info r).state = .exiting then s else swPsState s r .exiting

/-- `nsfw_ps_exiting_timeout` -/
def psExitingTimeout (hbtSwitch : Bool) (s : Table count) (r : Fin count) : Table count :=
  let s := s.modify r fun i => { i with exitTimer := none }
  if hbtSwitch then
    (s.modify r fun i => { i with exitTimer := some s.nextTimer }).regTimer (.exiting r)
  else if (s.info r).state = .exiting then swPsState s r .exit
  else s

/-- `nsfw_ps_realloc_pid` -/
def psReallocPid (reallocFlg : Bool) (s : Table count) (pid : Nat) :
    Option (Fin count) × Table count :=
  match psInfoGet s pid with
  | none => (none, s)
  | some r =>
    let (found, s) := if reallocFlg then psInfoAlloc s pid (s.itemType pid) else (some r, s)
    match found with
    | none => (none, s)
    | some r => (some r, s.modify r fun i => { i with rechkFlg := true })

/-- `NSFW_PROC_MAIN` -/
def procMain : Nat := 1

/-- `nsfw_ps_realloc_all_pid`, with the pid of the main process. -/
def psReallocAllPid (reallocFlg : Bool) (s : Table count) : Nat × Table count :=
  (List.range maxPid).foldl (fun (mainPid, s) pid =>
    match psReallocPid reallocFlg s pid with
    | (none, s) => (mainPid, s)
    | (some r, s) => (if (s.info r).procType = procMain then pid else mainPid, s)) (0, s)

/-- `nsfw_ps_reload_pid`; `none` if `scandir` fails. -/
def psReloadPid (proc : Option (List (List Char))) (s : Table count) : Table count :=
  ((proc.getD []).filter filter).reverse.foldl (fun s name =>
    match psInfoGet s (hostPid name) with
    | none => s
    | some r => s.modify r fun i => { i with rechkFlg := false }) s

/-- `nsfw_ps_chk_timeout` -/
def psChkTimeout (reallocFlg : Bool) (proc : Option (List (List Char))) (s : Table count) :
    Table count :=
  let realloc := psReallocAllPid reallocFlg s
  (psReloadPid proc realloc.2).regTimer (.chkExit realloc.1)

/-- A process that is still to be checked is exiting. -/
def chkExit (s : Table count) (pid : Nat) : Table count :=
  match psInfoGet s pid with
  | none => s
  | some r =>
    if (s.info r).rechkFlg = true ∧ (s.info r).state ≠ .exiting then
      (swPsState s r .exiting).modify r fun i => { i with rechkFlg := false }
    else s

/-- `nsfw_ps_chk_exit_timeout` -/
def psChkExitTimeout (s : Table count) (pid : Nat) : Table count :=
  (List.range maxPid).foldl chkExit (if pid ≠ 0 then chkExit s pid else s)

/-- A call of a function of the table, a message or a periodic check. -/
inductive TableCall (count : Nat)
  | alloc (pid procType : Nat)
  | forkAlloc (parent child : Nat)
  | free (r : Fin count)
  | switch (r : Fin count) (new : PsState)
  | exitNotice (pid : Nat)
  | exitRsp (pid : Nat)
  | exitingTimeout (hbtSwitch : Bool) (r : Fin count)
  | chkTimeout (reallocFlg : Bool) (proc : Option (List (List Char)))
  | chkExitTimeout (pid : Nat)

/-- One call. -/
def TableCall.run (s : Table count) : TableCall count → Table count
  | .alloc pid procType => (psInfoAlloc s pid procType).2
  | .forkAlloc parent child => (psInfoForkAlloc s parent child).2
  | .free r => psInfoFree s r
  | .switch r new => swPsState s r new
  | .exitNotice pid => psChangeFun s pid
  | .exitRsp pid => psExit s pid
  | .exitingTimeout hbtSwitch r => psExitingTimeout hbtSwitch s r
  | .chkTimeout reallocFlg proc => psChkTimeout reallocFlg proc s
  | .chkExitTimeout pid => psChkExitTimeout s pid

/-- One call, as an action. -/
def tableAct (s : Table count) (call : TableCall count) : Option (Table count) := some (call.run s)

/-- The table after the initialisation: all records are in the pool. -/
def tableStart (count : Nat) : Table count :=
  ⟨fun _ => {}, fun _ => none, fun _ => 0, [], List.finRange count, [], 0⟩

/-! ## Records in use -/

/-- Which record is in use for which pid, the index, the list and the pool. -/
structure Core (count : Nat) where
  owner : Fin count → Option Nat
  item : Nat → Option (Fin count)
  running : List (Fin count)
  pool : List (Fin count)

/-- The pid a record is in use for. -/
def PsInfo.owner (i : PsInfo) : Option Nat := if i.allocFlag then some i.hostPid else none

/-- The core of a table. -/
def Table.core (s : Table count) : Core count where
  owner := PsInfo.owner ∘ s.info
  item := s.item
  running := s.running
  pool := s.pool

/-- A record is taken for a pid. -/
def Core.take (c : Core count) (pid : Nat) : Core count :=
  match c.pool with
  | [] => c
  | r :: pool =>
    ⟨Function.update c.owner r (some pid),
      if pid < maxPid then Function.update c.item pid (some r) else c.item, c.running ++ [r], pool⟩

/-- A record is given back. -/
def Core.give (c : Core count) (r : Fin count) : Core count :=
  match c.owner r with
  | none => c
  | some pid =>
    ⟨Function.update c.owner r none,
      if pid < maxPid then Function.update c.item pid none else c.item, c.running.erase r,
      c.pool ++ [r]⟩

/-- The list has the records in use once each, and the pool the others. -/
structure Core.Stocked (c : Core count) : Prop where
  running : c.running.Nodup
  mem_running : ∀ r, r ∈ c.running ↔ c.owner r ≠ none
  pool : c.pool.Nodup
  mem_pool : ∀ r, r ∈ c.pool ↔ c.owner r = none

/-- The index has for each pid the record in use for it, of which there is no other. -/
def Core.Indexed (c : Core count) : Prop :=
  ∀ pid < maxPid, ∀ r, c.item pid = some r ↔ c.owner r = some pid

/-- Two records are in use for one pid. -/
def Core.Doubled (c : Core count) : Prop :=
  ∃ pid < maxPid, ∃ r r', r ≠ r' ∧ c.owner r = some pid ∧ c.owner r' = some pid

variable {s : Table count} {c : Core count} {pid : Nat} {r : Fin count}

theorem Core.Indexed.not_doubled (indexed : c.Indexed) : ¬c.Doubled := by
  rintro ⟨pid, inside, r, r', other, owned, owned'⟩
  have found := (indexed pid inside r).mpr owned
  have found' := (indexed pid inside r').mpr owned'
  exact other (Option.some.inj (found.symm.trans found'))

theorem Core.Stocked.take (stocked : c.Stocked) (pid : Nat) : (c.take pid).Stocked := by
  obtain ⟨running, mem_running, pool, mem_pool⟩ := stocked
  unfold Core.take
  cases taken : c.pool with
  | nil => exact ⟨running, mem_running, pool, mem_pool⟩
  | cons r rest =>
    rw [taken] at pool mem_pool
    obtain ⟨fresh, rest_nodup⟩ := List.nodup_cons.mp pool
    have free : c.owner r = none := (mem_pool r).mp (List.mem_cons_self ..)
    refine ⟨?_, fun q => ?_, rest_nodup, fun q => ?_⟩ <;> dsimp only
    · exact List.nodup_append.mpr ⟨running, List.nodup_singleton r, by grind⟩
    · grind [Function.update_apply]
    · grind [Function.update_apply]

theorem Core.Stocked.give (stocked : c.Stocked) (r : Fin count) : (c.give r).Stocked := by
  obtain ⟨running, mem_running, pool, mem_pool⟩ := stocked
  unfold Core.give
  cases owned : c.owner r with
  | none => exact ⟨running, mem_running, pool, mem_pool⟩
  | some pid =>
    refine ⟨running.erase r, fun q => ?_, ?_, fun q => ?_⟩ <;> dsimp only
    · rw [running.mem_erase_iff]
      grind [Function.update_apply]
    · exact List.nodup_append.mpr ⟨pool, List.nodup_singleton r, by grind⟩
    · grind [Function.update_apply]

theorem Core.Indexed.give (indexed : c.Indexed) (r : Fin count) : (c.give r).Indexed := by
  intro pid inside q
  have before := indexed pid inside q
  have own := indexed pid inside r
  unfold Core.give
  cases owned : c.owner r with
  | none => exact before
  | some old =>
    dsimp only
    grind [Function.update_apply]

/-- Taking a record keeps the index exactly if the pid has none, unless the pool is empty. -/
theorem Core.Indexed.take_iff (indexed : c.Indexed) (stocked : c.Stocked) (pid : Nat) :
    (c.take pid).Indexed ↔ (pid < maxPid → c.item pid = none ∨ c.pool = []) := by
  unfold Core.take
  cases taken : c.pool with
  | nil => simpa using indexed
  | cons r rest =>
    have free : c.owner r = none := (stocked.mem_pool r).mp (taken ▸ List.mem_cons_self ..)
    constructor
    · intro after inside
      refine .inl (Option.eq_none_iff_forall_ne_some.mpr fun q found => ?_)
      have owned := (indexed pid inside q).mp found
      have other : q ≠ r := by
        rintro rfl
        simp [free] at owned
      have still := (after pid inside q).mpr (by simpa [Function.update_of_ne other] using owned)
      simp [inside, other.symm] at still
    · intro absent at_ inside q
      have before := indexed at_ inside q
      dsimp only
      grind [Function.update_apply]

theorem Core.Stocked.take_doubled (stocked : c.Stocked) (inside : pid < maxPid)
    (owned : c.owner r = some pid) (some_ : c.pool ≠ []) : (c.take pid).Doubled := by
  unfold Core.take
  cases taken : c.pool with
  | nil => exact absurd taken some_
  | cons q rest =>
    have free : c.owner q = none := (stocked.mem_pool q).mp (taken ▸ List.mem_cons_self ..)
    refine ⟨pid, inside, r, q, ?_, ?_, by simp⟩ <;> grind [Function.update_apply]

theorem Core.Doubled.take (doubled : c.Doubled) (stocked : c.Stocked) (pid : Nat) :
    (c.take pid).Doubled := by
  obtain ⟨at_, inside, r, r', other, owned, owned'⟩ := doubled
  unfold Core.take
  cases taken : c.pool with
  | nil => exact ⟨at_, inside, r, r', other, owned, owned'⟩
  | cons q rest =>
    have free : c.owner q = none := (stocked.mem_pool q).mp (taken ▸ List.mem_cons_self ..)
    refine ⟨at_, inside, r, r', other, ?_, ?_⟩ <;> grind [Function.update_apply]

/-- A record is taken for a pid that has one, as `nsfw_ps_realloc_pid` does. -/
def Core.realloc (c : Core count) (pid : Nat) : Core count :=
  if pid < maxPid ∧ c.item pid ≠ none then c.take pid else c

/-- Reallocation keeps the list and the pool, and second records for a pid. -/
theorem Core.Stocked.realloc (stocked : c.Stocked) (pids : List Nat) :
    (pids.foldl Core.realloc c).Stocked ∧ (c.Doubled → (pids.foldl Core.realloc c).Doubled) := by
  induction pids generalizing c with
  | nil => exact ⟨stocked, id⟩
  | cons pid pids ih =>
    rw [List.foldl_cons, Core.realloc]
    split_ifs
    · obtain ⟨after, later⟩ := ih (stocked.take pid)
      exact ⟨after, fun doubled => later (doubled.take stocked pid)⟩
    · exact ih stocked

/-- Reallocation keeps the index exactly if there is nothing to reallocate or to take. -/
theorem Core.Indexed.realloc_iff (indexed : c.Indexed) (stocked : c.Stocked) (pids : List Nat) :
    (pids.foldl Core.realloc c).Indexed ↔
      c.pool = [] ∨ ∀ pid ∈ pids, pid < maxPid → c.item pid = none := by
  induction pids with
  | nil => simpa using indexed
  | cons pid pids ih =>
    rw [List.foldl_cons, Core.realloc]
    split_ifs with there
    · obtain ⟨inside, found⟩ := there
      cases empty : c.pool with
      | nil =>
        have same : c.take pid = c := by simp [Core.take, empty]
        simp [same, ih, empty]
      | cons q rest =>
        obtain ⟨r, found⟩ := Option.ne_none_iff_exists'.mp found
        have doubled := stocked.take_doubled inside ((indexed pid inside r).mp found)
          (by simp [empty])
        have after := ((stocked.take pid).realloc pids).2 doubled
        refine iff_of_false (fun indexed => indexed.not_doubled after) ?_
        simp [inside, found]
    · rw [ih]
      simp only [List.forall_mem_cons]
      tauto

/-! ## What the functions do to the core -/

@[simp] theorem core_modify (f : PsInfo → PsInfo) (s : Table count) (r : Fin count) :
    (s.modify r f).core =
      { s.core with owner := Function.update s.core.owner r (f (s.info r)).owner } := by
  simp only [Table.core, Table.modify, Function.comp_update]

theorem core_modify_same {f : PsInfo → PsInfo} {r : Fin count}
    (same : (f (s.info r)).owner = (s.info r).owner) : (s.modify r f).core = s.core := by
  rw [core_modify, same]
  exact congrArg (Core.mk · s.item s.running s.pool) (Function.update_eq_self r s.core.owner)

theorem core_regTimer (s : Table count) (alarm : Alarm count) :
    (s.regTimer alarm).core = s.core := rfl

theorem core_psInfoFree (stocked : s.core.Stocked) (r : Fin count) :
    (psInfoFree s r).core = s.core.give r := by
  unfold psInfoFree Core.give
  cases used : (s.info r).allocFlag with
  | false => simp [Table.core, PsInfo.owner, used]
  | true =>
    have owned : s.core.owner r = some (s.info r).hostPid := by
      simp [Table.core, PsInfo.owner, used]
    have room : s.pool.length < count := by
      have absent : r ∉ s.core.pool := by simp [stocked.mem_pool r, owned]
      have nodup : (r :: s.core.pool).Nodup := List.nodup_cons.mpr ⟨absent, stocked.pool⟩
      have within := nodup.length_le_card
      rwa [List.length_cons, Fintype.card_fin] at within
    rw [owned]
    simp only [Bool.true_eq_false, if_false, Table.modify, Table.rmvTimer, Nat.not_le.mpr room]
    split_ifs <;> simp [Table.core, Function.comp_update, PsInfo.owner]

theorem core_waitExit (s : Table count) (r : Fin count) : ((s.modify r fun i => { i with
    exitTimer := some s.nextTimer }).regTimer (.exiting r)).core = s.core :=
  show (s.modify r fun i => { i with exitTimer := some s.nextTimer }).core = s.core from
    core_modify_same rfl

/-- A switch to any other state than `NSFW_PS_EXIT` leaves the core. -/
theorem core_swPsState {new : PsState} (other : new ≠ .exit) (s : Table count) (r : Fin count) :
    (swPsState s r new).core = s.core := by
  have first (s : Table count) : (s.modify r fun i => { i with state := new }).core = s.core :=
    core_modify_same rfl
  unfold swPsState
  dsimp only
  rw [if_neg other]
  split_ifs
  · rw [core_waitExit, first]
  · exact core_waitExit s r
  · exact first s
  · rfl

theorem core_swPsState_exit (stocked : s.core.Stocked) (r : Fin count) :
    (swPsState s r .exit).core = s.core.give r := by
  have same : (s.modify r fun i => { i with state := .exit }).core = s.core := core_modify_same rfl
  have freed := core_psInfoFree (same ▸ stocked) r
  rw [same] at freed
  exact freed

theorem core_psInfoAlloc (s : Table count) (pid procType : Nat) :
    (psInfoAlloc s pid procType).2.core = s.core.take pid := by
  unfold psInfoAlloc Core.take
  cases taken : s.pool with
  | nil => simp [Table.core, taken]
  | cons r rest =>
    have core := @core_swPsState _ .running nofun ({ s with
      pool := rest, running := s.running ++ [r] }.modify r fun _ =>
        { procType := procType, hostPid := pid, allocFlag := true }) r
    rw [core_modify] at core
    dsimp only at core ⊢
    generalize swPsState _ r .running = t at *
    simp only [Table.core, Core.mk.injEq, PsInfo.owner, if_true] at core
    obtain ⟨owner, item, running, pool⟩ := core
    split_ifs <;> simp [Table.core, taken, owner, item, running, pool]

/-- A fork takes a record for a child that has none. -/
theorem core_psInfoForkAlloc (s : Table count) (parent child : Nat) :
    (psInfoForkAlloc s parent child).2.core = s.core ∨
      psInfoGet s child = none ∧ (psInfoForkAlloc s parent child).2.core = s.core.take child := by
  unfold psInfoForkAlloc
  cases psInfoGet s parent with
  | none => exact .inl rfl
  | some p =>
    cases found : psInfoGet s child with
    | some r => exact .inl (core_modify_same rfl)
    | none =>
      have core := core_psInfoAlloc s child (s.info p).procType
      dsimp only
      generalize psInfoAlloc s child (s.info p).procType = done at core ⊢
      obtain ⟨taken, t⟩ := done
      cases taken with
      | none => exact .inr ⟨rfl, core⟩
      | some r => exact .inr ⟨rfl, (core_modify_same rfl).trans core⟩

theorem core_psExit (stocked : s.core.Stocked) (pid : Nat) :
    (psExit s pid).core = s.core ∨ ∃ r, (psExit s pid).core = s.core.give r := by
  unfold psExit
  cases psInfoGet s pid with
  | none => exact .inl rfl
  | some r => exact .inr ⟨r, core_swPsState_exit stocked r⟩

theorem core_psChangeFun (s : Table count) (pid : Nat) : (psChangeFun s pid).core = s.core := by
  unfold psChangeFun
  cases psInfoGet s pid with
  | none => rfl
  | some r =>
    dsimp only
    split_ifs
    · rfl
    · exact core_swPsState (by decide) s r

/-- The record of an exiting process is given back, if its time has come. -/
theorem core_psExitingTimeout (stocked : s.core.Stocked) (hbtSwitch : Bool) (r : Fin count) :
    (psExitingTimeout hbtSwitch s r).core = s.core ∨
      (psExitingTimeout hbtSwitch s r).core = s.core.give r := by
  have first : (s.modify r fun i => { i with exitTimer := none }).core = s.core :=
    core_modify_same rfl
  unfold psExitingTimeout
  dsimp only
  generalize (s.modify r fun i => { i with exitTimer := none }) = t at first ⊢
  split_ifs
  · exact .inl ((core_waitExit t r).trans first)
  · exact .inr (first ▸ core_swPsState_exit (first ▸ stocked) r)
  · exact .inl first

/-- A pid is reallocated if the flag says so. -/
theorem core_psReallocPid (reallocFlg : Bool) (s : Table count) (pid : Nat) :
    (psReallocPid reallocFlg s pid).2.core =
      if reallocFlg then s.core.realloc pid else s.core := by
  unfold psReallocPid Core.realloc psInfoGet
  by_cases inside : pid < maxPid
  · cases found : s.item pid with
    | none => simp [inside, Table.core, found]
    | some r =>
      cases reallocFlg with
      | false =>
        simp only [inside, if_true]
        exact core_modify_same rfl
      | true =>
        have core := core_psInfoAlloc s pid (s.itemType pid)
        simp only [inside, if_true]
        generalize psInfoAlloc s pid (s.itemType pid) = done at core ⊢
        rw [if_pos ⟨trivial, by simp [Table.core, found]⟩]
        obtain ⟨taken, t⟩ := done
        cases taken with
        | none => exact core
        | some r => exact (core_modify_same rfl).trans core
  · simp [inside]

theorem core_psReallocAllPid (reallocFlg : Bool) (s : Table count) :
    (psReallocAllPid reallocFlg s).2.core =
      if reallocFlg then (List.range maxPid).foldl Core.realloc s.core else s.core := by
  unfold psReallocAllPid
  generalize (0 : Nat) = mainPid
  induction List.range maxPid generalizing mainPid s with
  | nil => simp
  | cons pid pids ih =>
    have core := core_psReallocPid reallocFlg s pid
    rw [List.foldl_cons, List.foldl_cons]
    dsimp only
    generalize psReallocPid reallocFlg s pid = done at core ⊢
    obtain ⟨found, t⟩ := done
    cases found <;> dsimp only <;> rw [ih, core] <;> cases reallocFlg <;> rfl

/-- Functions of the table that keep the core keep it one after another. -/
theorem core_foldl {α : Type*} {f : Table count → α → Table count}
    (same : ∀ s a, (f s a).core = s.core) (list : List α) (s : Table count) :
    (list.foldl f s).core = s.core :=
  List.foldlRecOn (motive := fun t => t.core = s.core) list f rfl fun t is a _ =>
    (same t a).trans is

theorem core_psReloadPid (proc : Option (List (List Char))) (s : Table count) :
    (psReloadPid proc s).core = s.core := by
  refine core_foldl (fun s name => ?_) _ s
  cases psInfoGet s (hostPid name) with
  | none => rfl
  | some r => exact core_modify_same rfl

theorem core_psChkTimeout (reallocFlg : Bool) (proc : Option (List (List Char)))
    (s : Table count) : (psChkTimeout reallocFlg proc s).core =
      if reallocFlg then (List.range maxPid).foldl Core.realloc s.core else s.core := by
  rw [psChkTimeout, core_regTimer, core_psReloadPid, core_psReallocAllPid]

theorem core_chkExit (s : Table count) (pid : Nat) : (chkExit s pid).core = s.core := by
  unfold chkExit
  cases psInfoGet s pid with
  | none => rfl
  | some r =>
    dsimp only
    split_ifs
    · exact (core_modify_same rfl).trans (core_swPsState (by decide) s r)
    · rfl

theorem core_psChkExitTimeout (s : Table count) (pid : Nat) :
    (psChkExitTimeout s pid).core = s.core := by
  unfold psChkExitTimeout
  rw [core_foldl core_chkExit]
  split_ifs
  · exact core_chkExit s pid
  · rfl

/-! ## Runs -/

/-- Every pid has at most one record in use, which the index has for it; the running list has the
records in use and the pool the others, once each. -/
def Intact (s : Table count) : Prop := s.core.Stocked ∧ s.core.Indexed

/-- A record is allocated only for a pid that has none, and reallocated only if there is none. -/
def Untaken (s : Table count) : TableCall count → Prop
  | .alloc pid _ => pid < maxPid → s.item pid = none ∨ s.pool = []
  | .chkTimeout true _ => s.pool = [] ∨ ∀ pid < maxPid, s.item pid = none
  | _ => True

/-- A call keeps the table intact exactly if it allocates no second record. -/
theorem call_iff (intact : Intact s) (call : TableCall count) :
    Intact (call.run s) ↔ Untaken s call := by
  obtain ⟨stocked, indexed⟩ := intact
  have same {t : Table count} (core : t.core = s.core) : Intact t ↔ True :=
    iff_true_intro (by rw [Intact, core]; exact ⟨stocked, indexed⟩)
  have given {t : Table count} {r : Fin count} (core : t.core = s.core.give r) : Intact t ↔ True :=
    iff_true_intro (by rw [Intact, core]; exact ⟨stocked.give r, indexed.give r⟩)
  have taken {t : Table count} {pid : Nat} (core : t.core = s.core.take pid) :
      Intact t ↔ (pid < maxPid → s.item pid = none ∨ s.pool = []) := by
    rw [Intact, core, indexed.take_iff stocked pid]
    exact and_iff_right (stocked.take pid)
  cases call with
  | alloc pid procType => exact taken (core_psInfoAlloc s pid procType)
  | forkAlloc parent child =>
    rcases core_psInfoForkAlloc s parent child with core | ⟨absent, core⟩
    · exact same core
    · refine (taken core).trans (iff_true_intro fun inside => .inl ?_)
      simpa [psInfoGet, inside] using absent
  | free r => exact given (core_psInfoFree stocked r)
  | switch r new =>
    by_cases exits : new = .exit
    · subst exits
      exact given (core_swPsState_exit stocked r)
    · exact same (core_swPsState exits s r)
  | exitNotice pid => exact same (core_psChangeFun s pid)
  | exitRsp pid =>
    rcases core_psExit stocked pid with core | ⟨r, core⟩
    · exact same core
    · exact given core
  | exitingTimeout hbtSwitch r =>
    rcases core_psExitingTimeout stocked hbtSwitch r with core | core
    · exact same core
    · exact given core
  | chkTimeout reallocFlg proc =>
    have core := core_psChkTimeout reallocFlg proc s
    cases reallocFlg with
    | false => exact same core
    | true =>
      simp only [if_true] at core
      rw [TableCall.run, Intact, core, indexed.realloc_iff stocked,
        and_iff_right (stocked.realloc _).1]
      simp only [List.mem_range, Untaken, Table.core]
      exact or_congr_right (forall_congr' fun pid => ⟨fun all inside => all inside inside,
        fun all inside _ => all inside⟩)
  | chkExitTimeout pid => exact same (core_psChkExitTimeout s pid)

theorem intact_start (count : Nat) : Intact (tableStart count) :=
  ⟨⟨List.nodup_nil, by simp [tableStart, Table.core, PsInfo.owner], List.nodup_finRange count,
    by simp [tableStart, Table.core, PsInfo.owner]⟩,
    by simp [Core.Indexed, tableStart, Table.core, PsInfo.owner]⟩

/-- In runs that allocate no second record for a pid the table is intact, and one more call keeps it
so exactly if it allocates none either. -/
theorem process_table_iff (s : Table count) :
    (Runs tableAct Untaken (tableStart count) s → Intact s) ∧
      ∀ call, Runs tableAct Untaken (tableStart count) s →
        (Intact (call.run s) ↔ Untaken s call) := by
  have intact (run : Runs tableAct Untaken (tableStart count) s) : Intact s := by
    refine run.invariant (P := Intact) (intact_start count) fun s call t intact untaken done => ?_
    obtain rfl := Option.some.inj done
    exact (call_iff intact call).mpr untaken
  exact ⟨intact, fun call run => call_iff (intact run) call⟩

/-- The first periodic check allocates a second record for a process that is there. -/
theorem check_allocates_again :
    ∃ s : Table 2, Runs tableAct (fun _ _ => True) (tableStart 2) s ∧ ¬Intact s := by
  have first : Intact ((TableCall.alloc 5 0).run (tableStart 2)) :=
    (call_iff (intact_start 2) _).mpr fun _ => .inl rfl
  refine ⟨(TableCall.chkTimeout true none).run _,
    (Runs.start.step (.alloc 5 0) trivial rfl).step _ trivial rfl, ?_⟩
  rw [call_iff first]
  rintro (empty | none_)
  · exact absurd empty (by decide)
  · exact absurd (none_ 5 (by decide)) (by decide)

end Dmm.Ps
