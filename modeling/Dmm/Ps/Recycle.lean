import Dmm.Ps.Table

/-!
# Recycling what a process has left

When a process exits, `MGR_MSG_APP_EXIT_REQ` starts a walk over the recycle objects of its record: a
function of the type of an object is called, and if it answers `NSFW_RCC_SUSPEND` the walk stops
there. The message `MGR_MSG_RCC_END_REQ` or a timer resume it at the next object. The place is kept
in the record. After the last object the record is freed.

The pool of objects has been created and does not change during a walk.
-/

namespace Dmm.Ps

/-! ## The model -/

/-- `NSFW_REC_TYPE_MAX` -/
def recTypeMax : Nat := 512

/-- `NSFW_PROC_APP` -/
def procApp : Nat := 3

/-- What is read of an `nsfw_recycle_obj`. -/
structure RecObj where
  allocFlag : Bool
  recType : Nat
  deriving DecidableEq, Repr

variable {φ δ : Type} {count : Nat}

/-- What is done for a pid. -/
inductive Effect (φ δ : Type)
  | release (call : Release φ δ)
  | visit (pid i : Nat)
  | notify (pid : Nat)
  | free (pid : Nat)
  deriving DecidableEq

/-- The objects, the types with a function, the lock release functions that have been registered,
and which calls are answered with `NSFW_RCC_SUSPEND`, by what has been done up to the call. -/
structure Env (φ δ : Type) where
  objs : List RecObj
  registered : Nat → Bool
  locks : List (RecFunInfo φ δ)
  few : locks.length ≤ recLockRelMaxFun
  suspends : List (Effect φ δ) → Bool

/-- `g_rec_lock_fun`, which `nsfw_recycle_lock_rel_fun` fills from the first slot on. -/
def Env.funs (env : Env φ δ) : RecLockFun φ δ where
  slots := env.locks.map some ++ List.replicate (recLockRelMaxFun - env.locks.length) none
  size := by
    have few := env.few
    simp only [List.length_append, List.length_map, List.length_replicate]
    omega

/-- The table, the records that an exit request has been received for since they were allocated, and
what has been done, with whether the record of the pid was one of these. -/
structure Sys (φ δ : Type) (count : Nat) where
  table : Table count
  requested : Fin count → Bool
  log : List (Effect φ δ × Bool)

/-- The record of a pid is one that an exit request was received for. -/
def Sys.asked (s : Sys φ δ count) (pid : Nat) : Bool := (psInfoGet s.table pid).any s.requested

/-- Something is done for a pid. -/
def Sys.note (s : Sys φ δ count) (pid : Nat) (effects : List (Effect φ δ)) : Sys φ δ count :=
  { s with log := s.log ++ effects.map (·, s.asked pid) }

/-- Write to a record. -/
def Sys.modify (s : Sys φ δ count) (r : Fin count) (f : PsInfo → PsInfo) : Sys φ δ count :=
  { s with table := s.table.modify r f }

/-- The place of the walk, `NSFW_REC_IDX`, is set. -/
def Sys.setIdx (s : Sys φ δ count) (r : Fin count) (i : Int) : Sys φ δ count :=
  s.modify r fun info => { info with recIdx := i }

section
variable (env : Env φ δ)

/-- The object has a function that is called for it. -/
def Env.Recycles (o : RecObj) : Prop :=
  o.allocFlag = true ∧ o.recType < recTypeMax ∧ env.registered o.recType = true

instance (o : RecObj) : Decidable (env.Recycles o) :=
  inferInstanceAs (Decidable (_ ∧ _ ∧ _))

/-- The loop of `nsfw_recycle_callback_all_obj`: is it left with `NSFW_RCC_SUSPEND`. -/
def walkFrom (pid : Nat) (r : Fin count) : Nat → List RecObj → Sys φ δ count → Bool × Sys φ δ count
  | _, [], s => (false, s)
  | i, o :: rest, s =>
    let s := s.setIdx r i
    if env.Recycles o then
      let s := s.note pid [.visit pid i]
      if env.suspends (s.log.map Prod.fst) then (true, s) else walkFrom pid r (i + 1) rest s
    else walkFrom pid r (i + 1) rest s

/-- `nsfw_recycle_callback_all_obj` -/
def recycleCallbackAllObj (pid : Nat) (r : Fin count) (s : Sys φ δ count) :
    Bool × Sys φ δ count :=
  let curIdx := (s.table.info r).recIdx
  if curIdx = -1 then
    walkFrom env pid r 0 env.objs
      ((s.setIdx r 0).note pid ((recycleExitPidLock env.funs pid procApp []).map .release))
  else
    walkFrom env pid r (curIdx + 1).toNat (env.objs.drop (curIdx + 1).toNat)
      (s.setIdx r (curIdx + 1))

/-- The timer of a walk is started. -/
def waitEnd (pid : Nat) (r : Fin count) (s : Sys φ δ count) : Sys φ δ count :=
  let s := s.modify r fun i => { i with recTimer := some s.table.nextTimer }
  { s with table := s.table.regTimer (.recycle pid) }

/-- `nsfw_recycle_pid_obj` -/
def recyclePidObj (s : Sys φ δ count) (pid : Nat) : Bool × Sys φ δ count :=
  match psInfoGet s.table pid with
  | none => (false, s)
  | some r =>
    let timer := (s.table.info r).recTimer
    let walk := recycleCallbackAllObj env pid r s
    let s := { walk.2 with table := walk.2.table.rmvTimer timer }
    if walk.1 then (true, waitEnd pid r s)
    else
      let s := (s.modify r fun i => { i with recTimer := none }).note pid [.notify pid, .free pid]
      (true, { s with table := psInfoFree s.table r })

/-- The request is noted for the record, and its walk begins. -/
def recycleBegin (s : Sys φ δ count) (pid : Nat) (r : Fin count) : Bool × Sys φ δ count :=
  recyclePidObj env ({ s with requested := Function.update s.requested r true }.modify r fun i =>
    { i with recIdx := -1, recTimer := none }) pid

/-- `nsfw_recycle_all_obj` -/
def recycleAllObj (s : Sys φ δ count) (pid : Nat) : Bool × Sys φ δ count :=
  match psInfoGet s.table pid with
  | some r => recycleBegin env s pid r
  | none =>
    match psInfoAlloc s.table pid procApp with
    | (none, table) => (false, { s with table := table })
    | (some r, table) => recycleBegin env { s with table := table } pid r

/-- `mem_app_exit_proc`, for `MGR_MSG_APP_EXIT_REQ` -/
def memAppExitProc (s : Sys φ δ count) (pid : Nat) : Sys φ δ count :=
  let done := recycleAllObj env s pid
  if done.1 then done.2 else done.2.note pid [.notify pid]

/-- `nsfw_recycle_obj_end_proc`, for `MGR_MSG_RCC_END_REQ` -/
def recycleObjEndProc (s : Sys φ δ count) (pid : Nat) : Sys φ δ count := (recyclePidObj env s pid).2

/-- `nsfw_recycle_obj_timeout` -/
def recycleObjTimeout (hbtSwitch : Bool) (s : Sys φ δ count) (pid : Nat) : Sys φ δ count :=
  match psInfoGet s.table pid with
  | none => s
  | some r =>
    if hbtSwitch then waitEnd pid r s
    else (recyclePidObj env (s.modify r fun i => { i with recTimer := none }) pid).2

/-! ## The walk -/

/-- The places of the objects that are recycled. -/
def Env.places : Nat → List RecObj → List Nat
  | _, [] => []
  | i, o :: rest => if env.Recycles o then i :: Env.places (i + 1) rest else Env.places (i + 1) rest

/-- The calls for these places. -/
def visits (pid : Nat) (places : List Nat) : List (Effect φ δ) := places.map (.visit pid)

end

variable {env : Env φ δ} {s : Sys φ δ count} {pid : Nat} {r : Fin count}

theorem places_cons (env : Env φ δ) (i : Nat) (o : RecObj) (rest : List RecObj) :
    env.places i (o :: rest) =
      if env.Recycles o then i :: env.places (i + 1) rest else env.places (i + 1) rest := rfl

/-- The places are in order, and those of the objects that are recycled. -/
theorem places_spec (env : Env φ δ) (i : Nat) (objs : List RecObj) :
    (env.places i objs).Pairwise (· < ·) ∧
      ∀ k, k ∈ env.places i objs ↔ i ≤ k ∧ ∃ o ∈ objs[k - i]?, env.Recycles o := by
  induction objs generalizing i with
  | nil => simp [Env.places]
  | cons o rest ih =>
    obtain ⟨sorted, mem⟩ := ih (i + 1)
    have later (k : Nat) (after : i + 1 ≤ k) : (o :: rest)[k - i]? = rest[k - (i + 1)]? := by
      rw [show k - i = k - (i + 1) + 1 by omega, List.getElem?_cons_succ]
    rw [places_cons]
    split_ifs with recycles
    · refine ⟨List.pairwise_cons.mpr ⟨fun k listed => ((mem k).mp listed).1, sorted⟩, fun k => ?_⟩
      grind
    · refine ⟨sorted, fun k => ?_⟩
      grind

/-- The state after a part of a walk. -/
def Sys.walked (s : Sys φ δ count) (pid : Nat) (r : Fin count) (i : Int)
    (effects : List (Effect φ δ)) : Sys φ δ count :=
  (s.setIdx r i).note pid effects

theorem walked_walked (s : Sys φ δ count) (pid : Nat) (r : Fin count) (i j : Int)
    (first second : List (Effect φ δ)) :
    (s.walked pid r i first).walked pid r j second = s.walked pid r j (first ++ second) := by
  simp [Sys.walked, Sys.setIdx, Sys.modify, Table.modify, Sys.note, Sys.asked, psInfoGet]

/-- The loop visits the places in turn, up to one that suspends it. -/
theorem walkFrom_spec (env : Env φ δ) (pid : Nat) (r : Fin count) (i : Nat) (objs : List RecObj)
    (s : Sys φ δ count) (at_ : Int) :
    let walk := walkFrom env pid r i objs (s.setIdx r at_)
    walk.1 = false ∧ (∃ last, walk.2 = s.walked pid r last (visits pid (env.places i objs))) ∨
      walk.1 = true ∧ ∃ j seen, walk.2 = s.walked pid r (i + j : Nat) (visits pid seen) ∧
        seen ≠ [] ∧ env.places i objs = seen ++ env.places (i + j + 1) (objs.drop (j + 1)) := by
  induction objs generalizing i s at_ with
  | nil => exact .inl ⟨rfl, at_, by simp [walkFrom, Sys.walked, Env.places, visits, Sys.note]⟩
  | cons o rest ih =>
    have again : (s.setIdx r at_).setIdx r i = s.setIdx r i := by
      simp [Sys.setIdx, Sys.modify, Table.modify]
    unfold walkFrom
    dsimp only
    rw [again, places_cons]
    by_cases recycles : env.Recycles o
    · rw [if_pos recycles, if_pos recycles]
      by_cases suspends :
          env.suspends (((s.setIdx r i).note pid [.visit pid i]).log.map Prod.fst) = true
      · rw [if_pos suspends]
        exact .inr ⟨rfl, 0, [i], by simp [Sys.walked, visits], List.cons_ne_nil _ _,
          by simp⟩
      · rw [if_neg suspends]
        have visited : (s.setIdx r i).note pid [.visit pid i] =
            (s.walked pid r i [.visit pid i]).setIdx r i := by
          simp [Sys.walked, Sys.setIdx, Sys.modify, Table.modify, Sys.note, Sys.asked, psInfoGet]
        rw [visited]
        rcases ih (i + 1) (s.walked pid r i [.visit pid i]) i with
          ⟨through, last, is⟩ | ⟨suspended, j, seen, is, some_, rest_⟩
        · refine .inl ⟨through, last, ?_⟩
          rw [is, walked_walked]
          rfl
        · refine .inr ⟨suspended, j + 1, i :: seen, ?_, List.cons_ne_nil _ _, ?_⟩
          · rw [is, walked_walked, show i + 1 + j = i + (j + 1) by omega]
            rfl
          · rw [rest_, List.cons_append, show i + 1 + j = i + (j + 1) by omega, List.drop_succ_cons]
    · rw [if_neg recycles, if_neg recycles]
      rcases ih (i + 1) s i with ⟨through, last, is⟩ | ⟨suspended, j, seen, is, some_, rest_⟩
      · exact .inl ⟨through, last, is⟩
      · refine .inr ⟨suspended, j + 1, seen, ?_, some_, ?_⟩
        · rw [is, show i + 1 + j = i + (j + 1) by omega]
        · rw [rest_, show i + 1 + j = i + (j + 1) by omega, List.drop_succ_cons]

/-- The calls of the lock release functions for application processes. -/
def Env.releases (env : Env φ δ) (pid : Nat) : List (Effect φ δ) :=
  (env.locks.filter fun info => info.procType = procNull ∨ info.procType = procApp).map fun info =>
    .release ⟨info.recFun, pid, info.data⟩

/-- `nsfw_recycle_exit_pid_lock` calls them, each once. -/
theorem releases_eq (env : Env φ δ) (pid : Nat) :
    (recycleExitPidLock env.funs pid procApp []).map Effect.release = env.releases pid := by
  rw [recycleExitPidLock, List.nil_append, Env.releases]
  simp only [Env.funs]
  generalize recLockRelMaxFun - env.locks.length = empty
  induction env.locks with
  | nil => cases empty <;> simp [releaseFrom, List.replicate_succ]
  | cons info rest ih =>
    rw [List.map_cons, List.cons_append, releaseFrom]
    simp only [@eq_comm Nat procApp]
    by_cases called : info.procType = procNull ∨ info.procType = procApp
    · rw [if_pos called, List.filter_cons_of_pos (by simpa using called), List.map_cons, ih]
      rfl
    · rw [if_neg called, List.filter_cons_of_neg (by simpa using called), ih]

/-- What has been done. -/
def Sys.effects (s : Sys φ δ count) : List (Effect φ δ) := s.log.map Prod.fst

/-- A process has a record, and these effects of its walk are to come. -/
structure Walking (env : Env φ δ) (pid : Nat) (r : Fin count) (s : Sys φ δ count)
    (rest : List Nat) : Prop where
  found : psInfoGet s.table pid = some r
  owned : s.table.core.owner r = some pid
  stocked : s.table.core.Stocked
  place : ∃ i : Nat, (s.table.info r).recIdx = i ∧ rest = env.places (i + 1) (env.objs.drop (i + 1))

theorem Walking.congr {t : Sys φ δ count} {rest : List Nat} (walking : Walking env pid r s rest)
    (core : t.table.core = s.table.core)
    (place : (t.table.info r).recIdx = (s.table.info r).recIdx) : Walking env pid r t rest := by
  obtain ⟨found, owned, stocked, i, is, rest⟩ := walking
  have item : t.table.item = s.table.item := congrArg Core.item core
  exact ⟨by rw [psInfoGet, item]; exact found, core ▸ owned, core ▸ stocked, i,
    place.trans is, rest⟩

theorem core_waitEnd (pid : Nat) (r : Fin count) (s : Sys φ δ count) :
    (waitEnd pid r s).table.core = s.table.core :=
  show (s.table.modify r fun i => { i with recTimer := some s.table.nextTimer }).core = _ from
    core_modify_same rfl

/-- What one call of `nsfw_recycle_pid_obj` does to a walk: it goes on by some places or ends. -/
def Advances (env : Env φ δ) (pid : Nat) (r : Fin count) (s t : Sys φ δ count)
    (first : List (Effect φ δ)) (rest : List Nat) : Prop :=
  (∃ seen rest', rest = seen ++ rest' ∧ seen ≠ [] ∧
      t.effects = s.effects ++ first ++ visits pid seen ∧ Walking env pid r t rest') ∨
    t.effects = s.effects ++ first ++ visits pid rest ++ [.notify pid, .free pid] ∧
      psInfoGet t.table pid = none

theorem psInfoGet_free {table : Table count} (stocked : table.core.Stocked)
    (found : psInfoGet table pid = some r) (owned : table.core.owner r = some pid) :
    psInfoGet (psInfoFree table r) pid = none := by
  have core := core_psInfoFree stocked r
  have inside : pid < maxPid := by
    by_contra outside
    simp [psInfoGet, outside] at found
  have item : (psInfoFree table r).item = Function.update table.item pid none := by
    have given := congrArg Core.item core
    rw [Core.give, owned] at given
    exact given.trans (if_pos inside)
  simp [psInfoGet, item]

/-- `nsfw_recycle_pid_obj`, by where its loop begins. -/
theorem recyclePidObj_advances {first : List (Effect φ δ)} {k : Nat} {at_ : Int}
    (found : psInfoGet s.table pid = some r) (owned : s.table.core.owner r = some pid)
    (stocked : s.table.core.Stocked)
    (begins : recycleCallbackAllObj env pid r s =
      walkFrom env pid r k (env.objs.drop k) ((s.note pid first).setIdx r at_)) :
    Advances env pid r s (recyclePidObj env s pid).2 first (env.places k (env.objs.drop k)) := by
  have core (j : Int) (effects : List (Effect φ δ)) (timer : Option Nat) :
      (((s.note pid first).walked pid r j effects).table.rmvTimer timer).core = s.table.core :=
    show (s.table.modify r fun info => { info with recIdx := j }).core = s.table.core from
      core_modify_same rfl
  unfold recyclePidObj
  rw [found]
  dsimp only
  rw [begins]
  rcases walkFrom_spec env pid r k (env.objs.drop k) (s.note pid first) at_ with
    ⟨through, last, is⟩ | ⟨suspended, j, seen, is, some_, rest⟩
  · rw [if_neg (by simp [through]), is]
    generalize (s.table.info r).recTimer = timer
    have core := core last (visits pid (env.places k (env.objs.drop k))) timer
    refine .inr ⟨by simp [Sys.effects, Sys.note, Sys.walked, Sys.setIdx, Sys.modify,
      Function.comp_def], ?_⟩
    generalize ((s.note pid first).walked pid r last _).table.rmvTimer timer = table at core ⊢
    have same : (table.modify r fun i => { i with recTimer := none }).core = s.table.core :=
      (core_modify_same rfl).trans core
    have item : (table.modify r fun i => { i with recTimer := none }).item = s.table.item :=
      congrArg Core.item same
    have found' : psInfoGet (table.modify r fun i => { i with recTimer := none }) pid = some r := by
      rw [psInfoGet, item]
      exact found
    exact psInfoGet_free (same ▸ stocked) found' (same ▸ owned)
  · rw [if_pos suspended, is]
    generalize (s.table.info r).recTimer = timer
    have core := core (k + j : Nat) (visits pid seen) timer
    refine .inl ⟨seen, _, rest, some_, by simp [Sys.effects, Sys.note, Sys.walked, Sys.setIdx,
      Sys.modify, waitEnd, Function.comp_def], ?_⟩
    have place : (((s.note pid first).walked pid r (k + j : Nat) (visits pid seen)).table.info
        r).recIdx = (k + j : Nat) := by
      simp [Sys.walked, Sys.setIdx, Sys.modify, Table.modify, Sys.note]
    refine Walking.congr (s := { (s.note pid first).walked pid r (k + j : Nat) (visits pid seen) with
      table :=
        ((s.note pid first).walked pid r (k + j : Nat) (visits pid seen)).table.rmvTimer timer })
      ⟨?_, core ▸ owned, core ▸ stocked, k + j, place, ?_⟩ ?_ ?_
    · exact found
    · rw [List.drop_drop, Nat.add_assoc]
    · exact core_waitEnd ..
    · simp [waitEnd, Sys.modify, Table.modify, Table.regTimer]

theorem Walking.recyclePidObj {rest : List Nat} (walking : Walking env pid r s rest) :
    Advances env pid r s (recyclePidObj env s pid).2 [] rest := by
  obtain ⟨found, owned, stocked, i, place, rfl⟩ := walking
  refine @recyclePidObj_advances _ _ _ _ _ _ _ _ _ (i + 1) found owned stocked ?_
  have next : ((i : Int) + 1).toNat = i + 1 := by omega
  unfold recycleCallbackAllObj
  rw [place, if_neg (by omega), next]
  simp [Sys.note]

/-- `nsfw_recycle_pid_obj` succeeds exactly if there is a record. -/
theorem recyclePidObj_fst (env : Env φ δ) (s : Sys φ δ count) (pid : Nat) :
    (recyclePidObj env s pid).1 = (psInfoGet s.table pid).isSome := by
  unfold recyclePidObj
  cases psInfoGet s.table pid with
  | none => rfl
  | some r =>
    dsimp only
    split_ifs <;> rfl

theorem memAppExitProc_advances (found : psInfoGet s.table pid = some r)
    (owned : s.table.core.owner r = some pid) (stocked : s.table.core.Stocked) :
    Advances env pid r s (memAppExitProc env s pid) (env.releases pid) (env.places 0 env.objs) := by
  have succeeds : (recycleAllObj env s pid).1 = true := by
    rw [recycleAllObj, found]
    exact (recyclePidObj_fst env _ pid).trans (Option.isSome_iff_exists.mpr ⟨r, found⟩)
  have same : (s.table.modify r fun i => { i with recIdx := -1, recTimer := none }).core =
      s.table.core := core_modify_same rfl
  have advances := @recyclePidObj_advances _ _ _ env
    ({ s with requested := Function.update s.requested r true }.modify r fun i =>
      { i with recIdx := -1, recTimer := none })
    pid r (env.releases pid) 0 0 found (same ▸ owned) (same ▸ stocked) (by
        simp [recycleCallbackAllObj, Sys.modify, Table.modify, releases_eq, Sys.setIdx, Sys.note,
          Sys.asked, psInfoGet])
  unfold memAppExitProc
  dsimp only
  rw [if_pos succeeds, recycleAllObj, found]
  exact advances

/-! ## Resuming -/

/-- What resumes a walk: `MGR_MSG_RCC_END_REQ`, or its timer. -/
inductive Resume
  | endReq
  | timeout (id : Nat) (hbtSwitch : Bool)

/-- A time-out is put off while `g_hbt_switch` is set. -/
def Resume.goesOn : Resume → Bool
  | .endReq => true
  | .timeout _ hbtSwitch => !hbtSwitch

/-- A message, or a timer of the pid that is pending and expires. -/
def resume (env : Env φ δ) (pid : Nat) (s : Sys φ δ count) : Resume → Option (Sys φ δ count)
  | .endReq => some (recycleObjEndProc env s pid)
  | .timeout id hbtSwitch =>
    if (id, .recycle pid) ∈ s.table.timers then
      some (recycleObjTimeout env hbtSwitch { s with table := s.table.rmvTimer (some id) } pid)
    else none

/-- A walk goes on with a message or a time-out, and is left as it is by one that is put off. -/
theorem Walking.resume {t : Sys φ δ count} {rest : List Nat} {e : Resume}
    (walking : Walking env pid r s rest) (taken : resume env pid s e = some t) :
    if e.goesOn then Advances env pid r s t [] rest
    else t.effects = s.effects ∧ Walking env pid r t rest := by
  cases e with
  | endReq =>
    obtain rfl := Option.some.inj taken
    exact walking.recyclePidObj
  | timeout id hbtSwitch =>
    have expired : Walking env pid r { s with table := s.table.rmvTimer (some id) } rest :=
      walking.congr rfl rfl
    unfold Ps.resume at taken
    dsimp only at taken
    split_ifs at taken
    obtain rfl := Option.some.inj taken
    unfold recycleObjTimeout
    rw [expired.found]
    cases hbtSwitch with
    | true => exact ⟨rfl, expired.congr (core_waitEnd ..) (by
        simp [waitEnd, Sys.modify, Table.modify, Table.regTimer])⟩
    | false =>
      have stopped : Walking env pid r ({ s with table := s.table.rmvTimer (some id) }.modify r
          fun i => { i with recTimer := none }) rest :=
        expired.congr (core_modify_same rfl) (by simp [Sys.modify, Table.modify])
      exact stopped.recyclePidObj

theorem resume_ended {t : Sys φ δ count} {e : Resume} (ended : psInfoGet s.table pid = none)
    (taken : resume env pid s e = some t) :
    t.effects = s.effects ∧ psInfoGet t.table pid = none := by
  cases e with
  | endReq =>
    obtain rfl := Option.some.inj taken
    simp [recycleObjEndProc, recyclePidObj, ended]
  | timeout id hbtSwitch =>
    unfold Ps.resume at taken
    dsimp only at taken
    split_ifs at taken
    obtain rfl := Option.some.inj taken
    have gone : psInfoGet (s.table.rmvTimer (some id)) pid = none := ended
    unfold recycleObjTimeout
    rw [gone]
    exact ⟨rfl, ended⟩

/-- The effects that are to come, and a bound for the places among them. -/
def Due (env : Env φ δ) (pid : Nat) (r : Fin count) (s : Sys φ δ count) (rest : List (Effect φ δ))
    (bound : Nat) : Prop :=
  (∃ places, Walking env pid r s places ∧ rest = visits pid places ++ [.notify pid, .free pid] ∧
      places.length < bound) ∨
    rest = [] ∧ psInfoGet s.table pid = none

/-- What is due after a call of `nsfw_recycle_pid_obj`. -/
theorem Advances.due {t : Sys φ δ count} {first : List (Effect φ δ)} {places : List Nat}
    (advances : Advances env pid r s t first places) :
    ∃ rest, t.effects ++ rest =
      s.effects ++ first ++ (visits pid places ++ [.notify pid, .free pid]) ∧
      rest <:+ visits pid places ++ [.notify pid, .free pid] ∧
        Due env pid r t rest places.length := by
  rcases advances with ⟨seen, later, rfl, some_, effects, walking⟩ | ⟨effects, ended⟩
  · have fewer : later.length < (seen ++ later).length := by
      have := List.length_pos_iff.mpr some_
      simp only [List.length_append]
      omega
    refine ⟨_, ?_, ⟨visits pid seen, ?_⟩, .inl ⟨later, walking, rfl, fewer⟩⟩
    · simp [effects, visits]
    · simp [visits]
  · exact ⟨[], by simp [effects], List.nil_suffix, .inr ⟨rfl, ended⟩⟩

/-- A walk under messages and time-outs: what is due is done in turn, and all of it if it is resumed
often enough. -/
theorem Due.resumes {t : Sys φ δ count} {rest : List (Effect φ δ)} {bound : Nat}
    (due : Due env pid r s rest bound) (resumes : List Resume)
    (run : resumes.foldlM (resume env pid) s = some t) :
    ∃ rest', t.effects ++ rest' = s.effects ++ rest ∧ rest' <:+ rest ∧
      Due env pid r t rest' (bound - resumes.countP Resume.goesOn) := by
  induction resumes generalizing s rest bound with
  | nil =>
    obtain rfl := Option.some.inj run
    exact ⟨rest, rfl, List.suffix_rfl, due⟩
  | cons e resumes ih =>
    rw [List.foldlM_cons] at run
    obtain ⟨u, taken, later⟩ := Option.bind_eq_some_iff.mp run
    have step : ∃ rest', u.effects ++ rest' = s.effects ++ rest ∧ rest' <:+ rest ∧
        Due env pid r u rest' (bound - if e.goesOn then 1 else 0) := by
      rcases due with ⟨places, walking, rfl, within⟩ | ⟨rfl, ended⟩
      · have resumed := walking.resume taken
        split_ifs at resumed ⊢
        · obtain ⟨rest', same, suffix, due⟩ := resumed.due
          refine ⟨rest', by simpa using same, suffix, due.imp_left ?_⟩
          rintro ⟨places', walking', is, fewer⟩
          exact ⟨places', walking', is, by omega⟩
        · exact ⟨_, by rw [resumed.1], List.suffix_rfl, .inl ⟨places, resumed.2, rfl, within⟩⟩
      · obtain ⟨effects, ended⟩ := resume_ended ended taken
        exact ⟨[], by rw [effects], List.suffix_rfl, .inr ⟨rfl, ended⟩⟩
    obtain ⟨rest₁, same, suffix, due⟩ := step
    obtain ⟨rest₂, same', suffix', due'⟩ := ih due later
    refine ⟨rest₂, same'.trans same, suffix'.trans suffix, ?_⟩
    rwa [List.countP_cons, Nat.add_comm, Nat.sub_add_eq]

/-- After a request to exit, however the walk is resumed: the lock release functions for application
processes are called first, each once, then the function of every object that has one, in increasing
order, then the notification is sent and the record freed. What is left to do is a rest of
that, nothing is left exactly if the record is gone, and nothing if the walk is resumed as often as
there are such objects. -/
theorem recycle_walk_complete (env : Env φ δ) (s t : Sys φ δ count) (pid : Nat) (r : Fin count)
    (resumes : List Resume) (stocked : s.table.core.Stocked)
    (found : psInfoGet s.table pid = some r) (owned : s.table.core.owner r = some pid)
    (run : resumes.foldlM (resume env pid) (memAppExitProc env s pid) = some t) :
    ∃ places rest, (places.Pairwise (· < ·) ∧
        ∀ i, i ∈ places ↔ ∃ o ∈ env.objs[i]?, env.Recycles o) ∧
      t.effects ++ rest =
        s.effects ++ env.releases pid ++ (visits pid places ++ [.notify pid, .free pid]) ∧
      rest <:+ visits pid places ++ [.notify pid, .free pid] ∧
      (rest = [] ↔ psInfoGet t.table pid = none) ∧
      (places.length ≤ resumes.countP Resume.goesOn → rest = []) := by
  obtain ⟨rest, same, suffix, due⟩ :=
    (@memAppExitProc_advances _ _ _ env _ _ _ found owned stocked).due
  obtain ⟨rest', same', suffix', due'⟩ := due.resumes resumes run
  refine ⟨env.places 0 env.objs, rest', by simpa using places_spec env 0 env.objs,
    same'.trans same, suffix'.trans suffix, ?_, fun enough => ?_⟩
  · rcases due' with ⟨places, walking, rfl, _⟩ | ⟨rfl, ended⟩
    · simp [walking.found]
    · simp [ended]
  · rcases due' with ⟨places, walking, rfl, within⟩ | ⟨rfl, ended⟩
    · omega
    · rfl

/-- Two objects whose functions suspend the walk, and a lock. -/
def twoObjects : Env Unit Unit :=
  ⟨[⟨true, 1⟩, ⟨false, 1⟩, ⟨true, 2⟩], fun _ => true, [⟨(), (), procNull⟩], by decide,
    fun _ => true⟩

/-- Pid 5 has a record. -/
def oneProcess : Sys Unit Unit 1 := ⟨(psInfoAlloc (tableStart 1) 5 procApp).2, fun _ => false, []⟩

/-- Two messages resume the walk over the two objects. -/
theorem two_objects_recycled : ∃ t, [Resume.endReq, .endReq].foldlM (resume twoObjects 5)
    (memAppExitProc twoObjects oneProcess 5) = some t ∧ ∃ places rest,
      t.effects ++ rest = twoObjects.releases 5 ++ (visits 5 places ++ [.notify 5, .free 5]) ∧
      (places.length ≤ 2 → rest = []) := by
  have intact : Intact oneProcess.table :=
    (call_iff (intact_start 1) (.alloc 5 procApp)).mpr fun _ => .inl rfl
  refine ⟨_, rfl, ?_⟩
  obtain ⟨places, rest, _, effects, _, _, enough⟩ :=
    recycle_walk_complete twoObjects oneProcess _ 5 0 [.endReq, .endReq] intact.1 rfl rfl rfl
  exact ⟨places, rest, effects, enough⟩

end Dmm.Ps
