import Dmm.Ps.Recycle

/-!
# Recycling only what has exited

A walk is resumed by messages and timers that know only the pid. The record of the pid may be
another one by then: freeing a record does not stop the timer of its walk, and a message may be
late.
-/

namespace Dmm.Ps

variable {φ δ : Type} {count : Nat}

/-! ## Events -/

/-- The start of a process, a message about one, or a timer that expires. -/
inductive ProcEvent
  | start (pid procType : Nat)
  | exitNotice (pid : Nat)
  | exitReq (pid : Nat)
  | endReq (pid : Nat)
  | exitRsp (pid : Nat)
  | expire (id : Nat) (hbtSwitch : Bool) (proc : Option (List (List Char)))

/-- `mem_alloc_ps_info` -/
def memAllocPsInfo (table : Table count) (pid procType : Nat) : Table count :=
  match psInfoGet table pid with
  | some _ => table
  | none => (psInfoAlloc table pid procType).2

section
variable (env : Env φ δ)

/-- A timer expires. -/
def expired (hbtSwitch : Bool) (proc : Option (List (List Char))) (s : Sys φ δ count) :
    Alarm count → Sys φ δ count
  | .exiting r => { s with table := psExitingTimeout hbtSwitch s.table r }
  | .recycle pid => recycleObjTimeout env hbtSwitch s pid
  | .chk reallocFlg => { s with table := psChkTimeout reallocFlg proc s.table }
  | .chkExit pid => { s with table := psChkExitTimeout s.table pid }

/-- The timer that is pending under an id. -/
def Sys.pending (s : Sys φ δ count) (id : Nat) : Option (Alarm count) :=
  (s.table.timers.find? (·.1 == id)).map Prod.snd

/-- One event. -/
def happen (s : Sys φ δ count) : ProcEvent → Option (Sys φ δ count)
  | .start pid procType => some { s with table := memAllocPsInfo s.table pid procType }
  | .exitNotice pid => some { s with table := psChangeFun s.table pid }
  | .exitReq pid => some (memAppExitProc env s pid)
  | .endReq pid => some (recycleObjEndProc env s pid)
  | .exitRsp pid => some { s with table := psExit s.table pid }
  | .expire id hbtSwitch proc => (s.pending id).map
      (expired env hbtSwitch proc { s with table := s.table.rmvTimer (some id) })

/-- A request counts while the record it was for is allocated. -/
def Sys.settle (s : Sys φ δ count) : Sys φ δ count :=
  { s with requested := fun r => s.requested r && (s.table.info r).allocFlag }

/-- One event, as an action. -/
def procAct (s : Sys φ δ count) (e : ProcEvent) : Option (Sys φ δ count) :=
  (happen env s e).map Sys.settle

/-- No process is known; the first check is due. -/
def procStart (φ δ : Type) (count : Nat) : Sys φ δ count :=
  ⟨(tableStart count).regTimer (.chk true), fun _ => false, []⟩

/-- A recycle or lock function is called, or a record freed. -/
def Effect.Touches : Effect φ δ → Prop
  | .notify _ => False
  | _ => True

/-- What has been touched was of a process that a request to exit had been received for. -/
def Sys.Spares (s : Sys φ δ count) : Prop := ∀ x ∈ s.log, x.1.Touches → x.2 = true

/-- The record of a pid, if there is one, is one that a request to exit was received for. -/
def Sys.Asked (s : Sys φ δ count) (pid : Nat) : Prop :=
  ∀ r, psInfoGet s.table pid = some r → s.requested r = true

/-- A walk is resumed, by a message or its timer, only for such a pid. -/
def ResumesAsked (s : Sys φ δ count) : ProcEvent → Prop
  | .endReq pid => s.Asked pid
  | .expire id hbtSwitch _ =>
    hbtSwitch = false → ∀ pid, s.pending id = some (.recycle pid) → s.Asked pid
  | _ => True

end

variable {env : Env φ δ} {s : Sys φ δ count} {pid : Nat}

theorem spares_table (s : Sys φ δ count) (table : Table count) :
    { s with table := table }.Spares ↔ s.Spares := Iff.rfl

theorem spares_note_iff (s : Sys φ δ count) (pid : Nat) (effects : List (Effect φ δ)) :
    (s.note pid effects).Spares ↔
      s.Spares ∧ ((∃ e ∈ effects, e.Touches) → s.asked pid = true) := by
  simp only [Sys.Spares, Sys.note, List.forall_mem_append, List.forall_mem_map]
  exact and_congr_right fun _ => ⟨fun all some_ => some_.elim fun e both => all e both.1 both.2,
    fun all e listed touches => all ⟨e, listed, touches⟩⟩

/-- The loop, for a state that has spared others. -/
theorem spares_walkFrom (pid : Nat) (r : Fin count) (i : Nat) (objs : List RecObj)
    (s : Sys φ δ count) (at_ : Int) :
    let walk := walkFrom env pid r i objs (s.setIdx r at_)
    walk.2.asked pid = s.asked pid ∧ (s.asked pid = true → s.Spares → walk.2.Spares) ∧
      (walk.1 = true → walk.2.Spares → s.asked pid = true) ∧ (walk.2.Spares → s.Spares) := by
  have noted (j : Int) (places : List Nat) : (s.walked pid r j (visits pid places)).Spares ↔
      s.Spares ∧ (places ≠ [] → s.asked pid = true) := by
    refine (spares_note_iff _ pid _).trans (and_congr_right fun _ => imp_congr_left ?_)
    cases places <;> simp [visits, Effect.Touches]
  rcases walkFrom_spec env pid r i objs s at_ with
    ⟨through, last, is⟩ | ⟨suspended, j, seen, is, some_, rest⟩
  · simp only [through, is, noted]
    exact ⟨rfl, fun asked spares => ⟨spares, fun _ => asked⟩,
      fun suspended => Bool.noConfusion suspended, And.left⟩
  · simp only [is, noted]
    exact ⟨rfl, fun asked spares => ⟨spares, fun _ => asked⟩, fun _ spares => spares.2 some_,
      And.left⟩

theorem callback_begins (env : Env φ δ) (pid : Nat) (r : Fin count) (s : Sys φ δ count) :
    ∃ first k at_, recycleCallbackAllObj env pid r s =
      walkFrom env pid r k (env.objs.drop k) ((s.note pid first).setIdx r at_) := by
  unfold recycleCallbackAllObj
  dsimp only
  split_ifs
  · exact ⟨_, 0, 0, rfl⟩
  · exact ⟨[], ((s.table.info r).recIdx + 1).toNat, (s.table.info r).recIdx + 1, by simp [Sys.note]⟩

/-- `nsfw_recycle_pid_obj` spares others exactly if it is called for a pid that was asked to exit or
has no record: it calls a function, or frees the record. -/
theorem spares_recyclePidObj (spares : s.Spares) (pid : Nat) :
    (recyclePidObj env s pid).2.Spares ↔ s.Asked pid := by
  unfold recyclePidObj
  cases found : psInfoGet s.table pid with
  | none => simp [Sys.Asked, found, spares]
  | some r =>
    have asked : s.Asked pid ↔ s.asked pid = true := by simp [Sys.Asked, Sys.asked, found]
    obtain ⟨first, k, at_, begins⟩ := callback_begins env pid r s
    obtain ⟨same, kept, called, _⟩ :=
      @spares_walkFrom _ _ _ env pid r k (env.objs.drop k) (s.note pid first) at_
    rw [← begins] at same kept called
    have walks : s.asked pid = true → (recycleCallbackAllObj env pid r s).2.Spares := fun asked =>
      kept asked ((spares_note_iff s pid first).mpr ⟨spares, fun _ => asked⟩)
    dsimp only
    rw [asked]
    split_ifs with suspended
    · exact ⟨fun after => called suspended after, walks⟩
    · refine (spares_note_iff _ pid _).trans ⟨fun after => ?_,
        fun asked => ⟨walks asked, fun _ => ?_⟩⟩
      · exact same.symm.trans (after.2 ⟨.free pid, by simp, trivial⟩)
      · exact same.trans asked

/-- The record found for a pid after an allocation for it. -/
theorem psInfoGet_alloc {table t : Table count} {procType : Nat} {r q : Fin count}
    (allocated : psInfoAlloc table pid procType = (some r, t)) (found : psInfoGet t pid = some q) :
    q = r := by
  unfold psInfoAlloc at allocated
  cases taken : table.pool with
  | nil => simp [taken] at allocated
  | cons p pool =>
    simp only [taken, Prod.mk.injEq, Option.some.injEq] at allocated
    obtain ⟨rfl, rfl⟩ := allocated
    by_cases inside : pid < maxPid
    · simpa [psInfoGet, inside, eq_comm] using found
    · simp [psInfoGet, inside] at found

/-- A request to exit spares others: from then on the record counts as asked. -/
theorem spares_memAppExitProc (spares : s.Spares) (pid : Nat) :
    (memAppExitProc env s pid).Spares := by
  have begins (table : Table count) (r : Fin count)
      (only : ∀ q, psInfoGet table pid = some q → q = r) :
      (recycleBegin env { s with table := table } pid r).2.Spares := by
    unfold recycleBegin
    rw [spares_recyclePidObj (by exact spares)]
    intro q found
    obtain rfl := only q found
    exact Function.update_self ..
  have after : (recycleAllObj env s pid).2.Spares := by
    unfold recycleAllObj
    cases found : psInfoGet s.table pid with
    | some r => exact begins s.table r fun q is => Option.some.inj (is.symm.trans found)
    | none =>
      cases allocated : psInfoAlloc s.table pid procApp with
      | mk taken table =>
        cases taken with
        | none => exact spares
        | some r =>
          exact begins table r fun q is => psInfoGet_alloc allocated is
  unfold memAppExitProc
  dsimp only
  split_ifs
  · exact after
  · exact (spares_note_iff _ pid _).mpr ⟨after, by simp [Effect.Touches]⟩

/-- The timer of a walk spares others exactly if it is put off or the pid was asked to exit. -/
theorem spares_recycleObjTimeout (spares : s.Spares) (hbtSwitch : Bool) (pid : Nat) :
    (recycleObjTimeout env hbtSwitch s pid).Spares ↔ (hbtSwitch = false → s.Asked pid) := by
  unfold recycleObjTimeout
  cases found : psInfoGet s.table pid with
  | none => simp [Sys.Asked, found, spares]
  | some r =>
    cases hbtSwitch with
    | true => exact iff_of_true spares nofun
    | false =>
      refine (spares_recyclePidObj (by exact spares) pid).trans ?_
      exact ⟨fun asked _ => asked, fun asked => asked rfl⟩

/-- One event spares others exactly if it resumes a walk only for a pid that was asked to exit. -/
theorem spares_procAct {t : Sys φ δ count} {e : ProcEvent} (spares : s.Spares)
    (taken : procAct env s e = some t) : t.Spares ↔ ResumesAsked s e := by
  obtain ⟨u, happens, rfl⟩ := Option.map_eq_some_iff.mp taken
  have settled : u.settle.Spares ↔ u.Spares := Iff.rfl
  rw [settled]
  cases e with
  | start pid procType | exitNotice pid | exitRsp pid =>
    obtain rfl := Option.some.inj happens
    exact iff_of_true spares trivial
  | exitReq pid =>
    obtain rfl := Option.some.inj happens
    exact iff_of_true (spares_memAppExitProc spares pid) trivial
  | endReq pid =>
    obtain rfl := Option.some.inj happens
    exact spares_recyclePidObj spares pid
  | expire id hbtSwitch proc =>
    obtain ⟨alarm, pending, rfl⟩ := Option.map_eq_some_iff.mp happens
    unfold ResumesAsked
    dsimp only
    rw [pending]
    have removed : { s with table := s.table.rmvTimer (some id) }.Spares := spares
    have asked (pid : Nat) : { s with table := s.table.rmvTimer (some id) }.Asked pid ↔
        s.Asked pid :=
      Iff.rfl
    generalize { s with table := s.table.rmvTimer (some id) } = u at removed asked
    cases alarm with
    | exiting r | chk reallocFlg | chkExit pid =>
      simp only [expired, spares_table]
      exact iff_of_true removed (by simp)
    | recycle pid =>
      refine (spares_recycleObjTimeout removed hbtSwitch pid).trans (imp_congr_right fun _ => ?_)
      rw [asked]
      exact ⟨fun asked at_ is => by cases is; exact asked, fun all => all pid rfl⟩

/-- In runs whose walks are resumed only for pids that were asked to exit, nothing else is touched,
and one more event touches nothing else exactly if it meets the condition. -/
theorem exit_recycling_iff (env : Env φ δ) (s : Sys φ δ count) :
    (Runs (procAct env) ResumesAsked (procStart φ δ count) s → s.Spares) ∧
      ∀ e t, Runs (procAct env) ResumesAsked (procStart φ δ count) s → procAct env s e = some t →
        (t.Spares ↔ ResumesAsked s e) := by
  have spares (run : Runs (procAct env) ResumesAsked (procStart φ δ count) s) : s.Spares := by
    refine run.invariant (P := Sys.Spares) (by simp [Sys.Spares, procStart])
      fun s e t spares meets taken => ?_
    exact (spares_procAct spares taken).mpr meets
  exact ⟨spares, fun e t run taken => spares_procAct (spares run) taken⟩

/-- The timer of a walk outlives the record, and finds the next process with the pid. -/
theorem next_process_recycled :
    ∃ s, Runs (procAct twoObjects) (fun _ _ => True) (procStart Unit Unit 2) s ∧
      (.visit 5 2, false) ∈ s.log := by
  have executed : ∃ s, Runs (procAct twoObjects) (fun _ _ => True) (procStart Unit Unit 2) s ∧
      decide ((Effect.visit 5 2, false) ∈ s.log) = true :=
    exists_runs_of_execute (fun _ _ => true) [.start 5 procApp, .exitReq 5, .exitRsp 5,
      .start 5 procApp, .expire 1 false none] (fun _ _ _ => trivial) (by decide +kernel)
  simpa only [decide_eq_true_eq] using executed

end Dmm.Ps
