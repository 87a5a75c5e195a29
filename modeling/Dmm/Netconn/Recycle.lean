import Dmm.Lib.Run
import Mathlib

/-!
# Recycling a connection that processes share

Each process that has a connection open is in its pid array, and counts in `fork_ref` from the
moment it is forked, before it adds its pid. A delete message takes a process out; when the array is
empty and the count is not zero, the connection waits for children that have not added their pids
yet, with a timer that comes back to the same function with the message that started it.

A child adds its pid within the delay after its fork. So when the timer is up, every child that was
forked before the timer was started has added its pid or ended.
-/

namespace Dmm.Netconn.Recycle

/-! ## One message -/

/-- A process. -/
abbrev Pid := Nat

/-- A delete message. -/
abbrev MsgId := Nat

/-- `SS_DELAY_STOPPED` and so on -/
inductive Delay
  | stopped
  | started
  | again
  | stopping
  deriving DecidableEq, Repr

/-- `netconn_recycle` -/
structure Conn where
  /-- An `i16` that is only compared with zero, so it stands here modulo `2 ^ 16`. -/
  forkRef : Nat
  pids : List Pid
  flag : Delay
  delayMsg : Option MsgId
  deriving DecidableEq, Repr

/-- A connection in its pool: `ss_reset_conn_recycle`. -/
def Conn.reset : Conn := ⟨0, [], .stopped, none⟩

/-- What a call does besides. -/
structure Done where
  conn : Conn
  /-- `close_conn` without a delay. -/
  closes : Bool := false
  /-- `ss_recycle_fd_share` -/
  fdShare : Bool := false
  /-- `free_conn_by_spl` -/
  frees : Bool := false
  /-- The message is freed, and `ss_notify_omc` is called. -/
  freesMsg : Bool := true
  /-- `close_conn` with `SS_DELAY_CLOSE_SEC` -/
  delays : Bool := false
  deriving DecidableEq, Repr

/-- `ss_inc_fork_ref` -/
@[irreducible]
def ssIncForkRef (ref : Nat) : Nat := (ref + 1) % 2 ^ 16

theorem ssIncForkRef_eq {ref : Nat} (small : ref + 1 < 2 ^ 16) : ssIncForkRef ref = ref + 1 := by
  unfold ssIncForkRef
  omega

/-- `ss_dec_fork_ref` -/
@[irreducible]
def ssDecForkRef (ref : Nat) : Nat := (ref + (2 ^ 16 - 1)) % 2 ^ 16

theorem ssDecForkRef_eq {ref : Nat} (positive : 0 < ref) (small : ref < 2 ^ 16) :
    ssDecForkRef ref = ref - 1 := by
  unfold ssDecForkRef
  omega

/-- `ss_close_conn_now` -/
def ssCloseConnNow (c : Conn) : Done :=
  if c.flag = .stopped then { conn := .reset, closes := true, fdShare := true, frees := true }
  else { conn := c, closes := true }

/-- `ss_process_delay_up` -/
def ssProcessDelayUp (c : Conn) : Done :=
  match c.flag with
  | .started =>
    if c.pids = [] then ssCloseConnNow { c with flag := .stopped, delayMsg := none }
    else { conn := { c with flag := .stopped, delayMsg := none } }
  | .again =>
    if c.pids = [] then { conn := { c with flag := .started }, freesMsg := false, delays := true }
    else { conn := { c with flag := .stopped, delayMsg := none } }
  | .stopping => { conn := .reset, frees := true }
  | .stopped => { conn := c, freesMsg := false }

/-- `ss_recycle_conn` for the message `m` of a process. -/
def ssRecycleConn (c : Conn) (pid : Pid) (m : MsgId) : Done :=
  if pid ∈ c.pids then
    let c := { c with pids := c.pids.erase pid, forkRef := ssDecForkRef c.forkRef }
    if c.forkRef = 0 then
      ssCloseConnNow (if c.flag ≠ .stopped then { c with flag := .stopping } else c)
    else if c.pids = [] ∧ c.flag = .stopped then
      { conn := { c with flag := .started, delayMsg := some m }, freesMsg := false, delays := true }
    else if c.pids = [] ∧ c.flag = .started then { conn := { c with flag := .again } }
    else { conn := c }
  else if c.delayMsg = some m then ssProcessDelayUp c
  else { conn := c }

/-- What is done for a process in the array, over the count that it leaves. -/
theorem ssRecycleConn_member {c : Conn} {p : Pid} (member : p ∈ c.pids) (m : MsgId) {ref : Nat}
    (counted : ssDecForkRef c.forkRef = ref) :
    ssRecycleConn c p m =
      if ref = 0 then
        if c.flag = .stopped then { conn := .reset, closes := true, fdShare := true, frees := true }
        else { conn := ⟨ref, c.pids.erase p, .stopping, c.delayMsg⟩, closes := true }
      else if c.pids.erase p = [] ∧ c.flag = .stopped then
        { conn := ⟨ref, c.pids.erase p, .started, some m⟩, freesMsg := false, delays := true }
      else if c.pids.erase p = [] ∧ c.flag = .started then
        { conn := ⟨ref, c.pids.erase p, .again, c.delayMsg⟩ }
      else { conn := ⟨ref, c.pids.erase p, c.flag, c.delayMsg⟩ } := by
  rw [ssRecycleConn, if_pos member, counted]
  by_cases stopped : c.flag = .stopped <;> simp [ssCloseConnNow, stopped]

theorem ssRecycleConn_delayed {c : Conn} {p : Pid} {m : MsgId} (outside : p ∉ c.pids)
    (delayed : c.delayMsg = some m) : ssRecycleConn c p m = ssProcessDelayUp c := by
  rw [ssRecycleConn, if_neg outside, if_pos delayed]

/-- The messages that start a delay: that of the last process in the array while the count is not
zero, and that of a delay that is up after another process has emptied the array again. -/
def Conn.StartsDelay (c : Conn) (p : Pid) (m : MsgId) : Prop :=
  p ∈ c.pids ∧ ssDecForkRef c.forkRef ≠ 0 ∧ c.pids.erase p = [] ∧ c.flag = .stopped ∨
    p ∉ c.pids ∧ c.delayMsg = some m ∧ c.flag = .again ∧ c.pids = []

theorem Conn.StartsDelay.kept {c : Conn} {p : Pid} {m : MsgId} (starts : c.StartsDelay p m) :
    (ssRecycleConn c p m).freesMsg = false := by
  obtain ⟨member, more, empty⟩ | ⟨outside, delayed, again, nil⟩ := starts
  · rw [ssRecycleConn_member member m rfl, if_neg more, if_pos empty]
  · simp [ssRecycleConn_delayed outside delayed, ssProcessDelayUp, again, nil]

/-! ## Runs -/

/-- A connection with its processes. -/
structure State where
  conn : Conn
  /-- Is `private_data` set. -/
  pcb : Bool
  /-- Buffers on the recoder list of the `fd_share`. -/
  recoder : Nat
  /-- The message that the timer is set for. -/
  timer : Option (Pid × MsgId)
  /-- Processes that have added their pids and have not given up. -/
  owners : List Pid
  /-- Children that have not added their pids, forked before and after the timer was set. -/
  early : Nat
  late : Nat
  /-- Delete messages on their way. -/
  posted : List (Pid × MsgId)
  /-- How many messages there were, and which are freed. -/
  msgs : Nat
  freed : List MsgId
  /-- Every process there was. -/
  seen : List Pid
  closes : Nat
  frees : Nat
  /-- Buffers left when the connection is freed. -/
  leaked : Nat

/-- The effects of a call for a message. `do_try_delconn` sets no timer without a pcb. -/
def State.apply (s : State) (pid : Pid) (m : MsgId) (d : Done) : State :=
  let recoder := if d.fdShare then 0 else s.recoder
  { s with
    conn := d.conn
    closes := s.closes + d.closes.toNat
    frees := s.frees + d.frees.toNat
    recoder := recoder
    leaked := if d.frees then s.leaked + recoder else s.leaked
    freed := if d.freesMsg then m :: s.freed else s.freed
    timer := if d.delays && s.pcb then some (pid, m) else s.timer
    early := if d.delays then s.early + s.late else s.early
    late := if d.delays then 0 else s.late }

/-- What happens. -/
inductive Action
  | forkParent (p : Pid)
  /-- A child forked before or after the timer was set adds its pid. -/
  | forkChild (q : Pid) (early : Bool)
  /-- A child ends without having added its pid. -/
  | childEnds (early : Bool)
  /-- A received buffer is put on the recoder list. -/
  | record
  /-- A process closes the connection or ends: its delete message is posted. -/
  | giveUp (p : Pid)
  | process (p : Pid) (m : MsgId)
  | expire
  | losePcb
  deriving DecidableEq, Repr

/-- One step. -/
def act (s : State) : Action → Option State
  | .forkParent p =>
    if p ∈ s.owners then
      some { s with
        conn := { s.conn with forkRef := ssIncForkRef s.conn.forkRef }, late := s.late + 1 }
    else none
  | .forkChild q early =>
    if q ∉ s.seen ∧ 0 < (if early then s.early else s.late) then
      -- `nsfw_add_pid` finds no slot in a full array, and its result is not looked at
      some { s with
        conn := { s.conn with
          pids := if s.conn.pids.length < 32 then q :: s.conn.pids else s.conn.pids }
        owners := q :: s.owners
        seen := q :: s.seen
        early := if early then s.early - 1 else s.early
        late := if early then s.late else s.late - 1 }
    else none
  | .childEnds early =>
    if 0 < (if early then s.early else s.late) then
      some { s with
        early := if early then s.early - 1 else s.early
        late := if early then s.late else s.late - 1 }
    else none
  | .record => if s.owners ≠ [] then some { s with recoder := s.recoder + 1 } else none
  | .giveUp p =>
    if p ∈ s.owners then
      some { s with
        owners := s.owners.erase p, posted := (p, s.msgs) :: s.posted, msgs := s.msgs + 1 }
    else none
  | .process p m =>
    if (p, m) ∈ s.posted then
      some ({ s with posted := s.posted.erase (p, m) }.apply p m (ssRecycleConn s.conn p m))
    else none
  | .expire =>
    match s.timer with
    | none => none
    | some (p, m) =>
      if s.early = 0 then some ({ s with timer := none }.apply p m (ssRecycleConn s.conn p m))
      else none
  | .losePcb => some { s with pcb := false }

/-- A connection that one process has opened. -/
def start (p : Pid) : State where
  conn := ⟨1, [p], .stopped, none⟩
  pcb := true
  recoder := 0
  timer := none
  owners := [p]
  early := 0
  late := 0
  posted := []
  msgs := 0
  freed := []
  seen := [p]
  closes := 0
  frees := 0
  leaked := 0

/-! ## The life cycle -/

/-- The connection is closed once, after the last owner, and freed once, after that, with its
buffers; and each message is on its way, waits for the timer, or is freed once. -/
structure Sound (s : State) : Prop where
  once : s.closes ≤ 1 ∧ s.frees ≤ s.closes
  after : s.closes = 1 → s.owners = [] ∧ s.early + s.late = 0
  ends : s.owners = [] → s.early + s.late = 0 → s.posted = [] → s.timer = none →
    s.closes = 1 ∧ s.frees = 1
  buffers : s.leaked = 0
  messages : (s.posted.map Prod.snd ++ s.timer.toList.map Prod.snd ++ s.freed).Perm
    (List.range s.msgs)

/-- The pid array has room for the child, and the count does not wrap. -/
def Fits (s : State) : Action → Prop
  | .forkParent _ => s.conn.forkRef + 1 < 2 ^ 16
  | .forkChild _ _ => s.conn.pids.length < 32
  | _ => True

/-- A delay is started only with a pcb, and a connection that was closed during a delay has no
buffers. -/
def Meets (s : State) : Action → Prop
  | .process p m => s.conn.StartsDelay p m → s.pcb = true
  | .expire => (s.conn.flag = .again → s.conn.pids = [] → s.pcb = true) ∧
      (s.conn.flag = .stopping → s.recoder = 0)
  | _ => True

/-- The invariant. -/
structure Inv (s : State) : Prop where
  listed : s.closes = 0 → s.conn.pids.Perm (s.owners ++ s.posted.map Prod.fst) ∧
    (s.conn.pids.length + s.early + s.late ≤ s.conn.forkRef ∧ s.conn.forkRef < 2 ^ 16) ∧
    s.conn.flag ≠ .stopping ∧ (s.conn.pids = [] → s.conn.flag ≠ .stopped) ∧ s.frees = 0
  closed : s.closes ≠ 0 → s.closes = 1 ∧ s.owners = [] ∧ s.early + s.late = 0 ∧ s.posted = [] ∧
    s.conn.pids = [] ∧
    (s.frees = 1 ∧ s.conn.flag = .stopped ∨ s.frees = 0 ∧ s.conn.flag = .stopping)
  timer : s.timer.map Prod.snd = s.conn.delayMsg ∧ (s.conn.flag = .stopped ↔ s.conn.delayMsg = none)
  alone : ∀ p m, s.timer = some (p, m) → p ∈ s.seen ∧ p ∉ s.conn.pids
  seen : s.conn.pids.Nodup ∧ ∀ p ∈ s.conn.pids, p ∈ s.seen
  started : s.conn.flag = .started → s.conn.pids = [] → s.late = 0
  buffers : s.leaked = 0
  messages : (s.posted.map Prod.snd ++ s.timer.toList.map Prod.snd ++ s.freed).Perm
    (List.range s.msgs)

theorem Inv.sound {s : State} (inv : Inv s) : Sound s where
  once := by grind [listed, inv.closed]
  after := fun one => ⟨(inv.closed (by omega)).2.1, (inv.closed (by omega)).2.2.1⟩
  ends := by
    intro owners waiting posted timer
    have none_ : s.conn.delayMsg = none := by
      rw [← inv.timer.1, timer]
      rfl
    have stopped := inv.timer.2.mpr none_
    have closed : s.closes ≠ 0 := by
      intro zero
      obtain ⟨listed, -, -, busy, -⟩ := inv.listed zero
      rw [owners, posted] at listed
      exact busy listed.eq_nil stopped
    grind [inv.closed]
  buffers := inv.buffers
  messages := inv.messages

theorem start_inv (p : Pid) : Inv (start p) where
  listed := by simp [start]
  closed := fun not_ => absurd rfl not_
  timer := by simp [start]
  alone := nofun
  seen := by simp [start]
  started := nofun
  buffers := rfl
  messages := .refl _

/-- A connection that is freed when nothing is left that uses it. -/
theorem inv_of_freed {t : State} (once : t.closes = 1 ∧ t.frees = 1) (conn : t.conn = .reset)
    (unused : t.owners = [] ∧ t.early + t.late = 0 ∧ t.posted = []) (timer : t.timer = none)
    (buffers : t.leaked = 0) (messages : (t.posted.map Prod.snd ++ t.timer.toList.map Prod.snd ++
      t.freed).Perm (List.range t.msgs)) : Inv t where
  listed zero := by omega
  closed _ := by simp [once, unused, conn, Conn.reset]
  timer := by simp [conn, timer, Conn.reset]
  alone := by simp [timer]
  seen := by simp [conn, Conn.reset]
  started := by simp [conn, Conn.reset]
  buffers := buffers
  messages := messages

/-- While a process has the connection or is about to, it is not closed. -/
theorem Inv.opened {s : State} (inv : Inv s) (used : s.owners ≠ [] ∨ s.early + s.late ≠ 0) :
    s.closes = 0 := by
  by_contra not_
  obtain ⟨-, owners, waiting, -⟩ := inv.closed not_
  exact used.elim (· owners) (· waiting)

theorem Inv.posted {s : State} (inv : Inv s) {p : Pid} {m : MsgId} (mem : (p, m) ∈ s.posted) :
    s.closes = 0 ∧ p ∈ s.conn.pids := by
  have open_ : s.closes = 0 := by
    by_contra closed
    rw [(inv.closed closed).2.2.2.1] at mem
    cases mem
  refine ⟨open_, (inv.listed open_).1.mem_iff.mpr (List.mem_append_right _ ?_)⟩
  exact List.mem_map_of_mem mem

theorem Inv.messages_erase {s : State} (inv : Inv s) {p : Pid} {m : MsgId}
    (mem : (p, m) ∈ s.posted) :
    (m :: ((s.posted.erase (p, m)).map Prod.snd ++ s.timer.toList.map Prod.snd ++ s.freed)).Perm
      (List.range s.msgs) := by grind [inv.messages, List.perm_cons_erase]

theorem Inv.listed_erase {s : State} (inv : Inv s) {p : Pid} {m : MsgId}
    (mem : (p, m) ∈ s.posted) :
    (s.conn.pids.erase p).Perm (s.owners ++ (s.posted.erase (p, m)).map Prod.fst) := by
  obtain ⟨open_, -⟩ := inv.posted mem
  have out : (s.posted.map Prod.fst).Perm (p :: (s.posted.erase (p, m)).map Prod.fst) :=
    (List.perm_cons_erase mem).map Prod.fst
  have moved : s.conn.pids.Perm (p :: (s.owners ++ (s.posted.erase (p, m)).map Prod.fst)) :=
    (inv.listed open_).1.trans ((out.append_left s.owners).trans List.perm_middle)
  exact (moved.erase p).trans (by rw [List.erase_cons_head])

/-- A delete message keeps the invariant. -/
theorem Inv.process {s : State} (inv : Inv s) {p : Pid} {m : MsgId} (mem : (p, m) ∈ s.posted)
    (meets : s.conn.StartsDelay p m → s.pcb = true) :
    Inv ({ s with posted := s.posted.erase (p, m) }.apply p m (ssRecycleConn s.conn p m)) := by
  obtain ⟨open_, member⟩ := inv.posted mem
  obtain ⟨-, count, running, busy, unfreed⟩ := inv.listed open_
  have erased := inv.listed_erase mem
  have messages := inv.messages_erase mem
  have length := List.length_erase_of_mem member
  have positive := List.length_pos_of_mem member
  have nodup := inv.seen.1.erase p
  have fresh : ∀ q ∈ s.conn.pids.erase p, q ∈ s.seen := fun q in_ =>
    inv.seen.2 q (List.mem_of_mem_erase in_)
  have alone : ∀ q n, s.timer = some (q, n) → q ∈ s.seen ∧ q ∉ s.conn.pids.erase p :=
    fun q n is =>
      ⟨(inv.alone q n is).1, fun in_ => (inv.alone q n is).2 (List.mem_of_mem_erase in_)⟩
  have freed : ((s.posted.erase (p, m)).map Prod.snd ++ s.timer.toList.map Prod.snd ++
      m :: s.freed).Perm (List.range s.msgs) := List.perm_middle.trans messages
  have timer := inv.timer
  have buffers := inv.buffers
  obtain ⟨ref, decremented⟩ : ∃ ref, ssDecForkRef s.conn.forkRef = ref := ⟨_, rfl⟩
  have counted : ref = s.conn.forkRef - 1 := by
    rw [← decremented, ssDecForkRef_eq (by omega) (by omega)]
  rw [ssRecycleConn_member member m decremented]
  by_cases last : ref = 0
  · -- the last process: nothing is left in the array or on its way
    rw [if_pos last]
    have nothing : s.conn.pids.erase p = [] := List.length_eq_zero_iff.mp (by omega)
    obtain ⟨owners, posted⟩ := List.append_eq_nil_iff.mp (nothing ▸ erased).symm.eq_nil
    rw [List.map_eq_nil_iff] at posted
    by_cases stopped : s.conn.flag = .stopped
    · rw [if_pos stopped]
      have unset : s.timer = none := by simpa [timer.2.mp stopped] using timer.1
      exact inv_of_freed (by simp [State.apply, open_, unfreed]) rfl
        ⟨owners, by simp [State.apply]; omega, posted⟩ unset (by simpa [State.apply] using buffers)
        freed
    · rw [if_neg stopped]
      exact {
        listed := by simp [State.apply]
        closed := fun _ => ⟨by simp [State.apply, open_], owners, by simp [State.apply]; omega,
          posted, nothing, .inr ⟨unfreed, rfl⟩⟩
        timer := ⟨timer.1, by simpa [State.apply, timer.2] using stopped⟩
        alone := alone
        seen := ⟨nodup, fresh⟩
        started := nofun
        buffers := buffers
        messages := freed }
  · rw [if_neg last]
    have left : (s.conn.pids.erase p).length + s.early + s.late ≤ ref ∧ ref < 2 ^ 16 := by
      omega
    by_cases empty : s.conn.pids.erase p = [] ∧ s.conn.flag = .stopped
    · -- the first delay
      rw [if_pos empty]
      have unset : s.timer = none := by simpa [timer.2.mp empty.2] using timer.1
      have pcb := meets (.inl ⟨member, decremented ▸ last, empty⟩)
      have armed : (if (true && s.pcb) = true then some (p, m) else s.timer) = some (p, m) := by
        simp [pcb]
      exact {
        listed := fun _ => ⟨erased, by simp [State.apply]; omega, nofun, nofun, unfreed⟩
        closed := fun not_ => absurd open_ not_
        timer := ⟨by simp [State.apply, pcb], by simp [State.apply]⟩
        alone := by grind [inv.seen, State.apply]
        seen := ⟨nodup, fresh⟩
        started := fun _ _ => by simp [State.apply]
        buffers := buffers
        messages := by
          change ((s.posted.erase (p, m)).map Prod.snd ++
            (if (true && s.pcb) = true then some (p, m) else s.timer).toList.map _ ++
            s.freed).Perm _
          rw [unset, Option.toList_none, List.map_nil, List.append_nil] at messages
          rw [armed, List.append_assoc]
          exact List.perm_middle.trans messages }
    · rw [if_neg empty]
      by_cases again : s.conn.pids.erase p = [] ∧ s.conn.flag = .started
      · rw [if_pos again]
        exact {
          listed := fun _ => ⟨erased, left, nofun, nofun, unfreed⟩
          closed := fun not_ => absurd open_ not_
          timer := ⟨timer.1, by simpa [State.apply, again.2] using timer.2⟩
          alone := alone
          seen := ⟨nodup, fresh⟩
          started := nofun
          buffers := buffers
          messages := freed }
      · rw [if_neg again]
        exact {
          listed := fun _ =>
            ⟨erased, left, running, fun nil stopped => empty ⟨nil, stopped⟩, unfreed⟩
          closed := fun not_ => absurd open_ not_
          timer := timer
          alone := alone
          seen := ⟨nodup, fresh⟩
          started := fun started nil => absurd ⟨nil, started⟩ again
          buffers := buffers
          messages := freed }

/-- The timer keeps the invariant. -/
theorem Inv.expire {s : State} (inv : Inv s) {p : Pid} {m : MsgId} (set_ : s.timer = some (p, m))
    (early : s.early = 0) (meets : Meets s .expire) :
    Inv ({ s with timer := none }.apply p m (ssRecycleConn s.conn p m)) := by
  have outside := (inv.alone p m set_).2
  have delayed : s.conn.delayMsg = some m := by rw [← inv.timer.1, set_]; rfl
  have running : s.conn.flag ≠ .stopped := by
    intro stopped
    simp [inv.timer.2.mp stopped] at delayed
  have messages : (m :: (s.posted.map Prod.snd ++ s.freed)).Perm (List.range s.msgs) := by
    grind [inv.messages]
  have freed : (s.posted.map Prod.snd ++ [] ++ m :: s.freed).Perm (List.range s.msgs) := by
    rw [List.append_nil]
    exact List.perm_middle.trans messages
  rw [ssRecycleConn_delayed outside delayed]
  have stops (free : s.closes = 0) (some_ : s.conn.pids ≠ []) :
      Inv ({ s with timer := none }.apply p m
        { conn := { s.conn with flag := .stopped, delayMsg := none } }) := by
    obtain ⟨listed, count, -, -, unfreed⟩ := inv.listed free
    simp only [State.apply]
    constructor <;> grind [Inv]
  have open_ (other : s.conn.flag ≠ .stopping) : s.closes = 0 := by grind [inv.closed]
  unfold ssProcessDelayUp
  cases flag : s.conn.flag with
  | stopped => exact absurd flag running
  | started =>
    have open_ := open_ (by simp [flag])
    obtain ⟨listed, count, -, -, unfreed⟩ := inv.listed open_
    dsimp only
    by_cases nil : s.conn.pids = []
    · obtain ⟨owners, posted⟩ := List.append_eq_nil_iff.mp (nil ▸ listed).symm.eq_nil
      have late := inv.started flag nil
      rw [if_pos nil, ssCloseConnNow, if_pos rfl]
      exact inv_of_freed (by simp [State.apply, open_, unfreed]) rfl
        ⟨owners, by simp [State.apply, early, late], List.map_eq_nil_iff.mp posted⟩ rfl
        (by simpa [State.apply] using inv.buffers) freed
    · rw [if_neg nil]
      exact stops open_ nil
  | again =>
    have open_ := open_ (by simp [flag])
    obtain ⟨listed, count, -, -, unfreed⟩ := inv.listed open_
    dsimp only
    by_cases nil : s.conn.pids = []
    · rw [if_pos nil]
      have pcb := meets.1 flag nil
      have armed : (if (true && s.pcb) = true then some (p, m) else none) = some (p, m) := by
        simp [pcb]
      exact {
        listed := fun _ =>
          ⟨listed, by simpa [State.apply, early] using count, nofun, nofun, unfreed⟩
        closed := fun not_ => absurd open_ not_
        timer := ⟨by simp [State.apply, pcb, delayed], by simp [State.apply, delayed]⟩
        alone := by
          intro q n is
          cases armed.symm.trans is
          exact inv.alone p m set_
        seen := inv.seen
        started := fun _ _ => by simp [State.apply]
        buffers := inv.buffers
        messages := by
          simp only [State.apply]
          grind }
    · rw [if_neg nil]
      exact stops open_ nil
  | stopping =>
    have closed : s.closes ≠ 0 := fun zero => (inv.listed zero).2.2.1 flag
    obtain ⟨one, owners, waiting, posted, nil, frees⟩ := inv.closed closed
    have unfreed : s.frees = 0 := by grind
    exact inv_of_freed (by simp [State.apply, one, unfreed]) rfl ⟨owners, waiting, posted⟩ rfl
      (by simpa [State.apply, meets.2 flag] using inv.buffers) freed

/-- Every step that meets the condition keeps the invariant. -/
theorem Inv.step {s t : State} {a : Action} (inv : Inv s) (fits : Fits s a) (meets : Meets s a)
    (taken : act s a = some t) : Inv t := by
  have listed := inv.listed
  have closed := inv.closed
  cases a with
  | forkParent p =>
    obtain ⟨owner, rfl⟩ := of_guarded taken
    have open_ := inv.opened (.inl (List.ne_nil_of_mem owner))
    obtain ⟨perm, count, rest⟩ := listed open_
    have some_ : s.conn.pids ≠ [] := by
      intro nil
      rw [nil] at perm
      rw [(List.append_eq_nil_iff.mp perm.symm.eq_nil).1] at owner
      cases owner
    have counted : ssIncForkRef s.conn.forkRef = s.conn.forkRef + 1 := ssIncForkRef_eq fits
    have room : s.conn.forkRef + 1 < 2 ^ 16 := fits
    generalize ssIncForkRef s.conn.forkRef = ref at counted ⊢
    exact ⟨fun _ => ⟨perm, by dsimp only; omega, rest⟩, fun not_ => absurd open_ not_, inv.timer,
      inv.alone, inv.seen, fun _ nil => absurd nil some_, inv.buffers, inv.messages⟩
  | forkChild q early =>
    obtain ⟨⟨fresh, waits⟩, rfl⟩ := of_guarded taken
    have room : s.conn.pids.length < 32 := fits
    rw [if_pos room]
    have open_ : s.closes = 0 := inv.opened (.inr (by split at waits <;> omega))
    obtain ⟨perm, count, running, busy, unfreed⟩ := listed open_
    exact {
      listed := fun _ => ⟨perm.cons q, by
        dsimp only
        rw [List.length_cons]
        split at waits <;> simp_all <;> omega,
        running, nofun, unfreed⟩
      closed := fun not_ => absurd open_ not_
      timer := inv.timer
      alone := by grind [inv.alone]
      seen := ⟨List.nodup_cons.mpr ⟨fun mem => fresh (inv.seen.2 q mem), inv.seen.1⟩, by
        grind [inv.seen]⟩
      started := nofun
      buffers := inv.buffers
      messages := inv.messages }
  | childEnds early =>
    obtain ⟨waits, rfl⟩ := of_guarded taken
    have open_ : s.closes = 0 := inv.opened (.inr (by split at waits <;> omega))
    obtain ⟨perm, count, rest⟩ := listed open_
    refine ⟨fun _ => ⟨perm, ?_, rest⟩, fun not_ => absurd open_ not_, inv.timer, inv.alone,
      inv.seen, fun started nil => ?_, inv.buffers, inv.messages⟩
    · dsimp only
      split <;> omega
    · have late := inv.started started nil
      dsimp only
      split <;> omega
  | record =>
    obtain ⟨-, rfl⟩ := of_guarded taken
    exact ⟨listed, closed, inv.timer, inv.alone, inv.seen, inv.started, inv.buffers, inv.messages⟩
  | giveUp p =>
    obtain ⟨owner, rfl⟩ := of_guarded taken
    have open_ := inv.opened (.inl (List.ne_nil_of_mem owner))
    obtain ⟨perm, rest⟩ := listed open_
    refine ⟨fun _ => ⟨?_, rest⟩, fun not_ => absurd open_ not_, inv.timer, inv.alone, inv.seen,
      inv.started, inv.buffers, ?_⟩
    · grind
    · refine List.Perm.trans ?_ (List.range_succ ▸ List.perm_append_singleton _ _).symm
      exact inv.messages.cons _
  | process p m =>
    obtain ⟨mem, rfl⟩ := of_guarded taken
    exact inv.process mem meets
  | expire => grind [act, inv.expire]
  | losePcb =>
    obtain rfl := Option.some.inj taken
    exact ⟨listed, closed, inv.timer, inv.alone, inv.seen, inv.started, inv.buffers, inv.messages⟩

/-- A step that does not meet the condition loses a message or leaves buffers. -/
theorem Inv.unsound {s t : State} {a : Action} (inv : Inv s) (fails : ¬Meets s a)
    (taken : act s a = some t) : ¬Sound t := by
  intro sound
  have before := inv.messages.length_eq
  have after := sound.messages.length_eq
  simp only [List.length_append, List.length_map, List.length_range] at before after
  cases a with
  | process p m =>
    obtain ⟨mem, rfl⟩ := of_guarded taken
    simp only [Meets, Classical.not_imp, Bool.not_eq_true] at fails
    have kept := fails.1.kept
    grind [State.apply]
  | expire =>
    simp only [act] at taken
    split at taken
    · cases taken
    rename_i p m set_
    obtain ⟨early, rfl⟩ := of_guarded taken
    have delayed : s.conn.delayMsg = some m := by rw [← inv.timer.1, set_]; rfl
    have result := ssRecycleConn_delayed (inv.alone p m set_).2 delayed
    grind [ssProcessDelayUp, Meets, State.apply, sound.buffers]
  | _ => exact fails trivial

/-- In every run in which the processes fit, delays are started with a pcb, and connections closed
during a delay have no buffers, the life cycle is sound; and with one step more that fits, exactly
if that step meets the condition. -/
theorem life_cycle_iff (p : Pid) (s : State) :
    (Runs act (fun s a => Fits s a ∧ Meets s a) (start p) s → Sound s) ∧
      ∀ a t, Runs act (fun s a => Fits s a ∧ Meets s a) (start p) s → act s a = some t →
        Fits s a → (Sound t ↔ Meets s a) := by
  have inv (run : Runs act (fun s a => Fits s a ∧ Meets s a) (start p) s) : Inv s :=
    run.invariant (P := Inv) (start_inv p) fun _ _ _ inv meets taken =>
      inv.step meets.1 meets.2 taken
  refine ⟨fun run => (inv run).sound, fun a t run taken fits => ⟨?_, ?_⟩⟩
  · intro sound
    by_contra fails
    exact (inv run).unsound fails taken sound
  · exact fun meets => ((inv run).step fits meets taken).sound

/-- The parent closes while its child has not added its pid, and the pcb is lost: no timer is set,
the message is lost, and the connection is never closed. -/
theorem delay_without_pcb :
    ∃ s, Runs act (fun _ _ => True) (start 1) s ∧ s.owners = [] ∧ s.early + s.late = 0 ∧
      s.posted = [] ∧ s.timer = none ∧ s.closes = 0 ∧ s.freed = [] ∧ s.msgs = 1 := by
  have executed : ∃ s, Runs act (fun _ _ => True) (start 1) s ∧
      decide (s.owners = [] ∧ s.early + s.late = 0 ∧ s.posted = [] ∧ s.timer = none ∧
        s.closes = 0 ∧ s.freed = [] ∧ s.msgs = 1) = true :=
    exists_runs_of_execute (fun _ _ => true)
      [.forkParent 1, .losePcb, .giveUp 1, .process 1 0, .childEnds true]
      (fun _ _ _ => trivial) (by decide +kernel)
  simpa only [decide_eq_true_eq] using executed

end Dmm.Netconn.Recycle
