import Dmm.Lib.Run
import Dmm.Tcp.WriteInv

/-!
# Release of queued write data

The messages of the queue are freed when they are written, or by the error callback, or not at
all: the error callback leaves the queue of a non-blocking connection, `do_delconn` tries to write
what is left only once, and `common_pcb_reset` forgets the queue.
-/

namespace Dmm.Tcp

open Dmm.Chain Dmm.Ledger

/-! ## The life of a connection -/

/-- A connection, and how far its deletion has come. -/
structure Life where
  stack : Stack
  deleted : Bool
  freed : Bool

/-- What happens to a connection. -/
inductive LifeAction
  | write (m : MsgId) (msg : Msg) (lwip : Lwip)
  | sent (lwip : Lwip)
  | poll (lwip : Lwip)
  | err (err : Int) (lwip : Lwip)
  | delete (m : MsgId) (lwip : Lwip)
  /-- The connection is freed, after it was deleted. -/
  | free

/-- One of them; nothing happens to a connection that is freed. -/
def lifeAct (l : Life) (a : LifeAction) : Option Life :=
  if l.freed then none
  else match a with
    | .write m msg lwip =>
      (doWriteMsg lwip m (l.stack.receive m msg)).map fun s => { l with stack := s }
    | .sent lwip => (splSentTcp lwip l.stack).map fun s => { l with stack := s }
    | .poll lwip => (splPollTcp lwip l.stack).map fun s => { l with stack := s }
    | .err err lwip => some { l with stack := splErrTcp lwip err l.stack }
    | .delete m lwip =>
      (doTryDelconn lwip m l.stack).map fun s => { l with stack := s, deleted := true }
    | .free =>
      if l.deleted then some { l with stack := commonPcbReset l.stack, freed := true } else none

/-- A message that arrives is not one that is still in the queue. -/
def LifeOffered (l : Life) : LifeAction → Prop
  | .write m _ _ => m ∉ ids l.stack.unfinished
  | _ => True

/-- A connection is freed without a queue. -/
def LifeMeets (l : Life) : LifeAction → Prop
  | .free => l.stack.conn.msgHead = none
  | _ => True

/-- Nothing is freed that is not there, and nothing is left when the connection is freed. -/
structure Released (l : Life) : Prop where
  atMostOnce : ∃ held, Balanced Event.takes Event.gives l.stack.log held
  all : l.freed = true →
    (l.stack.log.filterMap Event.takes).Perm (l.stack.log.filterMap Event.gives)

/-- A connection in any state to which nothing was written. -/
structure Unwritten (s : Stack) : Prop where
  empty : Inv s [] []
  fresh : s.arrived = []

/-! ## The error callback -/

/-- What the error callback needs of the queue. -/
structure Loaded (s : Stack) (q : Queue) : Prop where
  linked : Linked s q
  balanced : Balanced Event.takes Event.gives s.log (items q)
  current : q ≠ [] → s.conn.currentMsg = (ids q).head?
  busy : q ≠ [] → s.conn.state = .write
  short : q.length ≤ s.arrived.length
  original : ids s.unfinished = ids q

/-- The connection has lost its pcb; what is left in the queue stays there. -/
structure Dead (s : Stack) (q : Queue) : Prop where
  pcb : s.conn.privateData = false
  state : s.conn.state = .none
  linked : Linked s q
  balanced : Balanced Event.takes Event.gives s.log (items q)
  original : ids s.unfinished = ids q

theorem Inv.loaded {s : Stack} {done : List Pbuf} {q : Queue} (inv : Inv s done q) :
    Loaded s q where
  linked := inv.linked
  balanced := inv.balanced
  current := inv.current
  busy := fun some => (inv.busy some).1
  short := by
    have length := congrArg List.length inv.ids_unfinished
    simp only [ids, Stack.unfinished, List.length_map, List.length_drop] at length
    omega
  original := inv.ids_unfinished

/-- The events of freeing a message after its pbufs. -/
def freeing (m : MsgId) (p : List Pbuf) : List Event :=
  (p.map fun b => .freedPbuf b.id) ++ [.freedMsg m]

theorem Balanced.free {log : List Event} {held : List Item} {m : MsgId} {p : List Pbuf}
    (balanced : Balanced Event.takes Event.gives log (.msg m :: pbufItems p ++ held)) :
    Balanced Event.takes Event.gives (log ++ freeing m p) held := by
  have given : (freeing m p).filterMap Event.gives = pbufItems p ++ [.msg m] := by
    simp [freeing, Event.gives, pbufItems, List.filterMap_map, Function.comp_def]
  have taken : (freeing m p).filterMap Event.takes = [] := by
    simp [freeing, Event.takes, List.filterMap_eq_nil_iff]
  have moved : Balanced Event.takes Event.gives log
      ((freeing m p).filterMap Event.gives ++ held) := by
    rw [given]
    apply balanced.perm
    apply List.Perm.append_right
    exact (List.perm_append_singleton _ _).symm
  exact moved.give taken

theorem Stack.free_log (s : Stack) (m : MsgId) (p : List Pbuf) :
    ((s.freePbufs p).freeMsg (some m)).log = s.log ++ freeing m p := by
  simp [freePbufs, freeMsg, freeing]

/-- The loop of `spl_err_tcp` frees the queue. -/
theorem freeQueue_balanced {n : Nat} {s : Stack} {q : Queue} (enough : q.length ≤ n)
    (chained : Chained (fun m => (s.msgs m).next) (ids q))
    (pbufs : ∀ e ∈ q, (s.msgs e.1).p = e.2)
    (balanced : Balanced Event.takes Event.gives s.log (items q)) :
    Balanced Event.takes Event.gives (freeQueue n (ids q).head? s).log [] := by
  induction q generalizing n s with
  | nil =>
    cases n with
    | zero => exact balanced
    | succ n => exact balanced
  | cons e q ih =>
    obtain ⟨m, p⟩ := e
    cases n with
    | zero => exact absurd enough (by simp)
    | succ n =>
      have next : (s.msgs m).next = (ids q).head? := chained.1
      have has : (s.msgs m).p = p := pbufs (m, p) (by simp)
      have first : Balanced Event.takes Event.gives s.log (.msg m :: pbufItems p ++ items q) :=
        balanced
      show Balanced _ _ (freeQueue n (s.msgs m).next
        ((s.freePbufs (s.msgs m).p).freeMsg (some m))).log []
      rw [next, has]
      refine @ih n ((s.freePbufs p).freeMsg (some m)) (by simpa using enough) chained.2 ?_ ?_
      · exact fun e mem => pbufs e (List.mem_cons_of_mem _ mem)
      · rw [s.free_log]
        exact Balanced.free first

theorem freeQueue_rest (n : Nat) (m : Option MsgId) (s : Stack) :
    freeQueue n m s = { s with log := (freeQueue n m s).log } := by
  induction n generalizing m s with
  | zero => rfl
  | succ n ih =>
    cases m with
    | none => rfl
    | some m =>
      show freeQueue n _ _ = _
      rw [ih]
      rfl

/-- The error callback does not change the pointers otherwise. -/
theorem errConn_same (lwip : Lwip) (err : Int) (conn : Conn) :
    (errConn lwip err conn).state = .none ∧ (errConn lwip err conn).privateData = false ∧
      (errConn lwip err conn).msgHead = conn.msgHead ∧
      (errConn lwip err conn).msgTail = conn.msgTail ∧
      (errConn lwip err conn).currentMsg = conn.currentMsg ∧
      (errConn lwip err conn).nonblocking = conn.nonblocking := by
  unfold errConn setSafeErr
  split <;> simp

/-- The queue stays when the error callback does not free it. -/
theorem Loaded.dead {s t : Stack} {q : Queue} (loaded : Loaded s q)
    (pcb : t.conn.privateData = false) (state : t.conn.state = .none)
    (head : t.conn.msgHead = s.conn.msgHead) (tail : t.conn.msgTail = s.conn.msgTail)
    (rest : t.msgs = s.msgs ∧ t.log = s.log ∧ t.arrived = s.arrived ∧ t.left = s.left) :
    Dead t q where
  pcb := pcb
  state := state
  linked := loaded.linked.congr head tail rest.1
  balanced := by
    rw [rest.2.1]
    exact loaded.balanced
  original := by
    rw [Stack.unfinished, rest.2.2.1, rest.2.2.2]
    exact loaded.original

/-- The queue is freed. -/
theorem Dead.releaseQueue {s : Stack} {q : Queue} (dead : Dead s q)
    (short : q.length ≤ s.arrived.length) : Dead (releaseQueue s) [] := by
  unfold Tcp.releaseQueue
  dsimp only
  by_cases unset : s.conn.msgHead = none
  · have nothing : q = [] := by
      cases q with
      | nil => rfl
      | cons e q =>
        have head := dead.linked.head
        rw [unset] at head
        cases head
    subst nothing
    rw [if_pos unset]
    exact ⟨dead.pcb, dead.state, dead.linked.congr rfl rfl rfl, dead.balanced, dead.original⟩
  · have freed := @freeQueue_balanced s.arrived.length
      { s with conn := { s.conn with currentMsg := none } } q short dead.linked.chained
      dead.linked.pbufs dead.balanced
    rw [← dead.linked.head] at freed
    rw [if_neg unset, freeQueue_rest]
    refine ⟨dead.pcb, dead.state,
      ⟨rfl, rfl, trivial, List.nodup_nil, fun e mem => absurd mem (by simp)⟩, freed, ?_⟩
    show ids (s.arrived.drop s.arrived.length) = []
    rw [List.drop_length]
    rfl

/-- After the error callback the connection has lost its pcb. The queue of a blocking connection is
freed, and that of a non-blocking one stays. -/
theorem splErrTcp_dead (lwip : Lwip) (err : Int) {s : Stack} {q : Queue} (loaded : Loaded s q) :
    Dead (splErrTcp lwip err s) (if s.conn.nonblocking then q else []) := by
  have same := errConn_same lwip err s.conn
  have kept : Dead { s with conn := errConn lwip err s.conn } q :=
    loaded.dead same.2.1 same.1 same.2.2.1 same.2.2.2.1 ⟨rfl, rfl, rfl, rfl⟩
  unfold splErrTcp
  dsimp only
  rw [same.2.2.2.2.1, same.2.2.2.2.2]
  by_cases nonblocking : s.conn.nonblocking = true
  · rw [if_pos nonblocking, if_neg (by simp [nonblocking])]
    exact kept
  rw [if_neg nonblocking]
  split
  case isTrue => exact kept.releaseQueue loaded.short
  case isFalse idle =>
    have nothing : q = [] := by
      by_contra some
      have current := loaded.current some
      refine idle ⟨.inl (loaded.busy some), by simpa using nonblocking, ?_⟩
      rw [current]
      cases q with
      | nil => exact absurd rfl some
      | cons e q => simp [ids]
    exact nothing ▸ kept

/-! ## Dropped messages -/

theorem dropWrite_msgs (s : Stack) {m m' : MsgId} (other : m' ≠ m) (msg : Msg) (conn : Conn) :
    (dropWrite m { s.receive m msg with conn := conn }).msgs m' = s.msgs m' := by
  simp [dropWrite, Stack.freeMsg, Stack.setP, Stack.freePbufs, Stack.receive, other]

theorem dropWrite_balanced {s : Stack} {held : List Item}
    (balanced : Balanced Event.takes Event.gives s.log held) (m : MsgId) (msg : Msg)
    (conn : Conn) :
    Balanced Event.takes Event.gives
      (dropWrite m { s.receive m msg with conn := conn }).log held := by
  have log : (dropWrite m { s.receive m msg with conn := conn }).log =
      s.log ++ (.postedMsg m :: msg.p.map fun q => .postedPbuf q.id) ++ freeing m msg.p := by
    simp [dropWrite, Stack.freeMsg, Stack.setP, Stack.freePbufs, Stack.receive, freeing]
  rw [log]
  apply Balanced.free
  exact (Balanced.receive balanced m msg.p).perm List.perm_append_comm

/-- A dropped message keeps the invariant. -/
theorem Inv.drop {s : Stack} {done : List Pbuf} {q : Queue} (inv : Inv s done q) {m : MsgId}
    (fresh : m ∉ ids q) (msg : Msg) {conn : Conn}
    (same : conn = s.conn ∨ q = [] ∧ s.conn.currentMsg = none ∧
      conn = { s.conn with state := .write }) :
    Inv (dropWrite m { s.receive m msg with conn := conn }) done q where
  linked := by
    have pointers : conn.msgHead = s.conn.msgHead ∧ conn.msgTail = s.conn.msgTail := by
      rcases same with rfl | ⟨_, _, rfl⟩ <;> exact ⟨rfl, rfl⟩
    apply inv.linked.agree pointers.1 pointers.2
    intro m' mem
    have other : m' ≠ m := fun same => fresh (same ▸ mem)
    exact dropWrite_msgs s other msg conn
  original := inv.original
  left_le := inv.left_le
  current := by
    intro some
    rcases same with rfl | ⟨nothing, _⟩
    · exact inv.current some
    · exact absurd nothing some
  busy := by
    intro some
    rcases same with rfl | ⟨nothing, _⟩
    · exact inv.busy some
    · exact absurd nothing some
  idle := by
    intro nothing writing
    rcases same with rfl | ⟨_, none, rfl⟩
    · exact inv.idle nothing writing
    · exact none
  offset := by
    have same : conn.writeOffset = s.conn.writeOffset := by
      rcases same with rfl | ⟨_, _, rfl⟩ <;> rfl
    show conn.writeOffset = 0 ∨ _
    rw [show (dropWrite m { s.receive m msg with conn := conn }).conn.writeOffset =
      s.conn.writeOffset from same, same]
    exact inv.offset
  started := inv.started
  sent := by
    have same : (dropWrite m { s.receive m msg with conn := conn }).conn.writeOffset =
        s.conn.writeOffset := by
      rcases same with rfl | ⟨_, _, rfl⟩ <;> rfl
    rw [same]
    exact inv.sent
  balanced := dropWrite_balanced inv.balanced m msg conn

/-- A dropped message leaves the queue of a connection without a pcb. -/
theorem Dead.drop {s : Stack} {q : Queue} (dead : Dead s q) {m : MsgId} (fresh : m ∉ ids q)
    (msg : Msg) : Dead (dropWrite m (s.receive m msg)) q where
  pcb := dead.pcb
  state := dead.state
  linked := by
    refine dead.linked.agree (t := dropWrite m (s.receive m msg)) rfl rfl fun m' mem => ?_
    have other : m' ≠ m := fun same => fresh (same ▸ mem)
    exact dropWrite_msgs s other msg s.conn
  balanced := dropWrite_balanced dead.balanced m msg s.conn
  original := dead.original

/-! ## Every step -/

/-- Each thing that is not freed is in the queue. -/
inductive Accounted (s : Stack) : Prop
  /-- The connection has its pcb, or nothing is queued. -/
  | alive {done : List Pbuf} {q : Queue} (inv : Inv s done q)
  | dead {q : Queue} (dead : Dead s q)

theorem CallInv.accounted {lwip : Lwip} {s t : Stack} (call : CallInv lwip s t) :
    Accounted t := by
  cases call with
  | kept inv kept idle => exact .alive inv
  | @aborted t done q n inv some kept notOk notMem =>
    have loaded := inv.loaded
    have offset : Loaded (t.setOffset 0) q :=
      ⟨loaded.linked.congr rfl rfl rfl, loaded.balanced, loaded.current, loaded.busy,
        loaded.short, loaded.original⟩
    exact .dead (splErrTcp_dead lwip errAbrt offset)

theorem doWritemore_accounted {lwip : Lwip} {s t : Stack} {done : List Pbuf} {q : Queue}
    (inv : Inv s done q) (returns : doWritemore lwip s = some t) : Accounted t := by
  obtain ⟨u, result, call⟩ := doWritemore_inv lwip inv
  obtain rfl := Option.some.inj (returns.symm.trans result)
  cases call with
  | inl same => exact .alive (same ▸ inv)
  | inr call => exact call.accounted

/-- A write message keeps the account. -/
theorem doWriteMsg_accounted {lwip : Lwip} {s t : Stack} (accounted : Accounted s) {m : MsgId}
    {msg : Msg} (fresh : m ∉ ids s.unfinished)
    (taken : doWriteMsg lwip m (s.receive m msg) = some t) : Accounted t := by
  cases accounted with
  | alive inv =>
    rw [inv.ids_unfinished] at fresh
    have result := doWriteMsg_result lwip inv m msg
    rw [taken] at result
    generalize outcome : some t = given at result
    cases result with
    | dropped refused =>
      obtain rfl := Option.some.inj outcome
      exact .alive (inv.drop fresh msg (.inl rfl))
    | empty zero nothing current =>
      obtain rfl := Option.some.inj outcome
      exact .alive (inv.drop fresh msg (.inr ⟨nothing, current, rfl⟩))
    | enqueued tail last =>
      exact doWritemore_accounted (inv.enqueue last fresh msg) outcome.symm
    | first nothing pcb len =>
      subst nothing
      exact doWritemore_accounted (inv.first pcb m msg) outcome.symm
  | dead dead =>
    rw [dead.original] at fresh
    have noPcb : ¬ (s.receive m msg).conn.privateData = true := by
      rw [show (s.receive m msg).conn.privateData = false from dead.pcb]
      exact Bool.false_ne_true
    unfold doWriteMsg at taken
    rw [if_neg noPcb] at taken
    obtain rfl := Option.some.inj taken
    exact .dead (dead.drop fresh msg)

theorem doCloseInternal_accounted {s t : Stack} {q : Queue} (linked : Linked s q)
    (balanced : Balanced Event.takes Event.gives s.log (items q))
    (original : ids s.unfinished = ids q) (closing : s.conn.state = .close)
    (taken : doCloseInternal s = some t) : Accounted t := by
  unfold doCloseInternal at taken
  rw [if_neg (not_not.mpr closing)] at taken
  split at taken
  · obtain rfl := Option.some.inj taken
    exact .dead ⟨rfl, rfl, linked.congr rfl rfl rfl, balanced, original⟩
  · cases taken

theorem writeCallback_accounted {lwip : Lwip} {s t : Stack} (accounted : Accounted s)
    (taken : writeCallback lwip s = some t) : Accounted t := by
  unfold writeCallback at taken
  cases accounted with
  | alive inv =>
    split at taken
    · exact doWritemore_accounted inv taken
    · split at taken
      case isTrue closing =>
        exact doCloseInternal_accounted inv.linked inv.balanced inv.ids_unfinished closing taken
      case isFalse =>
        obtain rfl := Option.some.inj taken
        exact .alive inv
  | dead dead =>
    rw [dead.state] at taken
    obtain rfl := Option.some.inj taken
    exact .dead dead

theorem splErrTcp_accounted {lwip : Lwip} {err : Int} {s : Stack} (accounted : Accounted s) :
    Accounted (splErrTcp lwip err s) := by
  cases accounted with
  | alive inv => exact .dead (splErrTcp_dead lwip err inv.loaded)
  | @dead q dead =>
    have same := errConn_same lwip err s.conn
    have result : splErrTcp lwip err s = { s with conn := errConn lwip err s.conn } := by
      unfold splErrTcp
      rw [dead.state]
      rfl
    rw [result]
    exact .dead ⟨same.2.1, same.1, dead.linked.congr same.2.2.1 same.2.2.2.1 rfl, dead.balanced,
      dead.original⟩

/-- Deletion keeps the account. -/
theorem doTryDelconn_accounted {lwip : Lwip} {m : MsgId} {s t : Stack}
    (accounted : Accounted s) (taken : doTryDelconn lwip m s = some t) : Accounted t := by
  unfold doTryDelconn at taken
  cases accounted with
  | dead dead =>
    rw [dead.pcb] at taken
    obtain rfl := Option.some.inj taken
    exact .dead dead
  | @alive done q inv =>
    split at taken
    swap
    · obtain rfl := Option.some.inj taken
      exact .alive inv
    unfold doDelconn at taken
    split at taken
    · obtain rfl := Option.some.inj taken
      exact .alive inv
    have started : Inv { s with conn := { s.conn with closeProgress := true } } done q :=
      ⟨inv.linked.congr rfl rfl rfl, inv.original, inv.left_le, inv.current, inv.busy, inv.idle,
        inv.offset, inv.started, inv.sent, inv.balanced⟩
    have closes {u : Stack} (accounted : Accounted u)
        (closed : doCloseInternal { u with
          conn := { u.conn with state := .close, currentMsg := some m } } = some t) :
        Accounted t := by
      cases accounted with
      | @alive done q inv =>
        have linked : Linked { u with
            conn := { u.conn with state := .close, currentMsg := some m } } q :=
          inv.linked.congr rfl rfl rfl
        exact doCloseInternal_accounted linked inv.balanced inv.ids_unfinished rfl closed
      | @dead q dead =>
        have linked : Linked { u with
            conn := { u.conn with state := .close, currentMsg := some m } } q :=
          dead.linked.congr rfl rfl rfl
        exact doCloseInternal_accounted linked dead.balanced dead.original rfl closed
    dsimp only at taken
    split at taken
    · obtain ⟨u, wrote, closed⟩ := Option.bind_eq_some_iff.mp taken
      exact closes (doWritemore_accounted started wrote) closed
    · exact closes (.alive started) taken

theorem Accounted.queue {s : Stack} (accounted : Accounted s) :
    ∃ q, Linked s q ∧ Balanced Event.takes Event.gives s.log (items q) := by
  cases accounted with
  | alive inv => exact ⟨_, inv.linked, inv.balanced⟩
  | dead dead => exact ⟨_, dead.linked, dead.balanced⟩

/-- Everything is freed exactly when the queue is empty. -/
theorem Accounted.all_iff {s : Stack} (accounted : Accounted s) :
    (s.log.filterMap Event.takes).Perm (s.log.filterMap Event.gives) ↔
      s.conn.msgHead = none := by
  obtain ⟨q, linked, balanced⟩ := accounted.queue
  rw [← balanced_nil, linked.head]
  cases q with
  | nil => exact ⟨fun _ => rfl, fun _ => balanced⟩
  | cons e q =>
    constructor
    · intro settled
      have count := (balanced.unique settled).length_eq
      simp [items] at count
    · intro none
      cases none

/-- Every action but the last keeps the account. -/
theorem lifeAct_accounted {l u : Life} (accounted : Accounted l.stack) {a : LifeAction}
    (offered : LifeOffered l a) (more : a ≠ .free) (taken : lifeAct l a = some u) :
    Accounted u.stack ∧ u.freed = false := by
  unfold lifeAct at taken
  split at taken
  · cases taken
  case isFalse alive =>
    have notFreed : l.freed = false := by simpa using alive
    cases a with
    | write m msg lwip =>
      obtain ⟨s, acts, rfl⟩ := Option.map_eq_some_iff.mp taken
      exact ⟨doWriteMsg_accounted accounted offered acts, notFreed⟩
    | sent lwip =>
      obtain ⟨s, acts, rfl⟩ := Option.map_eq_some_iff.mp taken
      exact ⟨writeCallback_accounted accounted acts, notFreed⟩
    | poll lwip =>
      obtain ⟨s, acts, rfl⟩ := Option.map_eq_some_iff.mp taken
      exact ⟨writeCallback_accounted accounted acts, notFreed⟩
    | err err lwip =>
      obtain rfl := Option.some.inj taken
      exact ⟨splErrTcp_accounted accounted, notFreed⟩
    | delete m lwip =>
      obtain ⟨s, acts, rfl⟩ := Option.map_eq_some_iff.mp taken
      exact ⟨doTryDelconn_accounted accounted acts, notFreed⟩
    | free => exact absurd rfl more

theorem lifeAct_free {l u : Life} (taken : lifeAct l .free = some u) :
    u.stack.log = l.stack.log ∧ u.freed = true := by
  unfold lifeAct at taken
  split at taken
  · cases taken
  · dsimp only at taken
    split at taken
    · obtain rfl := Option.some.inj taken
      exact ⟨rfl, rfl⟩
    · cases taken

/-- What holds along a run: things are accounted for until the connection is freed, and then
released. -/
structure Tracked (l : Life) : Prop where
  before : l.freed = false → Accounted l.stack
  after : l.freed = true →
    (l.stack.log.filterMap Event.takes).Perm (l.stack.log.filterMap Event.gives)

theorem Tracked.released {l : Life} (tracked : Tracked l) : Released l := by
  cases freed : l.freed with
  | true => exact ⟨⟨[], balanced_nil.mpr (tracked.after freed)⟩, tracked.after⟩
  | false =>
    obtain ⟨q, _, balanced⟩ := (tracked.before freed).queue
    exact ⟨⟨items q, balanced⟩, tracked.after⟩

theorem not_freed_of_lifeAct {l u : Life} {a : LifeAction} (taken : lifeAct l a = some u) :
    l.freed = false := by
  unfold lifeAct at taken
  split at taken
  · cases taken
  case isFalse alive => simpa using alive

/-- **Queued write data is released exactly once, exactly if the queue is empty when the connection
is freed.** In every run of a connection that was in any state when it was first written to, of
writes, callbacks, errors and its deletion, in which it is freed only without a queue, nothing is
freed twice and nothing is left after it is freed; and each further step has this property if and
only if it meets the condition. -/
theorem writes_released_iff {start : Stack} (unwritten : Unwritten start) {l : Life}
    (run : Runs lifeAct (fun l a => LifeOffered l a ∧ LifeMeets l a) ⟨start, false, false⟩ l) :
    Released l ∧ ∀ a u, LifeOffered l a → lifeAct l a = some u →
      (Released u ↔ LifeMeets l a) := by
  have step {l u : Life} {a : LifeAction} (tracked : Tracked l) (offered : LifeOffered l a)
      (taken : lifeAct l a = some u) : LifeMeets l a ↔ Tracked u := by
    have accounted := tracked.before (not_freed_of_lifeAct taken)
    by_cases last : a = .free
    · subst last
      obtain ⟨log, freed⟩ := lifeAct_free taken
      have all := accounted.all_iff
      rw [← log] at all
      constructor
      · intro meets
        exact ⟨fun alive => absurd (alive.symm.trans freed) Bool.false_ne_true,
          fun _ => all.mpr meets⟩
      · intro tracked
        exact all.mp (tracked.after freed)
    · obtain ⟨kept, alive⟩ := lifeAct_accounted accounted offered last taken
      have meets : LifeMeets l a := by
        cases a <;> trivial
      exact iff_of_true meets
        ⟨fun _ => kept, fun freed => absurd (alive.symm.trans freed) Bool.false_ne_true⟩
  have tracked : Tracked l := by
    refine run.invariant (P := Tracked) ?_ ?_
    · exact ⟨fun _ => .alive unwritten.empty, fun freed => absurd freed Bool.false_ne_true⟩
    · intro t a u before meets taken
      exact (step before meets.1 taken).mp meets.2
  refine ⟨tracked.released, fun a u offered taken => ?_⟩
  rw [step tracked offered taken]
  constructor
  · intro released
    refine ⟨fun alive => ?_, released.all⟩
    by_cases last : a = .free
    · subst last
      exact absurd (alive.symm.trans (lifeAct_free taken).2) Bool.false_ne_true
    · exact (lifeAct_accounted (tracked.before (not_freed_of_lifeAct taken)) offered last taken).1
  · exact Tracked.released

theorem connectedStack_unwritten (nonblocking : Bool) : Unwritten (connectedStack nonblocking) :=
  ⟨connectedStack_inv nonblocking, rfl⟩

/-- A message of one pbuf of one byte. -/
def oneByte : Msg := ⟨[⟨0, [1], by decide⟩], none, 1⟩

/-- lwIP with so much room in the send buffer. -/
def roomFor (bytes : Nat) : Lwip := ⟨fun _ => bytes, fun _ => errOk, false, fun _ => false⟩

/-- A connection whose queue is written when it is deleted. -/
theorem writes_released_when_written :
    ∃ l, Runs lifeAct (fun l a => LifeOffered l a ∧ LifeMeets l a)
        ⟨connectedStack false, false, false⟩ l ∧
      l.freed = true ∧ Released l := by
  have written : Runs lifeAct (fun l a => LifeOffered l a ∧ LifeMeets l a)
      ⟨connectedStack false, false, false⟩ _ :=
    Runs.start.step (.write 7 oneByte (roomFor 0)) ⟨by simp [LifeOffered, connectedStack, ids,
      Stack.unfinished], trivial⟩ rfl
  have deleted := written.step (.delete 8 (roomFor 10)) ⟨by trivial, by trivial⟩ rfl
  have freed := deleted.step .free ⟨by trivial, by rfl⟩ rfl
  exact ⟨_, freed, rfl, (writes_released_iff (connectedStack_unwritten false) freed).1⟩

/-- What is left in the queue is forgotten: on a non-blocking connection that fails with a message
in its queue, and on a blocking one that is deleted while its send buffer is full. -/
theorem queue_forgotten :
    (∃ l, Runs lifeAct LifeOffered ⟨connectedStack true, false, false⟩ l ∧
      l.freed = true ∧ l.stack.log = [.postedMsg 7, .postedPbuf 0] ∧ ¬ Released l) ∧
    ∃ l, Runs lifeAct LifeOffered ⟨connectedStack false, false, false⟩ l ∧
      l.freed = true ∧ l.stack.log = [.postedMsg 7, .postedPbuf 0] ∧ ¬ Released l := by
  have kept {l : Life} (freed : l.freed = true)
      (log : l.stack.log = [.postedMsg 7, .postedPbuf 0]) : ¬ Released l := by
    intro released
    have count := (released.all freed).length_eq
    rw [log] at count
    exact absurd count (by decide)
  constructor
  · have written : Runs lifeAct LifeOffered ⟨connectedStack true, false, false⟩ _ :=
      Runs.start.step (.write 7 oneByte (roomFor 0)) (by simp [LifeOffered, connectedStack, ids,
        Stack.unfinished]) rfl
    have failed := written.step (.err errAbrt (roomFor 0)) (by trivial) rfl
    have deleted := failed.step (.delete 8 (roomFor 0)) (by trivial) rfl
    have freed := deleted.step .free (by trivial) rfl
    exact ⟨_, freed, rfl, rfl, kept rfl rfl⟩
  · have written : Runs lifeAct LifeOffered ⟨connectedStack false, false, false⟩ _ :=
      Runs.start.step (.write 7 oneByte (roomFor 0)) (by simp [LifeOffered, connectedStack, ids,
        Stack.unfinished]) rfl
    have deleted := written.step (.delete 8 (roomFor 0)) (by trivial) rfl
    have freed := deleted.step .free (by trivial) rfl
    exact ⟨_, freed, rfl, rfl, kept rfl rfl⟩

end Dmm.Tcp
