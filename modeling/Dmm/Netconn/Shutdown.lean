import Dmm.Lib.Run
import Dmm.Tcp.WriteRelease

/-!
# Shutting down a connection

`do_close` serves `shutdown` and `do_delconn` a delete message; both come to `do_close_internal`,
which takes the pcb off the connection by `unlink_pcb` whatever was shut down. Every later message
is dropped for a connection without a pcb.

The state keeps a record of what lwIP was told about the pcb.
-/

namespace Dmm.Netconn.Shutdown

open Dmm.Tcp

/-! ## Messages -/

/-- `SPL_NETCONN_SHUT_RD`, `SPL_NETCONN_SHUT_WR` and `SPL_NETCONN_SHUT_RDWR` -/
inductive Shut
  | rd
  | wr
  | rdwr
  deriving DecidableEq, Repr

/-- A connection, with what has happened to its pcb. -/
structure State where
  stack : Stack
  /-- The directions that lwIP has shut down: reading alone, writing alone, and both at once. -/
  rd : Bool
  wr : Bool
  both : Bool
  /-- lwIP has freed the pcb, after `tcp_abort` or a reset. -/
  freed : Bool
  /-- Calls of `tcp_close` by `do_delconn`. -/
  closes : Nat
  deleted : Bool
  /-- Messages dropped although the pcb is there and a direction open. -/
  missed : Nat

/-- Is the pcb on the connection. -/
def State.linked (s : State) : Bool := s.stack.conn.privateData

/-- Both directions of the pcb are closed. -/
def State.Closed (s : State) : Prop := s.both = true ∨ s.rd = true ∧ s.wr = true ∨ 0 < s.closes

instance (s : State) : Decidable s.Closed := inferInstanceAs (Decidable (_ ∨ _))

/-- `do_close` for a TCP connection, with the information whether it comes to
`do_close_internal`. -/
def doClose (m : MsgId) (shut : Shut) (s : Stack) : Option (Stack × Bool) :=
  if s.conn.state ≠ .none ∧ s.conn.state ≠ .listen ∧ s.conn.state ≠ .connect then some (s, false)
  else if s.conn.privateData = false then some (s, false)
  else if shut ≠ .rdwr ∧ s.conn.state = .listen then some (s, false)
  else if s.conn.currentMsg ≠ none ∧ s.conn.state ≠ .connect ∨ s.conn.writeOffset ≠ 0 then
    some (s, false)
  else
    (doCloseInternal { s with conn := { s.conn with state := .close, currentMsg := some m } }).map
      (·, true)

/-- What comes to a connection. -/
inductive Action
  | shutdown (m : MsgId) (shut : Shut)
  | credit
  | write (lwip : Lwip) (m : MsgId) (msg : Msg)
  | sent (lwip : Lwip)
  | reset (lwip : Lwip) (err : Int)
  | delete (lwip : Lwip) (m : MsgId)

/-- A message that needs the pcb is dropped without one. -/
def State.pass (s : State) : State :=
  { s with missed := s.missed + if s.linked = false ∧ s.freed = false ∧ ¬s.Closed then 1 else 0 }

/-- The connection after a call in which only an abort or a reset takes the pcb off. -/
def State.after (s : State) (t : Stack) : State :=
  { s with stack := t, freed := s.freed || (s.linked && !t.conn.privateData) }

/-- One message, or one callback of lwIP. -/
def act (s : State) : Action → Option State
  | .shutdown m shut =>
    (doClose m shut s.stack).map fun (t, called) =>
      { s with
        stack := t
        rd := s.rd || (called && shut = .rd)
        wr := s.wr || (called && shut = .wr)
        both := s.both || (called && shut = .rdwr) }
  | .credit => some s.pass
  | .write lwip m msg => (doWriteMsg lwip m (s.stack.receive m msg)).map s.pass.after
  | .sent lwip => (splSentTcp lwip s.stack).map s.after
  | .reset lwip err => if s.linked then some (s.after (splErrTcp lwip err s.stack)) else none
  | .delete lwip m =>
    (doTryDelconn lwip m s.stack).map fun t =>
      { s with
        stack := t
        deleted := true
        closes := s.closes + if s.linked && !s.stack.conn.closeProgress then 1 else 0 }

/-- An established connection. -/
def established (s : Stack) : State := ⟨s, false, false, false, false, 0, false, 0⟩

/-! ## Staying attached -/

/-- The connection has its pcb as long as that is there and a direction is open, nothing is missed,
and a delete message closes the pcb once. -/
structure Attached (s : State) : Prop where
  attached : s.freed = false → ¬s.Closed → s.linked = true
  reached : s.missed = 0
  once : s.closes ≤ 1
  closed : s.deleted = true → s.freed = true ∨ s.Closed

/-- A half shutdown of the connection does not come to `do_close_internal`: there is no pcb, or
something is being written or closed, or the connection listens. -/
def Refuses (s : Stack) : Prop :=
  s.conn.privateData = false ∨ s.conn.state = .write ∨ s.conn.state = .close ∨
    s.conn.state = .listen ∨ s.conn.state = .none ∧ s.conn.currentMsg ≠ none ∨
    s.conn.writeOffset ≠ 0

/-- A shutdown is of both directions, or refused. -/
def NoHalf (s : State) : Action → Prop
  | .shutdown _ shut => shut = .rdwr ∨ Refuses s.stack
  | _ => True

/-- What holds without half shutdowns. -/
structure Whole (s : State) : Prop where
  halves : s.rd = false ∧ s.wr = false
  reached : s.missed = 0
  fresh : s.linked = true → s.freed = false ∧ s.both = false ∧ s.closes = 0 ∧ s.deleted = false ∧
    s.stack.conn.closeProgress = false
  gone : s.linked = false → s.freed = true ∨ s.both = true ∨ s.closes = 1
  once : s.closes ≤ 1

theorem Whole.attached {s : State} (whole : Whole s) : Attached s where
  attached := by
    intro alive open_
    by_contra unlinked
    rcases whole.gone (by simpa using unlinked) with freed | both | closed
    · exact absurd (alive.symm.trans freed) (by decide)
    · exact open_ (.inl both)
    · exact open_ (.inr (.inr (by omega)))
  reached := whole.reached
  once := whole.once
  closed := by
    intro deleted
    have unlinked : s.linked = false := by
      by_contra linked
      have fresh := whole.fresh (by simpa using linked)
      exact absurd (fresh.2.2.2.1.symm.trans deleted) (by decide)
    rcases whole.gone unlinked with freed | both | closed
    · exact .inl freed
    · exact .inr (.inl both)
    · exact .inr (.inr (.inr (by omega)))

theorem Whole.pass {s : State} (whole : Whole s) : s.pass = s := by
  have none_missed : ¬(s.linked = false ∧ s.freed = false ∧ ¬s.Closed) := by
    rintro ⟨unlinked, alive, open_⟩
    exact absurd (whole.attached.attached alive open_) (by simp [unlinked])
  rw [State.pass, if_neg none_missed]
  rfl

/-- A call that leaves a connection without a pcb alone, and does not start closing one. -/
theorem Whole.after {s : State} (whole : Whole s) {t : Stack}
    (none_new : s.linked = false → t.conn.privateData = false)
    (progress : t.conn.closeProgress = s.stack.conn.closeProgress) : Whole (s.after t) where
  halves := whole.halves
  reached := whole.reached
  fresh := by
    intro linked
    have before : s.linked = true := by
      by_contra unlinked
      have gone := none_new (by simpa using unlinked)
      exact absurd (gone.symm.trans linked) (by decide)
    have fresh := whole.fresh before
    refine ⟨?_, fresh.2.1, fresh.2.2.1, fresh.2.2.2.1, progress.trans fresh.2.2.2.2⟩
    change (s.freed || (s.linked && !t.conn.privateData)) = false
    rw [fresh.1, show t.conn.privateData = true from linked]
    simp
  gone := by
    intro unlinked
    by_cases before : s.linked = true
    · left
      change (s.freed || (s.linked && !t.conn.privateData)) = true
      rw [before, show t.conn.privateData = false from unlinked]
      simp
    · rcases whole.gone (by simpa using before) with freed | other
      · exact .inl (by simp [State.after, freed])
      · exact .inr other
  once := whole.once

/-! ## The write queue and the progress of closing -/

theorem splErrTcp_progress (lwip : Lwip) (err : Int) (s : Stack) :
    (splErrTcp lwip err s).conn.closeProgress = s.conn.closeProgress ∧
      (splErrTcp lwip err s).conn.privateData = false := by
  have conn : (errConn lwip err s.conn).closeProgress = s.conn.closeProgress ∧
      (errConn lwip err s.conn).privateData = false := by
    unfold errConn setSafeErr
    split <;> exact ⟨rfl, rfl⟩
  unfold splErrTcp releaseQueue
  dsimp only
  split
  · split
    · exact conn
    · rw [freeQueue_rest]
      exact conn
  · exact conn

theorem finishMsg_progress (s : Stack) :
    (finishMsg s).2.conn.closeProgress = s.conn.closeProgress := by
  unfold finishMsg
  dsimp only
  repeat' split
  all_goals rfl

theorem written_progress (m : MsgId) (b : Pbuf) (rest : List Pbuf) (len : Nat) (s : Stack) :
    (Tcp.written m b rest len s).2.conn.closeProgress = s.conn.closeProgress := by
  unfold Tcp.written
  dsimp only
  split
  · split
    · exact finishMsg_progress _
    · rfl
  · rfl

theorem turn_progress (lwip : Lwip) (n : Nat) (m : MsgId) (s : Stack) :
    (turn lwip n m s).2.conn.closeProgress = s.conn.closeProgress := by
  unfold turn
  cases (s.msgs m).p with
  | nil => rfl
  | cons b rest =>
    dsimp only
    generalize lwip.sndbuf n % 2 ^ 16 = available
    by_cases full : available = 0
    · rw [if_pos full]
      rfl
    rw [if_neg full]
    by_cases ok : lwip.write n = errOk
    · rw [if_pos ok]
      exact written_progress m b rest _ _
    rw [if_neg ok]
    by_cases mem : lwip.write n = errMem
    · rw [if_pos mem]
      rfl
    · rw [if_neg mem]
      exact (splErrTcp_progress lwip _ _).1

theorem writeLoop_progress {lwip : Lwip} {fuel n : Nat} {m : MsgId} {s t : Stack}
    (ended : writeLoop lwip fuel n m s = some t) :
    t.conn.closeProgress = s.conn.closeProgress := by
  induction fuel generalizing n m s with
  | zero => exact absurd ended (by simp [writeLoop])
  | succ fuel continued =>
    have one := turn_progress lwip n m s
    unfold writeLoop at ended
    split at ended
    · rename_i stop
      obtain rfl := Option.some.inj ended
      rwa [stop] at one
    · rename_i again
      rw [again] at one
      exact (continued ended).trans one

theorem doWritemore_progress {lwip : Lwip} {s t : Stack} (ended : doWritemore lwip s = some t) :
    t.conn.closeProgress = s.conn.closeProgress := by
  unfold doWritemore at ended
  repeat' split at ended
  · obtain rfl := Option.some.inj ended
    rfl
  · exact writeLoop_progress ended
  · obtain rfl := Option.some.inj ended
    rfl

theorem doWriteMsg_progress {lwip : Lwip} {m : MsgId} {s t : Stack}
    (ended : doWriteMsg lwip m s = some t) :
    t.conn.closeProgress = s.conn.closeProgress ∧
      (s.conn.privateData = false → t.conn.privateData = false) := by
  unfold doWriteMsg at ended
  split at ended
  · rename_i linked
    refine ⟨?_, fun unlinked => absurd (linked.symm.trans unlinked) (by decide)⟩
    unfold doWrite at ended
    dsimp only at ended
    repeat' split at ended
    all_goals first | exact (doWritemore_progress ended).trans rfl |
      (obtain rfl := Option.some.inj ended; rfl)
  · obtain rfl := Option.some.inj ended
    exact ⟨rfl, id⟩

theorem splSentTcp_progress {lwip : Lwip} {s t : Stack} (ended : splSentTcp lwip s = some t) :
    t.conn.closeProgress = s.conn.closeProgress ∧
      (s.conn.privateData = false → t.conn.privateData = false) := by
  unfold splSentTcp writeCallback at ended
  split at ended
  · refine ⟨doWritemore_progress ended, ?_⟩
    intro unlinked
    rw [doWritemore, if_neg (by simp [unlinked])] at ended
    rwa [← Option.some.inj ended]
  split at ended
  · unfold doCloseInternal at ended
    repeat' split at ended
    all_goals first | (obtain rfl := Option.some.inj ended; simp_all) | cases ended
  · obtain rfl := Option.some.inj ended
    exact ⟨rfl, id⟩

/-! ## Steps -/

/-- A shutdown that comes to `do_close_internal` leaves the connection without its pcb. -/
theorem doClose_eq (m : MsgId) (shut : Shut) (s : Stack) :
    doClose m shut s = some (s, false) ∧ (shut ≠ .rdwr → Refuses s) ∨
      ∃ t, doClose m shut s = some (t, true) ∧ s.conn.privateData = true ∧
        t.conn.privateData = false ∧ (shut ≠ .rdwr → ¬Refuses s) := by
  unfold doClose
  split
  · rename_i busy
    refine .inl ⟨rfl, fun _ => ?_⟩
    cases state : s.conn.state with
    | write => exact .inr (.inl state)
    | close => exact .inr (.inr (.inl state))
    | _ => simp [state] at busy
  split
  · rename_i unlinked
    exact .inl ⟨rfl, fun _ => .inl unlinked⟩
  split
  · rename_i half
    exact .inl ⟨rfl, fun _ => .inr (.inr (.inr (.inl half.2)))⟩
  split
  · rename_i idle linked half busy
    refine .inl ⟨rfl, fun one => ?_⟩
    rcases busy with ⟨current, other⟩ | offset
    · have listens : s.conn.state ≠ .listen := fun is => half ⟨one, is⟩
      have none_ : s.conn.state = .none := by
        by_contra not_none
        exact idle ⟨not_none, listens, other⟩
      exact .inr (.inr (.inr (.inr (.inl ⟨none_, current⟩))))
    · exact .inr (.inr (.inr (.inr (.inr offset))))
  · rename_i idle linked half free
    right
    rw [doCloseInternal, if_neg (by simp), if_pos (by simpa using linked)]
    refine ⟨_, rfl, by simpa using linked, rfl, fun one refuses => ?_⟩
    obtain ⟨busy, offset⟩ := not_or.mp free
    rcases refuses with unlinked | writes | closes | listens | waits | writes
    · exact linked unlinked
    · exact idle (by simp [writes])
    · exact idle (by simp [closes])
    · exact half ⟨one, listens⟩
    · exact busy ⟨waits.2, by simp [waits.1]⟩
    · exact offset writes

theorem doCloseInternal_unlinked {s t : Stack} (closing : s.conn.state = .close)
    (ended : doCloseInternal s = some t) : t.conn.privateData = false := by
  rw [doCloseInternal, if_neg (by simp [closing])] at ended
  split at ended
  · rw [← Option.some.inj ended]
  · cases ended

/-- A delete message that is the first to close takes the pcb off. -/
theorem doDelconn_unlinked {lwip : Lwip} {m : MsgId} {s t : Stack}
    (first : s.conn.closeProgress = false) (ended : doDelconn lwip m s = some t) :
    t.conn.privateData = false := by
  rw [doDelconn, if_neg (by simp [first])] at ended
  dsimp only at ended
  split at ended
  · obtain ⟨u, -, closed⟩ := Option.bind_eq_some_iff.mp ended
    exact doCloseInternal_unlinked rfl closed
  · exact doCloseInternal_unlinked rfl ended

/-- Each step that is no half shutdown keeps what holds without them. -/
theorem Whole.step {s t : State} {a : Action} (whole : Whole s) (meets : NoHalf s a)
    (taken : act s a = some t) : Whole t := by
  cases a with
  | shutdown m shut =>
    rcases doClose_eq m shut s.stack with ⟨refused, -⟩ | ⟨u, goes, linked, unlinked, half⟩
    · rw [act, refused] at taken
      obtain rfl := Option.some.inj taken
      exact ⟨by simpa using whole.halves, whole.reached, by simpa using whole.fresh,
        by simpa using whole.gone, whole.once⟩
    · have both : shut = .rdwr := by
        by_contra half_
        exact meets.elim half_ (half half_)
      rw [act, goes, both] at taken
      obtain rfl := Option.some.inj taken
      exact ⟨by simpa using whole.halves, whole.reached,
        fun still => absurd (unlinked.symm.trans still) (by decide),
        fun _ => .inr (.inl (by simp)), whole.once⟩
  | credit =>
    obtain rfl := Option.some.inj taken
    rwa [whole.pass]
  | write lwip m msg =>
    rw [act, whole.pass] at taken
    obtain ⟨u, ended, rfl⟩ := Option.map_eq_some_iff.mp taken
    have frame := doWriteMsg_progress ended
    exact whole.after frame.2 frame.1
  | sent lwip =>
    obtain ⟨u, ended, rfl⟩ := Option.map_eq_some_iff.mp taken
    have frame := splSentTcp_progress ended
    exact whole.after frame.2 frame.1
  | reset lwip err =>
    obtain ⟨-, rfl⟩ := of_guarded taken
    have frame := splErrTcp_progress lwip err s.stack
    exact whole.after (fun _ => frame.2) frame.1
  | delete lwip m =>
    obtain ⟨u, ended, rfl⟩ := Option.map_eq_some_iff.mp taken
    unfold doTryDelconn at ended
    split at ended
    · rename_i linked
      have fresh := whole.fresh linked
      have unlinked := doDelconn_unlinked fresh.2.2.2.2 ended
      have counted : (s.linked && !s.stack.conn.closeProgress) = true := by
        rw [fresh.2.2.2.2, show s.linked = true from linked]
        rfl
      refine ⟨whole.halves, whole.reached, fun still => absurd (unlinked.symm.trans still)
        (by decide), fun _ => .inr (.inr ?_), ?_⟩
      · simp [counted, fresh.2.2.1]
      · simp [counted, fresh.2.2.1]
    · rename_i linked
      have unlinked : s.linked = false := by simpa [State.linked] using linked
      obtain rfl := Option.some.inj ended
      refine ⟨whole.halves, whole.reached, fun still => absurd (unlinked.symm.trans still)
        (by decide), fun gone => ?_, ?_⟩
      · simpa [unlinked] using whole.gone unlinked
      · simpa [unlinked] using whole.once

/-- A half shutdown that comes to `do_close_internal` detaches the connection. -/
theorem Whole.half {s t : State} {a : Action} (whole : Whole s) (half : ¬NoHalf s a)
    (taken : act s a = some t) : ¬Attached t := by
  cases a with
  | shutdown m shut =>
    obtain ⟨one, goes⟩ := not_or.mp half
    rcases doClose_eq m shut s.stack with ⟨refused, why⟩ | ⟨u, closes, linked, unlinked, -⟩
    · exact absurd (why one) goes
    · rw [act, closes] at taken
      obtain rfl := Option.some.inj taken
      have fresh := whole.fresh linked
      intro keeps
      have still := keeps.attached fresh.1 (by
        cases shut <;> simp_all [State.Closed, whole.halves])
      exact absurd (unlinked.symm.trans still) (by decide)
  | _ => exact absurd trivial half

/-- In every run from an established connection in which no half shutdown comes to
`do_close_internal`, the connection stays attached, and with one step more exactly if that is no
half shutdown either. -/
theorem half_shutdown_detaches (conn : Stack) (linked : conn.conn.privateData = true)
    (fresh : conn.conn.closeProgress = false) :
    (∀ s, Runs act NoHalf (established conn) s → Attached s) ∧
      ∀ s a t, Runs act NoHalf (established conn) s → act s a = some t →
        (Attached t ↔ NoHalf s a) := by
  have whole {s : State} (run : Runs act NoHalf (established conn) s) : Whole s := by
    refine run.invariant (P := Whole) ?_ fun _ _ _ whole meets taken => whole.step meets taken
    exact ⟨⟨rfl, rfl⟩, rfl, fun _ => ⟨rfl, rfl, rfl, rfl, fresh⟩,
      fun gone => absurd (linked.symm.trans gone) (by decide), Nat.zero_le _⟩
  refine ⟨fun s run => (whole run).attached, fun s a t run taken => ⟨?_, ?_⟩⟩
  · intro attached
    by_contra half
    exact (whole run).half half taken attached
  · intro meets
    exact ((whole run).step meets taken).attached

/-- A connection whose pcb is closed by a delete message. -/
theorem attached_until_deleted :
    ∃ s, Runs act NoHalf (established (connectedStack false)) s ∧ s.closes = 1 ∧ Attached s := by
  let lwip : Lwip := ⟨fun _ => 1, fun _ => errOk, false, fun _ => false⟩
  have executed : ∃ s, Runs act NoHalf (established (connectedStack false)) s ∧
      decide (s.closes = 1) = true :=
    exists_runs_of_execute (fun _ a => a matches .delete _ _) [.delete lwip 1]
      (by rintro s (_ | _ | _ | _ | _ | _) is <;> trivial) (by decide +kernel)
  obtain ⟨s, run, closed⟩ := executed
  exact ⟨s, run, of_decide_eq_true closed,
    (half_shutdown_detaches (connectedStack false) rfl rfl).1 s run⟩

/-- After a shutdown of writing, credit does not reach lwIP and a delete message closes nothing. -/
theorem shutdown_detaches :
    ∃ s, Runs act (fun _ _ => True) (established (connectedStack false)) s ∧
      s.freed = false ∧ s.rd = false ∧ s.linked = false ∧ s.missed = 1 ∧ s.deleted = true ∧
      s.closes = 0 := by
  let lwip : Lwip := ⟨fun _ => 1, fun _ => errOk, false, fun _ => false⟩
  have executed : ∃ s, Runs act (fun _ _ => True) (established (connectedStack false)) s ∧
      decide (s.freed = false ∧ s.rd = false ∧ s.linked = false ∧ s.missed = 1 ∧
        s.deleted = true ∧ s.closes = 0) = true :=
    exists_runs_of_execute (fun _ _ => true) [.shutdown 0 .wr, .credit, .delete lwip 1]
      (fun _ _ _ => trivial) (by decide +kernel)
  simpa only [decide_eq_true_eq] using executed

end Dmm.Netconn.Shutdown
