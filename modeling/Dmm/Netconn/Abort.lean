import Dmm.Tcp.WriteRelease

/-!
# Callbacks that free their pcb

lwIP calls `spl_accept_function`, `spl_sent_tcp` and `spl_poll_tcp` for a pcb, and goes on using
the pcb unless the callback returns `ERR_ABRT`. The accept callback frees it by `tcp_drop_conn`, the
other two by a `tcp_abort` inside `do_writemore` or `do_close_internal`. In `do_writemore` the abort
is the only step that takes the pcb off the connection.
-/

namespace Dmm.Netconn.Abort

open Dmm.Tcp

/-- `ERR_VAL` -/
def errVal : Int := -6

/-- What a callback returns, and whether it has freed the pcb it was called for. -/
structure Outcome where
  ret : Int
  freed : Bool
  deriving DecidableEq, Repr

/-- lwIP knows from the result that the pcb is gone. -/
def Outcome.Contract (o : Outcome) : Prop := o.freed = true → o.ret = errAbrt

/-- How often a new pcb is freed, with lwIP's own `tcp_abort` after an error of the accept
callback. -/
def Outcome.acceptFrees (o : Outcome) : Nat :=
  (if o.freed then 1 else 0) + if o.ret ≠ errOk ∧ o.ret ≠ errAbrt then 1 else 0

/-- `spl_accept_function`: is there a listening connection, do the two allocations succeed, and
what does `accept_enqueue` return. -/
def splAcceptFunction (lconn newconn cpcb : Bool) (enqueue : Int) : Outcome :=
  if lconn = false then ⟨errVal, false⟩
  else if newconn = false then ⟨errMem, false⟩
  else if cpcb = false then ⟨errMem, false⟩
  else if enqueue ≠ errOk then ⟨errMem, true⟩
  else ⟨errOk, false⟩

/-- `SPL_NETCONN_SHUT_RDWR` -/
def shutRdwr : Nat := 3

/-- What the current message shuts down; `getShutOp` is `get_shut_op`. -/
def shutOf (getShutOp : MsgId → Nat) (conn : Conn) : Nat :=
  (conn.currentMsg.map getShutOp).getD shutRdwr

/-- `do_close_internal` without `OpShutDown`, of a connection in `SPL_NETCONN_CLOSE` with a pcb:
does it abort the pcb, where lwIP's close function returns `close`. -/
def doCloseInternalFrees (getShutOp : MsgId → Nat) (close : Int) (conn : Conn) : Bool :=
  close ≠ errOk && (close = errMem && shutOf getShutOp conn = shutRdwr)

/-- `spl_sent_tcp` and `spl_poll_tcp`; closing uses a null pointer if there is no pcb. -/
def writeCallback (lwip : Lwip) (getShutOp : MsgId → Nat) (close : Int) :
    Option Stack → Option Outcome
  | none => some ⟨errVal, false⟩
  | some s =>
    if s.conn.state = .write then
      (doWritemore lwip s).map fun t => ⟨errOk, s.conn.privateData && !t.conn.privateData⟩
    else if s.conn.state = .close then
      if s.conn.privateData then some ⟨errOk, doCloseInternalFrees getShutOp close s.conn⟩
      else none
    else some ⟨errOk, false⟩

/-! ## Where writing fails -/

/-- The lengths left to be written, message by message. -/
def todo (off : Nat) : Queue → List (List Nat)
  | (_, b :: rest) :: q =>
    ((b.payload.length - off) :: rest.map (·.payload.length)) ::
      q.map fun e => e.2.map (·.payload.length)
  | q => q.map fun e => e.2.map (·.payload.length)

/-- `tcp_write` takes what there is room for. -/
def advance (available : Nat) : List (List Nat) → List (List Nat)
  | (len :: p) :: q =>
    if min (min len 0xffff) available < len then
      ((len - min (min len 0xffff) available) :: p) :: q
    else if p = [] then q else p :: q
  | q => q

/-- Some turns of the loop pass data on, and then `tcp_write` fails for the data that is left. -/
inductive Refused (lwip : Lwip) : Nat → List (List Nat) → Prop
  | fails {n : Nat} {len : Nat} {p : List Nat} {q : List (List Nat)}
      (room : lwip.sndbuf n % 2 ^ 16 ≠ 0) (not_ok : lwip.write n ≠ errOk)
      (not_mem : lwip.write n ≠ errMem) : Refused lwip n ((len :: p) :: q)
  | later {n : Nat} {len : Nat} {p : List Nat} {q : List (List Nat)}
      (room : lwip.sndbuf n % 2 ^ 16 ≠ 0) (ok : lwip.write n = errOk)
      (next : Refused lwip (n + 1) (advance (lwip.sndbuf n % 2 ^ 16) ((len :: p) :: q))) :
      Refused lwip n ((len :: p) :: q)

theorem writeLen_eq {len off available : Nat} (short : len < 2 ^ 32) (inside : off ≤ len) :
    writeLen len off available = min (min (len - off) 0xffff) available := by
  unfold writeLen
  have diff : (len + 2 ^ 64 - off) % 2 ^ 64 = len - off := by omega
  simp only [diff]
  split <;> split <;> omega

/-- A turn that passes data on: the loop goes on with what is left, or stops without an abort. -/
inductive Passed (lwip : Lwip) (n : Nat) (left : List (List Nat)) : Next × Stack → Prop
  | again {t : Stack} {done : List Pbuf} {m : MsgId} {b : Pbuf} {rest : List Pbuf} {q : Queue}
      (inv : Inv t done ((m, b :: rest) :: q))
      (same : todo t.conn.writeOffset ((m, b :: rest) :: q) = left) :
      Passed lwip n left (.again m, t)
  | stop {t : Stack} (linked : t.conn.privateData = true)
      (nothing : ∀ len p q, left ≠ (len :: p) :: q) : Passed lwip n left (.stop, t)

/-- A turn in which `tcp_write` takes bytes passes data on. -/
theorem turn_passed {lwip : Lwip} {n : Nat} {s : Stack} {done : List Pbuf} {m : MsgId} {b : Pbuf}
    {rest : List Pbuf} {q : Queue} (inv : Inv s done ((m, b :: rest) :: q))
    (room : lwip.sndbuf n % 2 ^ 16 ≠ 0) (ok : lwip.write n = errOk) :
    Passed lwip n (advance (lwip.sndbuf n % 2 ^ 16)
      (todo s.conn.writeOffset ((m, b :: rest) :: q))) (turn lwip n m s) := by
  have has : (s.msgs m).p = b :: rest := inv.linked.pbufs (m, b :: rest) (by simp)
  have inside : s.conn.writeOffset ≤ b.payload.length := by
    cases inv.offset with
    | inl zero => omega
    | inr inside =>
      obtain ⟨c, first, less⟩ := inside
      cases first
      exact Nat.le_of_lt less
  have len := @writeLen_eq _ _ (lwip.sndbuf n % 2 ^ 16) b.short inside
  unfold turn
  rw [has]
  dsimp only
  rw [if_neg room, if_pos ok]
  change Passed lwip n _ (Tcp.written m b rest
    (writeLen b.payload.length s.conn.writeOffset (lwip.sndbuf n % 2 ^ 16)) (s.setP m rest))
  rw [len, written_eq has]
  simp only [todo, advance]
  have fits : s.conn.writeOffset + min (min (b.payload.length - s.conn.writeOffset) 0xffff)
      (lwip.sndbuf n % 2 ^ 16) ≤ b.payload.length := by
    omega
  revert fits
  generalize min (min (b.payload.length - s.conn.writeOffset) 0xffff) (lwip.sndbuf n % 2 ^ 16) =
    taken
  intro fits
  by_cases all : s.conn.writeOffset + taken = b.payload.length
  · rw [if_pos all, if_neg (by omega)]
    by_cases last : rest = []
    · subst last
      rw [if_pos rfl, List.map_nil, if_pos rfl]
      have emptied : Linked (s.setP m []) ((m, []) :: q) := inv.linked.setP
      have finished := @finishMsg_inv ((s.pass b taken).finishPbuf m b []) m (done ++ [b]) q
        (emptied.congr rfl rfl rfl) inv.original (inv.current (by simp)) (inv.busy (by simp))
        (inv.sent_pbuf all) inv.balanced_pbuf
      revert finished
      generalize finishMsg ((s.pass b taken).finishPbuf m b []) = next
      rintro ⟨kept, same, -, offset, ends⟩
      obtain ⟨next, t⟩ := next
      cases ends with
      | inl stop =>
        cases stop.1
        refine .stop (same.privateData.trans (inv.busy (by simp)).2) ?_
        intro len p left first
        rcases q with _ | ⟨⟨m', _ | ⟨c, rest⟩⟩, q⟩
        · cases first
        · cases first
        · cases stop.2
      | inr again =>
        obtain ⟨m', c, rest, q', rfl, more⟩ := again
        cases more
        refine .again kept ?_
        rw [show t.conn.writeOffset = 0 from offset]
        rfl
    · rw [if_neg last, if_neg (by simpa using last)]
      have finished := inv.pbuf all last
      cases rest with
      | nil => exact absurd rfl last
      | cons c rest => exact .again finished rfl
  · rw [if_neg all, if_pos (by omega)]
    refine .again (inv.part (by omega)) ?_
    rw [Nat.sub_sub]
    rfl

/-- The loop aborts the connection exactly if `tcp_write` fails for data that is left. -/
theorem writeLoop_aborts {lwip : Lwip} {fuel n : Nat} {s t : Stack} {done : List Pbuf} {m : MsgId}
    {b : Pbuf} {rest : List Pbuf} {q : Queue} (inv : Inv s done ((m, b :: rest) :: q))
    (ended : writeLoop lwip fuel n m s = some t) :
    t.conn.privateData = false ↔
      Refused lwip n (todo s.conn.writeOffset ((m, b :: rest) :: q)) := by
  induction fuel generalizing n s done m b rest q with
  | zero => exact absurd ended (by simp [writeLoop])
  | succ fuel continued =>
    by_cases ok : lwip.sndbuf n % 2 ^ 16 ≠ 0 ∧ lwip.write n = errOk
    · have passed := turn_passed inv ok.1 ok.2
      unfold writeLoop at ended
      revert passed ended
      generalize turn lwip n m s = next
      intro passed ended
      have refused : Refused lwip n (todo s.conn.writeOffset ((m, b :: rest) :: q)) ↔
          Refused lwip (n + 1) (advance (lwip.sndbuf n % 2 ^ 16)
            (todo s.conn.writeOffset ((m, b :: rest) :: q))) := by
        constructor
        · intro refused
          cases refused with
          | fails room not_ok not_mem => exact absurd ok.2 not_ok
          | later room ok next => exact next
        · exact .later ok.1 ok.2
      rw [refused]
      cases passed with
      | again inv same => exact same ▸ continued inv ended
      | stop linked nothing =>
        cases ended
        constructor
        · intro gone
          exact absurd (linked.symm.trans gone) (by decide)
        · intro refused
          generalize advance _ _ = left at nothing refused
          cases refused with
          | fails => exact absurd rfl (nothing _ _ _)
          | later => exact absurd rfl (nothing _ _ _)
    · have has : (s.msgs m).p = b :: rest := inv.linked.pbufs (m, b :: rest) (by simp)
      have linked : s.conn.privateData = true := (inv.busy (by simp)).2
      unfold writeLoop turn at ended
      rw [has] at ended
      dsimp only at ended
      have stays {t : Stack} (same : t = s) (blocked : lwip.sndbuf n % 2 ^ 16 = 0 ∨
          lwip.write n = errMem) : t.conn.privateData = false ↔
          Refused lwip n (todo s.conn.writeOffset ((m, b :: rest) :: q)) := by
        constructor
        · intro gone
          rw [same, linked] at gone
          exact absurd gone (by decide)
        · intro refused
          cases refused with
          | fails room not_ok not_mem => exact absurd blocked (not_or.mpr ⟨room, not_mem⟩)
          | later room taken next => exact absurd ⟨room, taken⟩ ok
      have back : (s.setP m rest).setP m (b :: rest) = s := by
        rw [s.setP_setP, s.setP_self has]
      by_cases full : lwip.sndbuf n % 2 ^ 16 = 0
      · rw [if_pos full] at ended
        exact stays ((Option.some.inj ended).symm.trans back) (.inl full)
      have not_ok : lwip.write n ≠ errOk := fun is => ok ⟨full, is⟩
      rw [if_neg full, if_neg not_ok] at ended
      by_cases mem : lwip.write n = errMem
      · rw [if_pos mem] at ended
        exact stays ((Option.some.inj ended).symm.trans back) (.inr mem)
      rw [if_neg mem] at ended
      have whole : ((s.setP m rest).setOffset 0).setP m (b :: rest) = s.setOffset 0 := by
        rw [← Stack.setP_self (s.setOffset 0) has, ← Stack.setP_setP (s.setOffset 0) m rest]
        rfl
      have loaded : Loaded (s.setOffset 0) ((m, b :: rest) :: q) :=
        have loaded := inv.loaded
        ⟨loaded.linked.congr rfl rfl rfl, loaded.balanced, loaded.current, loaded.busy,
          loaded.short, loaded.original⟩
      obtain rfl := Option.some.inj ended
      rw [whole]
      exact ⟨fun _ => .fails full not_ok mem, fun _ => (splErrTcp_dead lwip errAbrt loaded).pcb⟩

/-- `do_writemore` takes the pcb off the connection exactly if `tcp_write` fails. -/
theorem doWritemore_aborts (lwip : Lwip) {s : Stack} {done : List Pbuf} {q : Queue}
    (inv : Inv s done q) (writing : s.conn.state = .write) :
    ∃ t, doWritemore lwip s = some t ∧ ((s.conn.privateData && !t.conn.privateData) = true ↔
      Refused lwip 0 (todo s.conn.writeOffset q)) := by
  obtain ⟨t, ended, -⟩ := doWritemore_inv lwip inv
  refine ⟨t, ended, ?_⟩
  unfold doWritemore at ended
  rcases q with _ | ⟨⟨m, _ | ⟨b, rest⟩⟩, q⟩
  · rw [inv.idle rfl writing] at ended
    obtain rfl : s = t := by simpa using ended
    refine ⟨by simp, fun refused => ?_⟩
    simp only [todo, List.map] at refused
    cases refused
  · have none : (s.msgs m).p = [] := inv.linked.pbufs (m, []) (by simp)
    have current : s.conn.currentMsg = some m := inv.current (by simp)
    have stops : turn lwip 0 m s = (.stop, s) := by simp [turn, none]
    obtain rfl : s = t := by
      simpa [current, inv.busy, Stack.bound, writeLoop, stops] using ended
    refine ⟨by simp, fun refused => ?_⟩
    simp only [todo, List.map] at refused
    cases refused
  · have current : s.conn.currentMsg = some m := inv.current (by simp)
    rw [if_pos ⟨(inv.busy (by simp)).2, writing⟩, current] at ended
    rw [(inv.busy (by simp)).2, Bool.true_and, Bool.not_eq_true_eq_eq_false]
    exact writeLoop_aborts inv ended

/-! ## The contract -/

/-- The accept callback has no room for the new connection. -/
def Full (lconn newconn cpcb : Bool) (enqueue : Int) : Prop :=
  lconn = true ∧ newconn = true ∧ cpcb = true ∧ enqueue ≠ errOk

/-- lwIP refuses data of the connection, or to close it for want of memory. -/
def Fails (lwip : Lwip) (getShutOp : MsgId → Nat) (close : Int) (s : Stack) (q : Queue) : Prop :=
  s.conn.state = .write ∧ Refused lwip 0 (todo s.conn.writeOffset q) ∨
    s.conn.state = .close ∧ close = errMem ∧ shutOf getShutOp s.conn = shutRdwr

theorem splAcceptFunction_freed {lconn newconn cpcb : Bool} {enqueue : Int} :
    (splAcceptFunction lconn newconn cpcb enqueue).ret ≠ errAbrt ∧
      ((splAcceptFunction lconn newconn cpcb enqueue).freed = true ↔
        Full lconn newconn cpcb enqueue) := by
  unfold splAcceptFunction Full
  split
  · simp_all [errVal, errAbrt]
  split
  · simp_all [errMem, errAbrt]
  split
  · simp_all [errMem, errAbrt]
  split <;> simp_all [errMem, errAbrt, errOk]

/-- The callbacks keep the contract exactly if the accept callback has room for the connection, and
lwIP neither refuses data nor fails to close for want of memory. -/
theorem abort_contract_iff (lwip : Lwip) (getShutOp : MsgId → Nat) (close : Int) :
    (∀ lconn newconn cpcb enqueue,
      ((splAcceptFunction lconn newconn cpcb enqueue).Contract ∧
        (splAcceptFunction lconn newconn cpcb enqueue).acceptFrees ≤ 1 ↔
          ¬Full lconn newconn cpcb enqueue)) ∧
    (∃ o, writeCallback lwip getShutOp close none = some o ∧ o.Contract) ∧
    ∀ s done q, (s.conn.state = .write → Inv s done q) →
      (s.conn.state = .close → s.conn.privateData = true) →
      ∃ o, writeCallback lwip getShutOp close (some s) = some o ∧
        (o.Contract ↔ ¬Fails lwip getShutOp close s q) := by
  refine ⟨?_, ⟨_, rfl, fun freed => absurd freed (by decide)⟩, ?_⟩
  · intro lconn newconn cpcb enqueue
    obtain ⟨other, freed⟩ := @splAcceptFunction_freed lconn newconn cpcb enqueue
    rw [← freed]
    constructor
    · intro keeps gone
      exact other (keeps.1 gone)
    · intro alive
      refine ⟨fun gone => absurd gone alive, ?_⟩
      rw [Outcome.acceptFrees, if_neg alive]
      split <;> omega
  · intro s done q writes pcb
    unfold writeCallback Fails Outcome.Contract
    dsimp only
    have other : errOk ≠ errAbrt := by decide
    by_cases writing : s.conn.state = .write
    · obtain ⟨t, ended, aborts⟩ := doWritemore_aborts lwip (writes writing) writing
      rw [if_pos writing, ended]
      exact ⟨_, rfl, by simp [writing, other, ← aborts]⟩
    rw [if_neg writing]
    by_cases closing : s.conn.state = .close
    · rw [if_pos closing, if_pos (pcb closing)]
      refine ⟨_, rfl, ?_⟩
      have frees : doCloseInternalFrees getShutOp close s.conn = true ↔
          close = errMem ∧ shutOf getShutOp s.conn = shutRdwr := by
        simp only [doCloseInternalFrees, Bool.and_eq_true, decide_eq_true_eq]
        exact ⟨And.right, fun mem => ⟨by rw [mem.1]; decide, mem⟩⟩
      simp [closing, other, frees]
    · rw [if_neg closing]
      exact ⟨_, rfl, by simp [writing, closing]⟩

/-- A new connection without room is dropped, and lwIP aborts its pcb once more. Data of one byte
that `tcp_write` refuses: the sent and the poll callback abort the pcb and return `ERR_OK`. -/
theorem aborted_unnoticed :
    (splAcceptFunction true true true errMem).acceptFrees = 2 ∧
      ∃ o, writeCallback ⟨fun _ => 1, fun _ => errIsconn, false, fun _ => false⟩ (fun _ => shutRdwr)
        errOk (some
          { connectedStack true with
            conn := ⟨.write, errOk, true, true, false, some 0, some 0, some 0, 0⟩
            msgs := fun _ => ⟨[⟨0, [7], by decide⟩], none, 1⟩
            arrived := [(0, [⟨0, [7], by decide⟩])] }) = some o ∧ o.ret = errOk ∧
      o.freed = true ∧ ¬o.Contract := by
  refine ⟨rfl, ⟨errOk, true⟩, ?_, rfl, rfl, fun keeps => absurd (keeps rfl) (by decide)⟩
  decide +kernel

end Dmm.Netconn.Abort
