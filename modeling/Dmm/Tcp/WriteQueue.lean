import Mathlib

/-!
# The write queue of a TCP connection

The stack thread keeps the write messages of a connection in a list from `msg_head` to `msg_tail`,
linked by `next`. `do_writemore` passes the pbufs of the first message to `tcp_write` one after the
other, as much of each as the send buffer takes, and keeps the position in the first pbuf in
`write_offset` until it is called again from the sent or the poll callback.

lwIP is not part of the model: what its functions return is given for each turn of the loop.
`tcp_write` copies the bytes when it returns `ERR_OK` and takes none otherwise, and `tcp_abort`
calls the error callback of the connection.
-/

namespace Dmm.Tcp

/-! ## Data -/

/-- A `data_com_msg`, by the place it is stored at. -/
abbrev MsgId := Nat

/-- A `spl_pbuf` with the data of one segment. -/
structure Pbuf where
  id : Nat
  payload : List UInt8
  short : payload.length < 2 ^ 32
  deriving DecidableEq, Repr

/-- `msg_write_buf` in the buffer of a `data_com_msg`. -/
structure Msg where
  p : List Pbuf
  next : Option MsgId
  len : Nat
  deriving DecidableEq, Repr

/-- `spl_netconn_state` -/
inductive ConnState
  | none
  | write
  | listen
  | connect
  | close
  deriving DecidableEq, Repr

/-- `ERR_OK` -/
def errOk : Int := 0

/-- `ERR_MEM` -/
def errMem : Int := -1

/-- `ERR_ISCONN` -/
def errIsconn : Int := -9

/-- `ERR_ABRT` -/
def errAbrt : Int := -10

/-- `ERR_CLSD` -/
def errClsd : Int := -12

/-- The parts of a `spl_netconn` and its `common_pcb` that writing uses. -/
structure Conn where
  state : ConnState
  lastErr : Int
  nonblocking : Bool
  privateData : Bool
  closeProgress : Bool
  currentMsg : Option MsgId
  msgHead : Option MsgId
  msgTail : Option MsgId
  writeOffset : Nat
  deriving DecidableEq, Repr

/-- What lwIP answers during one call. -/
structure Lwip where
  /-- `tcp_sndbuf`, in each turn of the loop of `do_writemore`. -/
  sndbuf : Nat → Nat
  write : Nat → Int
  closeWait : Bool
  errIsFatal : Int → Bool

/-- What happened to the messages and pbufs of the connection. -/
inductive Event
  | postedMsg (m : MsgId)
  | postedPbuf (id : Nat)
  | freedMsg (m : MsgId)
  | freedPbuf (id : Nat)
  deriving DecidableEq, Repr

/-- The state of the stack thread for one connection, with a record of what it did. -/
structure Stack where
  conn : Conn
  msgs : MsgId → Msg
  sent : List UInt8
  /-- The messages put into the queue, with their pbufs, in the order of arrival. -/
  arrived : List (MsgId × List Pbuf)
  left : Nat
  log : List Event

namespace Stack

/-- The pbufs of a message changed. -/
def setP (s : Stack) (m : MsgId) (p : List Pbuf) : Stack :=
  { s with msgs := Function.update s.msgs m { s.msgs m with p := p } }

/-- `next` of a message changed. -/
def setNext (s : Stack) (m : MsgId) (next : Option MsgId) : Stack :=
  { s with msgs := Function.update s.msgs m { s.msgs m with next := next } }

/-- `ASYNC_MSG_FREE` of a message that may be null. -/
def freeMsg (s : Stack) (m : Option MsgId) : Stack :=
  { s with log := s.log ++ m.toList.map .freedMsg }

/-- `spl_pbuf_free` of a chain. -/
def freePbufs (s : Stack) (p : List Pbuf) : Stack :=
  { s with log := s.log ++ p.map fun q => .freedPbuf q.id }

/-- `write_offset` changed. -/
def setOffset (s : Stack) (off : Nat) : Stack :=
  { s with conn := { s.conn with writeOffset := off } }

end Stack

/-! ## Errors -/

/-- `SPL_ERR_IS_FATAL` -/
def splErrIsFatal (err : Int) : Prop := err < errIsconn

instance : DecidablePred splErrIsFatal := fun _ => inferInstanceAs (Decidable (_ < _))

/-- `SPL_NETCONN_SET_SAFE_ERR` -/
def setSafeErr (lwip : Lwip) (conn : Conn) (err : Int) : Conn :=
  if lwip.errIsFatal conn.lastErr then conn else { conn with lastErr := err }

/-- The loop of `spl_err_tcp` that frees the queue, for at most so many messages. -/
def freeQueue : Nat → Option MsgId → Stack → Stack
  | 0, _, s => s
  | _, none, s => s
  | n + 1, some m, s =>
    let next := (s.msgs m).next
    freeQueue n next ((s.freePbufs (s.msgs m).p).freeMsg (some m))

/-- What `spl_err_tcp` does in any case: the connection is unlinked from its pcb. -/
def errConn (lwip : Lwip) (err : Int) (conn : Conn) : Conn :=
  setSafeErr lwip { conn with state := .none, privateData := false }
    (if conn.state = .close then errOk else err)

/-- What `spl_err_tcp` does with the current message of a blocking connection, and with its
queue. -/
def releaseQueue (s : Stack) : Stack :=
  let s := { s with conn := { s.conn with currentMsg := none } }
  if s.conn.msgHead = none then s
  else
    let s := freeQueue s.arrived.length s.conn.msgHead s
    { s with conn := { s.conn with msgHead := none, msgTail := none }, left := s.arrived.length }

/-- `spl_err_tcp` -/
def splErrTcp (lwip : Lwip) (err : Int) (s : Stack) : Stack :=
  let oldState := s.conn.state
  let s := { s with conn := errConn lwip err s.conn }
  if (oldState = .write ∨ oldState = .close ∨ oldState = .connect) ∧
      s.conn.nonblocking = false ∧ s.conn.currentMsg ≠ none then releaseQueue s
  else s

/-! ## Writing -/

/-- How a turn of the loop ends. -/
inductive Next
  | stop
  | again (wmsg : MsgId)
  deriving DecidableEq, Repr

/-- The end of the first message of the queue: its last pbuf has been passed. -/
def finishMsg (s : Stack) : Next × Stack :=
  let s := s.setOffset 0
  let forFreemsg := s.conn.currentMsg
  match s.conn.msgHead with
  | none => (.stop, s)
  | some prev =>
    match (s.msgs prev).next with
    | none =>
      let conn := { s.conn with
        msgHead := none, msgTail := none, currentMsg := none, state := .none }
      (.stop, { s with conn, left := s.left + 1 }.freeMsg forFreemsg)
    | some m =>
      let conn := { s.conn with msgHead := some m, currentMsg := some m }
      let s := { s with conn, left := s.left + 1 }.freeMsg forFreemsg
      if (s.msgs m).p.isEmpty then (.stop, s) else (.again m, s)

/-- `tcp_write` has taken `len` bytes of a pbuf. -/
def Stack.pass (s : Stack) (pbuf : Pbuf) (len : Nat) : Stack :=
  { s with sent := s.sent ++ (pbuf.payload.drop s.conn.writeOffset).take len }.setOffset
    (s.conn.writeOffset + len)

/-- `tcp_write` has returned `ERR_OK` for `len` bytes of `current_w_pbuf`, which is not linked from
its message while it is written. -/
def written (wmsg : MsgId) (pbuf : Pbuf) (rest : List Pbuf) (len : Nat) (s : Stack) :
    Next × Stack :=
  let s := s.pass pbuf len
  if s.conn.writeOffset = pbuf.payload.length then
    let s := (s.setOffset 0).freePbufs [pbuf]
    if rest.isEmpty then finishMsg s else (.again wmsg, s)
  else (.again wmsg, s.setP wmsg (pbuf :: rest))

/-- The length that is passed to `tcp_write`, for a pbuf of which `off` bytes are written. -/
def writeLen (pbufLen off available : Nat) : Nat :=
  let diff := (pbufLen + 2 ^ 64 - off) % 2 ^ 64
  let len := if diff > 0xffff then 0xffff else diff
  if available < len then available else len

/-- One turn of the loop of `do_writemore`, from `start_write` on. -/
def turn (lwip : Lwip) (n : Nat) (wmsg : MsgId) (s : Stack) : Next × Stack :=
  match (s.msgs wmsg).p with
  | [] => (.stop, s)
  | pbuf :: rest =>
    let s := s.setP wmsg rest
    let available := lwip.sndbuf n % 2 ^ 16
    if available = 0 then (.stop, s.setP wmsg (pbuf :: rest))
    else
      let len := writeLen pbuf.payload.length s.conn.writeOffset available
      if lwip.write n = errOk then written wmsg pbuf rest len s
      else if lwip.write n = errMem then (.stop, s.setP wmsg (pbuf :: rest))
      else (.stop, splErrTcp lwip errAbrt ((s.setOffset 0).setP wmsg (pbuf :: rest)))

/-- The turns of the loop, at most so many. -/
def writeLoop (lwip : Lwip) : Nat → Nat → MsgId → Stack → Option Stack
  | 0, _, _, _ => none
  | fuel + 1, n, wmsg, s =>
    match turn lwip n wmsg s with
    | (.stop, s) => some s
    | (.again wmsg, s) => writeLoop lwip fuel (n + 1) wmsg s

/-- Turns that some pbufs can take: one for each byte, and one for each pbuf. -/
def turns (p : List Pbuf) : Nat := (p.map fun q => q.payload.length + 1).sum

/-- Turns that all messages that have arrived can take. -/
def Stack.bound (s : Stack) : Nat := (s.arrived.map fun m => turns m.2).sum + 1

/-- `do_writemore`. Its result is ignored wherever it is called. -/
def doWritemore (lwip : Lwip) (s : Stack) : Option Stack :=
  if s.conn.privateData ∧ s.conn.state = .write then
    match s.conn.currentMsg with
    | none => some s
    | some wmsg => writeLoop lwip s.bound 0 wmsg s
  else some s

/-- A message is put into the queue. -/
def Stack.arrive (s : Stack) (m : MsgId) : Stack :=
  { s with arrived := s.arrived ++ [(m, (s.msgs m).p)] }

/-- `err_return` of `do_write`: the message and its pbufs are dropped. -/
def dropWrite (m : MsgId) (s : Stack) : Stack :=
  ((s.freePbufs (s.msgs m).p).setP m []).freeMsg (some m)

/-- `do_write` for a message of a TCP connection. -/
def doWrite (lwip : Lwip) (m : MsgId) (s : Stack) : Option Stack :=
  if splErrIsFatal s.conn.lastErr ∧ ¬ (s.conn.lastErr = errClsd ∧ lwip.closeWait) then
    some (dropWrite m s)
  else if s.conn.currentMsg ≠ none then
    match s.conn.msgHead, s.conn.msgTail with
    | some _, some tail =>
      let s := ((s.setNext m none).setNext tail (some m)).arrive m
      doWritemore lwip { s with conn := { s.conn with msgTail := some m } }
    | _, _ => some (dropWrite m s)
  else if s.conn.state ≠ .none then some (dropWrite m s)
  else
    let s := { s with conn := { s.conn with state := .write } }
    if s.conn.writeOffset ≠ 0 then some (dropWrite m s)
    else if (s.msgs m).len = 0 then some (dropWrite m s)
    else
      let s := (s.setNext m none).arrive m
      doWritemore lwip { s with
        conn := { s.conn with currentMsg := some m, msgHead := some m, msgTail := some m } }

/-- A message comes to the stack thread. -/
def Stack.receive (s : Stack) (m : MsgId) (msg : Msg) : Stack :=
  { s with
    msgs := Function.update s.msgs m msg
    log := s.log ++ .postedMsg m :: msg.p.map fun q => .postedPbuf q.id }

/-- `_do_write`: the message of a connection without a pcb is dropped. -/
def doWriteMsg (lwip : Lwip) (m : MsgId) (s : Stack) : Option Stack :=
  if s.conn.privateData then doWrite lwip m s else some (dropWrite m s)

/-! ## Closing -/

/-- `do_close_internal` with `do_close_finished`, for a message that closes both directions: the
attempt to close counts as finished whatever lwIP answers. Without a pcb it uses a null pointer. -/
def doCloseInternal (s : Stack) : Option Stack :=
  if s.conn.state ≠ .close then some s
  else if s.conn.privateData then
    some { s with conn := { s.conn with currentMsg := none, state := .none, privateData := false } }
  else none

/-- What the sent and the poll callback do with the queue. -/
def writeCallback (lwip : Lwip) (s : Stack) : Option Stack :=
  if s.conn.state = .write then doWritemore lwip s
  else if s.conn.state = .close then doCloseInternal s
  else some s

/-- `spl_sent_tcp` -/
def splSentTcp (lwip : Lwip) (s : Stack) : Option Stack := writeCallback lwip s

/-- `spl_poll_tcp` -/
def splPollTcp (lwip : Lwip) (s : Stack) : Option Stack := writeCallback lwip s

/-- `do_delconn` -/
def doDelconn (lwip : Lwip) (m : MsgId) (s : Stack) : Option Stack :=
  if s.conn.closeProgress then some s
  else
    let s := { s with conn := { s.conn with closeProgress := true } }
    let busy := (s.conn.state = .write ∨ s.conn.state = .close) ∧
      s.conn.currentMsg ≠ none ∧ s.conn.msgTail ≠ none
    let close := fun (s : Stack) =>
      doCloseInternal { s with conn := { s.conn with state := .close, currentMsg := some m } }
    if busy then (doWritemore lwip s).bind close else close s

/-- `do_try_delconn` without a delay. -/
def doTryDelconn (lwip : Lwip) (m : MsgId) (s : Stack) : Option Stack :=
  if s.conn.privateData then doDelconn lwip m s else some s

/-- `common_pcb_reset`, which `free_conn_by_spl` calls. -/
def commonPcbReset (s : Stack) : Stack :=
  { s with conn := { s.conn with
      closeProgress := false, currentMsg := none, msgHead := none, msgTail := none,
      writeOffset := 0 } }

end Dmm.Tcp
