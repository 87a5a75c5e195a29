import Dmm.Mgr.Message

/-!
# Receiving, sending and waiting for a response

The functions of `mgr_com.c` between a socket and a message buffer: allocation and free, the
receive and send loops, the lookup of a destination socket, `nsfw_mgr_send_req_wait_rsp`
with its receive and forward loop, and `nsfw_mgr_msg_in`, which the event thread calls for a
readable socket. Locking an fd whose lock the caller already holds never returns.
-/

namespace Dmm.Mgr

open Dmm.Bytes Dmm.Word

/-- The next answer about an allocation. -/
def World.allocates (w : World) : Bool × World :=
  (w.allocs.headD false, { w with allocs := w.allocs.tail })

/-- `nsfw_mgr_msg_alloc` takes from the heap: a large message, or the first notification
while there is no pool. -/
def allocFromMem (msgType : Nat) (hasPool : Bool) : Bool :=
  decide (msgLagQryRspBegin ≤ msgType) ||
    !hasPool && (decide (msgType = msgInitNtyReq) || decide (msgType = msgInitNtyRsp))

/-- The buffer `nsfw_mgr_msg_alloc` takes, of `alloc_len` bytes and cleared. -/
def clearedBuf (msgType : Nat) (fromMem : Bool) (id : Nat) : Buf :=
  let origin := if fromMem then Origin.heap else .pool
  if msgLagQryRspBegin ≤ msgType then ⟨id, origin, largeMsgLen, fun _ => 0, by decide⟩
  else ⟨id, origin, sizeofMsg, fun _ => 0, le_rfl⟩

/-- A type for which `nsfw_mgr_msg_alloc` draws a sequence number. -/
def Numbered (msgType : Nat) : Prop := msgType < msgRspBase ∧ 0 < msgType

instance : DecidablePred Numbered := fun _ => inferInstanceAs (Decidable (_ ∧ _))

/-- The header fields `nsfw_mgr_msg_alloc` fills in. -/
def headed (msg : Buf) (fromMem : Bool) (msgType dstProcType : Nat) (w : World) : Buf :=
  let msg' := ((msg.setFromMem fromMem).setMsgType msgType).setSrcPid w.sysPid
  let msg' := ((msg'.setSrcProcType w.procType).setMsgLen msg.cap).setDstProcType dstProcType
  msg'.setAllocFlag true

/-- `nsfw_mgr_msg_alloc` -/
def msgAlloc (msgType dstProcType : Nat) (w : World) : Option Buf × World :=
  let fromMem := allocFromMem msgType w.hasPool
  let (got, w) := w.allocates
  if !got then (none, w) else
  let buf := clearedBuf msgType fromMem w.log.length
  let w := (w.note (.taken buf.id buf.origin)).note (.range buf.cap 0 buf.cap)
  let w := if Numbered msgType then { w with curIdx := w.curIdx + 1 } else w
  let msg := if Numbered msgType then buf.setSeq w.curIdx else buf
  (some (headed msg fromMem msgType dstProcType w), w)

/-- `nsfw_mgr_null_rspmsg_alloc` -/
def nullRspmsgAlloc (w : World) : Option Buf × World := msgAlloc 0 0 w

/-- `nsfw_mgr_rsp_msg_alloc`; the type is passed as a `u16`. -/
def rspMsgAlloc (req : Buf) (w : World) : Option Buf × World :=
  match msgAlloc ((req.msgType + msgRspBase) % 2 ^ 16) req.srcProcType w with
  | (none, w) => (none, w)
  | (some msg, w) => (some ((msg.setDstPid req.srcPid).setSeq req.seq), w)

/-- `nsfw_mgr_msg_free`; a buffer without `alloc_flag` is left where it is. -/
def msgFree (msg : Buf) (w : World) : World :=
  if !msg.allocFlag then w
  else if msg.fromMem && (decide (msg.msgType = msgInitNtyReq) ||
      decide (msg.msgType = msgInitNtyRsp) || decide (msgLagQryRspBegin ≤ msg.msgType)) then
    w.note (.given msg.id msg.origin .heap)
  else w.note (.given msg.id msg.origin .pool)

/-- What a receive loop ends with. -/
structure RecvEnd where
  /-- The loop ended by its condition, not by an error. -/
  ok : Bool
  /-- Bytes received into the buffer, from its start. -/
  off : Nat
  msg : Buf
  world : World

/-- The `do` loop of `nsfw_mgr_recv_msg_socket` over the answers of `recv`, with `max_count`
and `off_set`. A `continue` goes to the loop condition, which compares with the length as an
`i32`. -/
def recvLoop (len : Nat) : List RecvCall → Nat → Nat → Buf → World → RecvEnd
  | [], _, off, msg, w => ⟨false, off, msg, w.note (.range msg.cap off (len - off))⟩
  | .deliver k :: rest, count, off, msg, w =>
    let w := { w.note (.range msg.cap off (len - off)) with recvs := rest }
    let bytes := w.stream.take (min k (min (len - off) maxRwCount))
    if bytes = [] then ⟨false, off, msg, w⟩ else
    let w := { w with stream := w.stream.drop bytes.length }
    let msg := msg.receive off bytes
    let off := off + bytes.length
    if off < int32 len then recvLoop len rest count off msg w else ⟨true, off, msg, w⟩
  | .again :: rest, count, off, msg, w =>
    let w := { w.note (.range msg.cap off (len - off)) with recvs := rest }
    if count < maxRecvCount then
      if off < int32 len then recvLoop len rest (count + 1) off msg w else ⟨true, off, msg, w⟩
    else ⟨false, off, msg, w⟩
  | .fail :: rest, _, off, msg, w =>
    ⟨false, off, msg, { w.note (.range msg.cap off (len - off)) with recvs := rest }⟩

/-- What `nsfw_mgr_recv_msg_socket` returns and leaves in its arguments. -/
structure Received where
  ok : Bool
  msg : Buf
  large : Option Buf
  world : World

/-- The second half of `nsfw_mgr_recv_msg_socket`: a message that announces more than was
received goes on into a large buffer. -/
def recvLarge (len off : Nat) (msg : Buf) (w : World) : Received :=
  match msgAlloc msg.msgType msg.dstProcType w with
  | (none, w) => ⟨true, msg, none, w⟩
  | (some lMsg, w) =>
    if lMsg.msgLen ≤ len then ⟨true, msg, none, msgFree lMsg w⟩ else
    let second := recvLoop lMsg.msgLen w.recvs 0 off lMsg w
    if !second.ok then
      ⟨false, msg, none, msgFree (second.msg.setFromMem lMsg.fromMem) second.world⟩
    else
      let w := (second.world.note (.range second.msg.cap 0 len)).note (.range msg.cap 0 len)
      let large := (second.msg.copy msg len).setFromMem lMsg.fromMem
      ⟨true, msg, some (large.setMsgLen lMsg.msgLen), w⟩

/-- `nsfw_mgr_recv_msg_socket`, with or without a `large_msg` to return. -/
def recvMsgSocket (msg : Buf) (wantLarge : Bool) (w : World) : Received :=
  let first := recvLoop msg.msgLen w.recvs 0 0 msg w
  -- `from_mem` is the one flag that is restored
  let received := first.msg.setFromMem msg.fromMem
  if !first.ok then ⟨false, received, none, first.world⟩ else
  let w := first.world.note (.msgRecv received.msgType)
  if received.msgLen ≤ msg.msgLen then ⟨true, received, none, w⟩
  else if !wantLarge then ⟨true, received, none, w⟩
  else recvLarge msg.msgLen first.off received w

/-- The `do` loop of `nsfw_mgr_send_msg_socket` over the answers of `send`. -/
def sendLoop (msg : Buf) : List SendCall → Nat → World → Bool × World
  | [], off, w => (false, w.note (.range msg.cap off (msg.msgLen - off)))
  | .sent k :: rest, off, w =>
    let w := { w.note (.range msg.cap off (msg.msgLen - off)) with sends := rest }
    let count := min k (min (msg.msgLen - off) maxRwCount)
    if count = 0 then (false, w)
    else if ((off + count : Nat) : Int) < int32 msg.msgLen then
      sendLoop msg rest (off + count) w
    else (true, w)
  | .fail :: rest, off, w =>
    (false, { w.note (.range msg.cap off (msg.msgLen - off)) with sends := rest })

/-- A length below the size of a message is raised to it before sending. -/
def raiseMsgLen (msg : Buf) : Buf :=
  if msg.msgLen < sizeofMsg then msg.setMsgLen sizeofMsg else msg

/-- `nsfw_mgr_send_msg_socket`: the return value and the message, whose length may have been
raised. -/
def sendMsgSocket (msg : Buf) (w : World) : Bool × Buf × World :=
  let msg := raiseMsgLen msg
  let off := if msg.msgType = msgLargeAlarmRsp then msgHdrLen else 0
  let (ok, w) := sendLoop msg w.sends off w
  if ok then (true, msg, w.note (.msgSend msg.msgType)) else (false, msg, w)

/-- `NSFW_PROC_MAX` -/
def procMax : Nat := 16

/-- `nsfw_mgr_new_socket` -/
def newSocket (fd : Int) (procType hostPid : Nat) (map : SockMap) : SockMap :=
  if (map.fdMax : Int) ≤ fd ∨ fd < 0 then map else
  { map with
    sock := Function.update map.sock fd.toNat ⟨procType, hostPid⟩
    procCache := if procType < procMax then Function.update map.procCache procType fd
      else map.procCache }

/-- `nsfw_mgr_get_dst_socket` -/
def getDstSocket (procType dstPid : Nat) (map : SockMap) : Int :=
  let fd := if procType < procMax then map.procCache procType else -1
  let info := map.sock fd.toNat
  let cached := decide (0 < fd ∧ fd < map.fdMax) &&
    if info.hostPid ≠ 0 then decide (dstPid = 0 ∨ dstPid = info.hostPid)
    else decide (procType = info.procType)
  if cached then fd else
  match (List.range map.fdMax).find? fun i =>
      (map.sock i).hostPid ≠ 0 ∧ procType = (map.sock i).procType ∧
        (dstPid = 0 ∨ dstPid = (map.sock i).hostPid) with
  | some i => i
  | none => -1

/-- `nsfw_mgr_get_connect_socket`: only the main process and the alarm process have an
address. -/
def getConnectSocket (procType : Nat) (w : World) : Int × World :=
  if procType = 1 ∨ procType = 6 then
    (w.connects.headD (-1), { w with connects := w.connects.tail })
  else (-1, w)

/-- `nsfw_mgr_get_new_socket` -/
def getNewSocket (procType dstPid : Nat) (w : World) : Int × World :=
  let (fd, w) := getConnectSocket procType w
  (fd, if 0 < fd then { w with map := newSocket fd procType dstPid w.map } else w)

/-- The socket `nsfw_mgr_send_req_wait_rsp` sends a message to, not positive for none. -/
def destination (msg : Buf) (w : World) : Int × World :=
  let fd := getDstSocket msg.dstProcType msg.dstPid w.map
  if fd ≤ 0 then getNewSocket msg.dstProcType msg.dstPid w else (fd, w)

/-- How a call ends. -/
inductive Outcome
  | returned (ok : Bool)
  | blocked
  deriving DecidableEq, Repr

/-- `nsfw_mgr_send_msg`: `nsfw_mgr_send_req_wait_rsp` without a response buffer, called with
the lock of an fd held or not. -/
def sendMsg (held : Option Int) (msg : Buf) (w : World) : Outcome × Buf × World :=
  let (fd, w) := destination msg w
  if fd ≤ 0 then (.returned false, msg, w)
  else if fd < w.map.fdMax ∧ held = some fd then (.blocked, msg, w)
  else
    let (ok, msg, w) := sendMsgSocket msg w
    (.returned ok, msg, w)

/-- One iteration of the receive and forward loop of `nsfw_mgr_send_req_wait_rsp`, with the
iterations that follow. -/
def waitRound (req : Buf) (held : Option Int) (further : Buf → World → Option Outcome × Buf × World)
    (rsp : Buf) (w : World) : Option Outcome × Buf × World :=
  let got := recvMsgSocket rsp false w
  if !got.ok then (some (.returned false), got.msg, got.world)
  else if Answers req got.msg then (none, got.msg, got.world)
  else
    match sendMsg held (got.msg.setFwFlag true) got.world with
    | (.blocked, rsp, w) => (some .blocked, rsp, w)
    | (.returned _, rsp, w) => further rsp w

/-- The receive and forward loop, `n` iterations from its end. It is left without an outcome
when the response is there or when the count has run out. -/
def waitLoop (req : Buf) (held : Option Int) : Nat → Buf → World → Option Outcome × Buf × World
  | 0, rsp, w => (none, rsp, w)
  | n + 1, rsp, w => waitRound req held (waitLoop req held n) rsp w

/-- The lock that `LOCK_MGR_FD` takes. -/
def lockMgrFd (fd : Int) (w : World) : Option Int := if fd < w.map.fdMax then some fd else none

/-- `nsfw_mgr_send_req_wait_rsp` with a response buffer: the outcome and the response. -/
def sendReqWaitRsp (req rsp : Buf) (w : World) : Outcome × Buf × World :=
  let (fd, w) := destination req w
  if fd ≤ 0 then (.returned false, rsp, w) else
  let (ok, req, w) := sendMsgSocket req w
  if !ok then (.returned false, rsp, w) else
  match waitLoop req (lockMgrFd fd w) comMaxDropMsg rsp w with
  | (some outcome, rsp, w) => (outcome, rsp, w)
  | (none, rsp, w) =>
    (.returned true, rsp, if req.dstPid = 0 then
      { w with map := newSocket fd rsp.srcProcType rsp.srcPid w.map } else w)

/-- The loop of `nsfw_mgr_msg_in` over the functions registered for a type: whether one was
called. -/
def dispatch (msgType : Nat) : Nat → World → Bool × World
  | 0, w => (false, w)
  | n + 1, w =>
    let i := maxProcFun - (n + 1)
    let w := w.note (.mgrFun msgType i)
    if w.handlers msgType ≤ i then (false, w)
    else
      let (_, w) := dispatch msgType n w
      (true, w)

/-- The automatic response of `nsfw_mgr_msg_in` to a request nobody handles. -/
def autoRsp (msg : Buf) (w : World) : World :=
  match rspMsgAlloc msg w with
  | (none, w) => w
  | (some rsp, w) =>
    let (_, rsp, w) := sendMsg none (rsp.setRespCode msgTypeError) w
    msgFree rsp w

/-- The end of `nsfw_mgr_msg_in`, for a message no function was called for. -/
def dropMsg (msg : Buf) (w : World) : World :=
  let w := if msg.msgType < msgRspBase then autoRsp msg w else w
  let w := if msg.msgType < msgMax then w.note (.recvDrop msg.msgType) else w
  msgFree msg w

/-- The message `nsfw_mgr_msg_in` goes on with: the large one, if there is one. -/
def Received.take (got : Received) : Buf × World :=
  match got.large with
  | some large => (large, msgFree got.msg got.world)
  | none => (got.msg, got.world)

/-- The rest of `nsfw_mgr_msg_in` after a successful receive. -/
def handleMsg (fd : Int) (msg : Buf) (w : World) : Bool × World :=
  let w := if !msg.fwFlag then
      { w with map := newSocket fd msg.srcProcType msg.srcPid w.map } else w
  let (called, w) := if msg.msgType < msgMax then dispatch msg.msgType maxProcFun w
    else (false, w)
  if called then (true, msgFree msg w) else (false, dropMsg msg w)

/-- `nsfw_mgr_msg_in`: the return value. -/
def msgIn (fd : Int) (w : World) : Bool × World :=
  match nullRspmsgAlloc w with
  | (none, w) => (false, w)
  | (some buf, w) =>
    let got := recvMsgSocket buf true w
    let (msg, w) := got.take
    if !got.ok then (false, msgFree msg w) else handleMsg fd msg w

end Dmm.Mgr
