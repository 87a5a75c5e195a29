import Dmm.Lib.Bytes
import Dmm.Lib.Word

/-!
# Management messages

`mgr_com.c` moves messages as raw bytes: `nsfw_mgr_recv_msg_socket` receives into the very
memory whose header says how much to receive, and `nsfw_mgr_send_msg_socket` sends from it.
A message buffer is therefore its bytes here, with the fields of `nsfw_mgr_msg` read from
them at their offsets. What lies outside the program answers from lists: the bytes the peer
sent, what each `recv`, `send` and connection attempt and each allocation does.

The log collects every range of buffer memory that is handed to `recv`, `send`, `memset` or
`memcpy`, every index into a statistics or handler table, and every buffer taken or given
back.
-/

namespace Dmm.Mgr

open Dmm.Bytes Dmm.Word

/-- `MGR_MSG_RSP_BASE` -/
def msgRspBase : Nat := 512

/-- `MGR_MSG_MAX` -/
def msgMax : Nat := 1024

/-- `MGR_MSG_INIT_NTY_REQ` -/
def msgInitNtyReq : Nat := 2

/-- `MGR_MSG_INIT_NTY_RSP` -/
def msgInitNtyRsp : Nat := msgRspBase + msgInitNtyReq

/-- `MGR_MSG_LAG_QRY_RSP_BEGIN` -/
def msgLagQryRspBegin : Nat := msgRspBase + 384

/-- `MGR_MSG_LARGE_ALARM_RSP` -/
def msgLargeAlarmRsp : Nat := msgRspBase + 500

/-- `sizeof (nsfw_mgr_msg)`: 24 bytes of header and a body of `NSFW_MGR_MSG_BODY_LEN`. -/
def sizeofMsg : Nat := 504

/-- `NSFW_MGR_MSG_HDR_LEN`, which is not the size of the header. -/
def msgHdrLen : Nat := 32

/-- `NSFW_MGR_LARGE_MSG_LEN` -/
def largeMsgLen : Nat := 262144

/-- `NSFW_MGRCOM_MAX_PROC_FUN` -/
def maxProcFun : Nat := 8

/-- `MAX_RECV_COUNT` -/
def maxRecvCount : Nat := 100

/-- `MGR_COM_MAX_DROP_MSG`, as the module initialisation sets it. -/
def comMaxDropMsg : Nat := 1024

/-- `NSFW_MGR_MSG_TYPE_ERROR` -/
def msgTypeError : Nat := 1

/-- The largest number of bytes one `recv` or `send` moves. -/
def maxRwCount : Nat := 0x7ffff000

/-- Where a buffer was taken from. -/
inductive Origin
  | pool
  | heap
  deriving DecidableEq, Repr

/-- A message buffer: memory of some capacity that holds at least an `nsfw_mgr_msg`. -/
structure Buf where
  /-- Which buffer it is: the length of the log when it was taken. -/
  id : Nat
  origin : Origin
  cap : Nat
  mem : Memory
  fits : sizeofMsg ≤ cap

namespace Buf

/-- `msg_type` -/
def msgType (msg : Buf) : Nat := load msg.mem 0 2

/-- `msg_len` -/
def msgLen (msg : Buf) : Nat := load msg.mem 4 4

/-- `alloc_flag` -/
def allocFlag (msg : Buf) : Bool := bit msg.mem 8 0

/-- `fw_flag` -/
def fwFlag (msg : Buf) : Bool := bit msg.mem 8 1

/-- `from_mem` -/
def fromMem (msg : Buf) : Bool := bit msg.mem 8 2

/-- `src_proc_type` -/
def srcProcType (msg : Buf) : Nat := load msg.mem 10 1

/-- `dst_proc_type` -/
def dstProcType (msg : Buf) : Nat := load msg.mem 11 1

/-- `seq`, as the word of its bytes. -/
def seq (msg : Buf) : Nat := load msg.mem 12 4

/-- `src_pid` -/
def srcPid (msg : Buf) : Nat := load msg.mem 16 4

/-- `dst_pid` -/
def dstPid (msg : Buf) : Nat := load msg.mem 20 4

/-- A number written into the header. -/
def put (msg : Buf) (off width value : Nat) : Buf :=
  { msg with mem := Bytes.put msg.mem off width value }

/-- A flag written into the header. -/
def setFlag (msg : Buf) (position : UInt8) (value : Bool) : Buf :=
  { msg with mem := setBit msg.mem 8 position value }

/-- A store to `msg_type`. -/
def setMsgType (msg : Buf) (value : Nat) : Buf := msg.put 0 2 value

/-- A store to `msg_len`. -/
def setMsgLen (msg : Buf) (value : Nat) : Buf := msg.put 4 4 value

/-- A store to `alloc_flag`. -/
def setAllocFlag (msg : Buf) (value : Bool) : Buf := msg.setFlag 0 value

/-- A store to `fw_flag`. -/
def setFwFlag (msg : Buf) (value : Bool) : Buf := msg.setFlag 1 value

/-- A store to `from_mem`. -/
def setFromMem (msg : Buf) (value : Bool) : Buf := msg.setFlag 2 value

/-- A store to `resp_code`. -/
def setRespCode (msg : Buf) (value : Nat) : Buf := msg.put 9 1 value

/-- A store to `src_proc_type`. -/
def setSrcProcType (msg : Buf) (value : Nat) : Buf := msg.put 10 1 value

/-- A store to `dst_proc_type`. -/
def setDstProcType (msg : Buf) (value : Nat) : Buf := msg.put 11 1 value

/-- A store to `seq`. -/
def setSeq (msg : Buf) (value : Nat) : Buf := msg.put 12 4 value

/-- A store to `src_pid`. -/
def setSrcPid (msg : Buf) (value : Nat) : Buf := msg.put 16 4 value

/-- A store to `dst_pid`. -/
def setDstPid (msg : Buf) (value : Nat) : Buf := msg.put 20 4 value

/-- Received bytes written into the buffer. -/
def receive (msg : Buf) (off : Nat) (bytes : List UInt8) : Buf :=
  { msg with mem := store msg.mem off bytes }

/-- `memcpy` of the first bytes of another buffer. -/
def copy (msg source : Buf) (len : Nat) : Buf :=
  { msg with mem := fun i => if i < len then source.mem i else msg.mem i }

theorem mem_copy (msg source : Buf) {len k : Nat} (inside : k < len) :
    (msg.copy source len).mem k = source.mem k :=
  if_pos inside

theorem load_setFlag (msg : Buf) (position : UInt8) (value : Bool) {off width : Nat}
    (apart : off + width ≤ 8 ∨ 8 < off) :
    load (msg.setFlag position value).mem off width = load msg.mem off width :=
  Bytes.load_setBit apart

theorem load_put (msg : Buf) {off width place width' value : Nat}
    (apart : off + width ≤ place ∨ place + width' ≤ off) :
    load (msg.put place width' value).mem off width = load msg.mem off width :=
  Bytes.load_put apart

/-- A number of the header that does not reach byte 8 leaves the flags. -/
theorem bit_put (msg : Buf) {off width value : Nat} (apart : off + width ≤ 8 ∨ 8 < off)
    (q : Nat) : bit (msg.put off width value).mem 8 q = bit msg.mem 8 q := by
  have same : (msg.put off width value).mem 8 = msg.mem 8 :=
    store_outside (by rw [length_encode]; omega)
  rw [bit, bit, same]

theorem bit_setFlag (msg : Buf) {position : UInt8} (small : position.toNat < 8) (value : Bool)
    {q : Nat} (inside : q < 8) :
    bit (msg.setFlag position value).mem 8 q =
      if q = position.toNat then value else bit msg.mem 8 q :=
  bit_setBit msg.mem 8 small value inside

theorem allocFlag_setFromMem (msg : Buf) (value : Bool) :
    (msg.setFromMem value).allocFlag = msg.allocFlag :=
  msg.bit_setFlag (by decide) value (by decide)

theorem fromMem_setFromMem (msg : Buf) (value : Bool) :
    (msg.setFromMem value).fromMem = value :=
  msg.bit_setFlag (by decide) value (by decide)

theorem msgType_setFromMem (msg : Buf) (value : Bool) :
    (msg.setFromMem value).msgType = msg.msgType :=
  msg.load_setFlag 2 value (by omega)

theorem msgLen_setMsgLen {msg : Buf} {value : Nat} (small : value < 2 ^ 32) :
    (msg.setMsgLen value).msgLen = value := by
  rw [msgLen, setMsgLen, put, Bytes.load_put_self, Nat.mod_eq_of_lt (by omega)]

end Buf

/-- `rsp` answers `req`: the request's sequence number, and its type plus
`MGR_MSG_RSP_BASE`. -/
def Answers (req rsp : Buf) : Prop :=
  rsp.seq = req.seq ∧ rsp.msgType = req.msgType + msgRspBase

instance (req rsp : Buf) : Decidable (Answers req rsp) := inferInstanceAs (Decidable (_ ∧ _))

/-- One access or buffer movement. -/
inductive Event
  /-- Bytes `off` to `off + len` of a buffer of `cap` bytes. -/
  | range (cap off len : Nat)
  | msgRecv (type : Nat)
  | msgSend (type : Nat)
  | recvDrop (type : Nat)
  | mgrFun (type i : Nat)
  | taken (id : Nat) (origin : Origin)
  /-- A buffer of the first origin given to the second. -/
  | given (id : Nat) (origin place : Origin)
  deriving DecidableEq, Repr

/-- The access stays inside its buffer or table. -/
def Event.InBounds : Event → Prop
  | .range cap off len => off + len ≤ cap
  | .msgRecv type | .msgSend type | .recvDrop type => type < msgMax
  | .mgrFun type i => type < msgMax ∧ i < maxProcFun
  | .taken _ _ | .given _ _ _ => True

instance : DecidablePred Event.InBounds
  | .range _ _ _ => inferInstanceAs (Decidable (_ ≤ _))
  | .msgRecv _ | .msgSend _ | .recvDrop _ => inferInstanceAs (Decidable (_ < _))
  | .mgrFun _ _ => inferInstanceAs (Decidable (_ ∧ _))
  | .taken _ _ | .given _ _ _ => inferInstanceAs (Decidable True)

/-- What a `recv` does. -/
inductive RecvCall
  /-- Some bytes are there, at most this many; none means the end of the stream. -/
  | deliver (count : Nat)
  | again
  | fail
  deriving DecidableEq, Repr

/-- What a `send` does. -/
inductive SendCall
  /-- At most this many bytes are taken; none is an error. -/
  | sent (count : Nat)
  | fail
  deriving DecidableEq, Repr

/-- `nsfw_mgr_sock_info`, without its lock. -/
structure SockInfo where
  procType : Nat
  hostPid : Nat

/-- `nsfw_mgr_sock_map` and `g_mgr_sockfdmax`, after the initialisation has allocated
`sock`. -/
structure SockMap where
  procCache : Nat → Int
  sock : Nat → SockInfo
  fdMax : Nat

/-- The state the functions of `mgr_com.c` share, and what the outside will answer. When a
list of answers has run out, the next answer is a failure. -/
structure World where
  map : SockMap
  procType : Nat
  sysPid : Nat
  curIdx : Nat
  hasPool : Bool
  /-- Number of functions registered for a message type, from the first slot on. -/
  handlers : Nat → Nat
  /-- Bytes the peer sent that have not been received yet. -/
  stream : List UInt8
  recvs : List RecvCall
  sends : List SendCall
  /-- File descriptors of the next connections, not positive for a failure. -/
  connects : List Int
  /-- Which of the next takes from the pool or the heap succeed. -/
  allocs : List Bool
  log : List Event

/-- The world with one more access. -/
def World.note (w : World) (e : Event) : World := { w with log := w.log ++ [e] }

/-- All accesses so far stayed inside. -/
def World.Safe (w : World) : Prop := ∀ e ∈ w.log, e.InBounds

instance (w : World) : Decidable w.Safe :=
  inferInstanceAs (Decidable (∀ e ∈ w.log, e.InBounds))

@[simp] theorem World.safe_note (w : World) (e : Event) :
    (w.note e).Safe ↔ w.Safe ∧ e.InBounds := by
  simp [Safe, note, or_imp, forall_and]

end Dmm.Mgr
