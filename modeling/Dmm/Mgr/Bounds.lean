import Dmm.Mgr.Request

/-!
# Bounds of the receive path

A peer chooses every byte of a message, its type and its length among them. The length of a
fresh buffer is its own, so one receive stays inside it; the type is used as an index into
the statistics before anything has looked at it; and the receive and forward loop of
`nsfw_mgr_send_req_wait_rsp` reuses the length the last message announced, for the next
receive and for sending the message on. What the accesses stay inside of is stated exactly,
in terms of the messages the peer sends.
-/

namespace Dmm.Mgr

open Dmm.Bytes Dmm.Word

/-- The state outside the log does not matter for the accesses so far. -/
theorem World.safe_congr {w w' : World} (same : w'.log = w.log) : w'.Safe ↔ w.Safe := by
  unfold Safe
  rw [same]

theorem safe_note_range {w : World} {cap off len : Nat} (begun : off ≤ len) :
    (w.note (.range cap off (len - off))).Safe ↔ w.Safe ∧ len ≤ cap := by
  rw [World.safe_note, Event.InBounds, Nat.add_sub_cancel' begun]

/-- What a receive into a buffer leaves: it stayed inside exactly when the length does. -/
structure Confined (len : Nat) (msg : Buf) (w : World) (left : RecvEnd) : Prop where
  safe : left.world.Safe ↔ w.Safe ∧ len ≤ msg.cap
  cap : left.msg.cap = msg.cap
  off : left.off ≤ len

theorem Confined.after {len : Nat} {msg msg' : Buf} {w w' : World} {left : RecvEnd}
    (confined : Confined len msg' w' left) (noted : w'.Safe ↔ w.Safe ∧ len ≤ msg.cap)
    (same : msg'.cap = msg.cap) : Confined len msg w left where
  safe := by
    rw [confined.safe, noted, same, and_assoc, and_self]
  cap := confined.cap.trans same
  off := confined.off

/-- A receive loop stays inside its buffer exactly when the length does. -/
theorem recvLoop_confined {len : Nat} (calls : List RecvCall) {count off : Nat} {msg : Buf}
    {w : World} (begun : off ≤ len) : Confined len msg w (recvLoop len calls count off msg w) := by
  induction calls generalizing count off msg w with
  | nil => exact ⟨safe_note_range begun, rfl, begun⟩
  | cons call rest ih =>
    have noted (stream : List UInt8) :
        World.Safe { w.note (.range msg.cap off (len - off)) with recvs := rest, stream } ↔
          w.Safe ∧ len ≤ msg.cap := safe_note_range begun
    cases call with
    | deliver k =>
      have within : off + (w.stream.take (min k (min (len - off) maxRwCount))).length ≤ len := by
        rw [List.length_take]
        omega
      unfold recvLoop
      dsimp only
      split
      · exact ⟨noted w.stream, rfl, begun⟩
      split
      · exact (ih within).after (noted _) rfl
      · exact ⟨noted _, rfl, within⟩
    | again =>
      unfold recvLoop
      dsimp only
      split
      · split
        · exact (ih begun).after (noted w.stream) rfl
        · exact ⟨noted w.stream, rfl, begun⟩
      · exact ⟨noted w.stream, rfl, begun⟩
    | fail => exact ⟨noted w.stream, rfl, begun⟩

theorem clearedBuf_cap (msgType : Nat) (fromMem : Bool) (id : Nat) :
    (clearedBuf msgType fromMem id).cap = largeMsgLen ∨
      (clearedBuf msgType fromMem id).cap = sizeofMsg := by
  unfold clearedBuf
  dsimp only
  split
  · exact .inl rfl
  · exact .inr rfl

theorem Buf.put_same (msg : Buf) (off width value : Nat) :
    (msg.put off width value).id = msg.id ∧ (msg.put off width value).origin = msg.origin ∧
      (msg.put off width value).cap = msg.cap :=
  ⟨rfl, rfl, rfl⟩

theorem Buf.setFlag_same (msg : Buf) (position : UInt8) (value : Bool) :
    (msg.setFlag position value).id = msg.id ∧
      (msg.setFlag position value).origin = msg.origin ∧
      (msg.setFlag position value).cap = msg.cap :=
  ⟨rfl, rfl, rfl⟩

theorem headed_same (msg : Buf) (fromMem : Bool) (msgType dstProcType : Nat) (w : World) :
    (headed msg fromMem msgType dstProcType w).id = msg.id ∧
      (headed msg fromMem msgType dstProcType w).origin = msg.origin ∧
      (headed msg fromMem msgType dstProcType w).cap = msg.cap := by
  simp only [headed, Buf.setAllocFlag, Buf.setDstProcType, Buf.setMsgLen, Buf.setSrcProcType,
    Buf.setSrcPid, Buf.setMsgType, Buf.setFromMem, Buf.put_same, Buf.setFlag_same, and_self]

/-- The header carries the size of the buffer and the type asked for. -/
theorem headed_fields {msg : Buf} (small : msg.cap < 2 ^ 32) (fromMem : Bool)
    (msgType dstProcType : Nat) (w : World) :
    (headed msg fromMem msgType dstProcType w).msgLen =
        (headed msg fromMem msgType dstProcType w).cap ∧
      (headed msg fromMem msgType dstProcType w).msgType = msgType % 2 ^ 16 := by
  constructor
  · rw [(headed_same msg fromMem msgType dstProcType w).2.2, headed, Buf.msgLen, Buf.setAllocFlag,
      Buf.load_setFlag _ _ _ (by omega), Buf.setDstProcType, Buf.load_put _ (by omega)]
    exact Buf.msgLen_setMsgLen small
  · rw [headed, Buf.msgType, Buf.setAllocFlag, Buf.load_setFlag _ _ _ (by omega),
      Buf.setDstProcType, Buf.load_put _ (by omega), Buf.setMsgLen, Buf.load_put _ (by omega),
      Buf.setSrcProcType, Buf.load_put _ (by omega), Buf.setSrcPid, Buf.load_put _ (by omega)]
    exact Bytes.load_put_self _ 0 2 msgType

/-- Allocation writes its own buffer only, and the length of the buffer is its own. -/
theorem msgAlloc_safe {msgType dstProcType : Nat} {w w' : World} {msg : Option Buf}
    (allocated : msgAlloc msgType dstProcType w = (msg, w')) :
    (w'.Safe ↔ w.Safe) ∧ ∀ buf, msg = some buf →
      buf.msgLen = buf.cap ∧ buf.msgType = msgType % 2 ^ 16 := by
  unfold msgAlloc at allocated
  dsimp only at allocated
  split at allocated
  · cases allocated
    exact ⟨World.safe_congr rfl, by simp⟩
  · generalize taken :
      clearedBuf msgType (allocFromMem msgType w.hasPool) w.allocates.2.log.length = buf at allocated
    have small : buf.cap < 2 ^ 32 := by
      obtain size | size := taken ▸
        clearedBuf_cap msgType (allocFromMem msgType w.hasPool) w.allocates.2.log.length
      · rw [size]
        decide
      · rw [size]
        decide
    have noted : ((w.allocates.2.note (.taken buf.id buf.origin)).note
        (.range buf.cap 0 buf.cap)).Safe ↔ w.Safe := by
      simp [Event.InBounds, World.safe_congr (show w.allocates.2.log = w.log from rfl)]
    split at allocated
    · cases allocated
      refine ⟨(World.safe_congr rfl).trans noted, fun headed' same => ?_⟩
      rw [← Option.some.inj same]
      refine headed_fields ?_ _ _ _ _
      exact small
    · cases allocated
      refine ⟨noted, fun headed' same => ?_⟩
      rw [← Option.some.inj same]
      refine headed_fields ?_ _ _ _ _
      exact small

theorem msgFree_safe (msg : Buf) (w : World) : (msgFree msg w).Safe ↔ w.Safe := by
  unfold msgFree
  split
  · rfl
  split <;> simp [Event.InBounds]

/-- The message that the first receive loop completes. -/
def wholeMsg (msg : Buf) (w : World) : Option Buf :=
  let first := recvLoop msg.msgLen w.recvs 0 0 msg w
  if first.ok then some (first.msg.setFromMem msg.fromMem) else none

/-- What one receive needs: a length within the buffer, and a type within the tables. -/
def Receivable (msg : Buf) (w : World) : Prop :=
  msg.msgLen ≤ msg.cap ∧ ∀ whole, wholeMsg msg w = some whole → whole.msgType < msgMax

/-- The large buffer takes what follows: it is longer than what has been received. -/
theorem recvLarge_safe {len off : Nat} {msg : Buf} (w : World) (begun : off ≤ len)
    (inside : w.Safe → len ≤ msg.cap) : (recvLarge len off msg w).world.Safe ↔ w.Safe := by
  unfold recvLarge
  split
  · rename_i w' allocated
    exact (msgAlloc_safe allocated).1
  · rename_i lMsg w' allocated
    obtain ⟨safe, fields⟩ := msgAlloc_safe allocated
    have own := (fields lMsg rfl).1
    split
    · exact (msgFree_safe lMsg w').trans safe
    · rename_i longer
      have second : Confined lMsg.msgLen lMsg w' (recvLoop lMsg.msgLen w'.recvs 0 off lMsg w') :=
        recvLoop_confined _ (by omega)
      have whole : (recvLoop lMsg.msgLen w'.recvs 0 off lMsg w').world.Safe ↔ w.Safe := by
        rw [second.safe, safe, own, and_iff_left le_rfl]
      dsimp only
      split
      · exact (msgFree_safe _ _).trans whole
      · have copied : len ≤ (recvLoop lMsg.msgLen w'.recvs 0 off lMsg w').msg.cap := by
          rw [second.cap]
          omega
        simpa only [World.safe_note, Event.InBounds, Nat.zero_add, whole, copied, and_true,
          and_iff_left_iff_imp] using inside

/-- One receive stays inside exactly when the length is within the buffer and the type of a
completed message within the tables. -/
theorem recvMsgSocket_safe (msg : Buf) (wantLarge : Bool) (w : World) :
    (recvMsgSocket msg wantLarge w).world.Safe ↔ w.Safe ∧ Receivable msg w := by
  have first : Confined msg.msgLen msg w (recvLoop msg.msgLen w.recvs 0 0 msg w) :=
    recvLoop_confined _ (Nat.zero_le _)
  unfold recvMsgSocket Receivable wholeMsg
  dsimp only
  split
  · rename_i failed
    simp [first.safe, Bool.not_eq_true' _ ▸ failed]
  · rename_i completed
    have ok : (recvLoop msg.msgLen w.recvs 0 0 msg w).ok = true := by simpa using completed
    have noted (type : Nat) :
        ((recvLoop msg.msgLen w.recvs 0 0 msg w).world.note (.msgRecv type)).Safe ↔
          w.Safe ∧ msg.msgLen ≤ msg.cap ∧ type < msgMax := by
      rw [World.safe_note, first.safe, and_assoc]
      rfl
    simp only [ok, if_true, Option.some.injEq, forall_eq']
    split
    · exact noted _
    split
    · exact noted _
    · rw [recvLarge_safe _ first.off, noted]
      rw [noted]
      exact fun safe => first.cap.symm ▸ safe.2.1

/-- A send loop stays inside its buffer exactly when the length does. -/
theorem sendLoop_safe {msg : Buf} (calls : List SendCall) {off : Nat} {w : World}
    (begun : off ≤ msg.msgLen) :
    (sendLoop msg calls off w).2.Safe ↔ w.Safe ∧ msg.msgLen ≤ msg.cap := by
  induction calls generalizing off w with
  | nil => exact safe_note_range begun
  | cons call rest ih =>
    have noted : World.Safe { w.note (.range msg.cap off (msg.msgLen - off)) with sends := rest } ↔
        w.Safe ∧ msg.msgLen ≤ msg.cap := safe_note_range begun
    cases call with
    | sent k =>
      unfold sendLoop
      dsimp only
      split
      · exact noted
      split
      · rw [ih (by omega), noted, and_assoc, and_self]
      · exact noted
    | fail => exact noted

/-- A raised length is at least a message, and a buffer holds a message. -/
theorem raiseMsgLen_fields (msg : Buf) :
    sizeofMsg ≤ (raiseMsgLen msg).msgLen ∧
      ((raiseMsgLen msg).msgLen ≤ (raiseMsgLen msg).cap ↔ msg.msgLen ≤ msg.cap) ∧
      (raiseMsgLen msg).msgType = msg.msgType := by
  have fits := msg.fits
  unfold raiseMsgLen
  split
  · rename_i short
    have raised : (msg.setMsgLen sizeofMsg).msgLen = sizeofMsg :=
      Buf.msgLen_setMsgLen (by decide)
    refine ⟨raised.ge, ?_, msg.load_put (by omega)⟩
    rw [raised]
    exact ⟨fun _ => by omega, fun _ => fits⟩
  · exact ⟨by omega, Iff.rfl, rfl⟩

/-- Sending a message stays inside exactly when its length is within the buffer and, if it
is sent, its type within the tables. -/
theorem sendMsgSocket_safe (msg : Buf) (w : World) :
    (sendMsgSocket msg w).2.2.Safe ↔ w.Safe ∧ msg.msgLen ≤ msg.cap ∧
      ((sendMsgSocket msg w).1 = true → msg.msgType < msgMax) := by
  obtain ⟨long, inside, type⟩ := raiseMsgLen_fields msg
  have short : (if (raiseMsgLen msg).msgType = msgLargeAlarmRsp then msgHdrLen else 0) ≤
      (raiseMsgLen msg).msgLen := by
    have header : msgHdrLen ≤ sizeofMsg := by decide
    split <;> omega
  have loop := sendLoop_safe (w := w) w.sends short
  unfold sendMsgSocket
  dsimp only
  generalize (if (raiseMsgLen msg).msgType = msgLargeAlarmRsp then msgHdrLen else 0) = off at loop ⊢
  split
  · simp [loop, inside, Event.InBounds, type, and_assoc]
  · simp [loop, inside]

/-- Looking up a destination reads no message memory and none of the tables. -/
theorem destination_safe (msg : Buf) (w : World) : (destination msg w).2.Safe ↔ w.Safe := by
  apply World.safe_congr
  unfold destination getNewSocket getConnectSocket
  dsimp only
  split_ifs <;> rfl

/-- `nsfw_mgr_send_msg` finds a socket for the message and does not wait for its own lock. -/
def Routed (held : Option Int) (msg : Buf) (w : World) : Prop :=
  let (fd, w) := destination msg w
  0 < fd ∧ ¬ (fd < w.map.fdMax ∧ held = some fd)

/-- `nsfw_mgr_send_msg` stays inside exactly when a message that finds a socket has its
length within the buffer and, if it is sent, its type within the tables. -/
theorem sendMsg_safe (held : Option Int) (msg : Buf) (w : World) :
    (sendMsg held msg w).2.2.Safe ↔ w.Safe ∧ (Routed held msg w → msg.msgLen ≤ msg.cap ∧
      ((sendMsg held msg w).1 = .returned true → msg.msgType < msgMax)) := by
  have same := destination_safe msg w
  unfold sendMsg Routed
  cases found : destination msg w with
  | mk fd w' =>
    rw [found] at same
    dsimp only at same ⊢
    by_cases nowhere : fd ≤ 0
    · simp [nowhere, same, not_lt.mpr nowhere]
    by_cases locked : fd < w'.map.fdMax ∧ held = some fd
    · simp [nowhere, locked, same]
    · simp [nowhere, locked, sendMsgSocket_safe, same, lt_of_not_ge nowhere]

/-- Without a large buffer a receive succeeds with the message its loop completes. -/
theorem wholeMsg_eq (msg : Buf) (w : World) :
    wholeMsg msg w = if (recvMsgSocket msg false w).ok then
      some (recvMsgSocket msg false w).msg else none := by
  unfold wholeMsg recvMsgSocket
  cases completed : (recvLoop msg.msgLen w.recvs 0 0 msg w).ok with
  | false => simp [completed]
  | true =>
    simp only [completed, Bool.not_true, Bool.false_eq_true, if_false, if_true, Bool.not_false]
    split <;> simp

/-- What one iteration of the loop needs of the message it receives: it is received inside
the buffer, and if it is sent on, it does not announce more than the buffer holds. -/
def RoundFits (req : Buf) (held : Option Int) (s : Waiting) : Prop :=
  let got := recvMsgSocket s.1 false s.2
  Receivable s.1 s.2 ∧ (got.ok = true → ¬ Answers req got.msg →
    Routed held (got.msg.setFwFlag true) got.world → got.msg.msgLen ≤ got.msg.cap)

/-- Every iteration the loop reaches finds what it needs. -/
def RoundsFit (req : Buf) (held : Option Int) (n : Nat) (s : Waiting) : Prop :=
  ∀ i < n, ∀ s', drops req held i s = some s' → RoundFits req held s'

/-- A message that is sent on: the index into the statistics has been used before. -/
theorem forward_safe {req : Buf} (held : Option Int) {s : Waiting}
    (received : (recvMsgSocket s.1 false s.2).ok = true)
    (answers : ¬ Answers req (recvMsgSocket s.1 false s.2).msg) :
    (sendMsg held ((recvMsgSocket s.1 false s.2).msg.setFwFlag true)
      (recvMsgSocket s.1 false s.2).world).2.2.Safe ↔ s.2.Safe ∧ RoundFits req held s := by
  have whole := wholeMsg_eq s.1 s.2
  have len (msg : Buf) : (msg.setFwFlag true).msgLen = msg.msgLen :=
    msg.load_setFlag _ _ (by omega)
  have type (msg : Buf) : (msg.setFwFlag true).msgType = msg.msgType :=
    msg.load_setFlag _ _ (by omega)
  rw [if_pos received] at whole
  rw [sendMsg_safe, recvMsgSocket_safe, len, type, RoundFits, and_assoc]
  apply and_congr_right
  intro _
  apply and_congr_right
  intro receivable
  exact ⟨fun fits _ _ routed => (fits routed).1,
    fun fits routed => ⟨fits received answers routed, fun _ => receivable.2 _ whole⟩⟩

/-- The receive and forward loop stays inside exactly when every iteration it reaches finds
what it needs. -/
theorem waitLoop_safe (req : Buf) (held : Option Int) (n : Nat) (s : Waiting) :
    (waitLoop req held n s.1 s.2).2.2.Safe ↔ s.2.Safe ∧ RoundsFit req held n s := by
  induction n generalizing s with
  | zero => simp [waitLoop, RoundsFit]
  | succ n ih =>
    have receiving := recvMsgSocket_safe s.1 false s.2
    rw [RoundsFit, forall_drops_succ]
    cases received : (recvMsgSocket s.1 false s.2).ok with
    | false => simp [waitLoop, waitRound, RoundFits, drop, received, receiving]
    | true =>
      by_cases answers : Answers req (recvMsgSocket s.1 false s.2).msg
      · simp [waitLoop, waitRound, RoundFits, drop, received, receiving, answers]
      have forwarding := forward_safe held received answers
      cases sending : sendMsg held ((recvMsgSocket s.1 false s.2).msg.setFwFlag true)
          (recvMsgSocket s.1 false s.2).world with
      | mk outcome after =>
        rw [sending] at forwarding
        cases outcome with
        | blocked => simpa [waitLoop, waitRound, drop, received, answers, sending] using forwarding
        | returned ok =>
          have dropped : drop req held s = some after := by
            simp [drop, received, answers, sending]
          rw [waitLoop, waitRound_of_drop dropped, ih after, forwarding, and_assoc]
          simp [dropped, RoundsFit]

/-- The loop over the registered functions stays inside the handler table. -/
theorem dispatch_safe {msgType : Nat} (known : msgType < msgMax) {n : Nat} (w : World)
    (within : n ≤ maxProcFun) : (dispatch msgType n w).2.Safe ↔ w.Safe := by
  induction n generalizing w with
  | zero => rfl
  | succ n ih =>
    have noted : (w.note (.mgrFun msgType (maxProcFun - (n + 1)))).Safe ↔ w.Safe := by
      rw [World.safe_note, Event.InBounds, and_iff_left ⟨known, by omega⟩]
    unfold dispatch
    dsimp only
    split
    · exact noted
    · exact (ih _ (by omega)).trans noted

/-- The automatic response stays inside: it is a buffer of its own. -/
theorem autoRsp_safe {msg : Buf} (request : msg.msgType < msgRspBase) (w : World) :
    (autoRsp msg w).Safe ↔ w.Safe := by
  unfold autoRsp rspMsgAlloc
  cases allocated : msgAlloc ((msg.msgType + msgRspBase) % 2 ^ 16) msg.srcProcType w with
  | mk taken w' =>
    obtain ⟨safe, fields⟩ := msgAlloc_safe allocated
    cases taken with
    | none => exact safe
    | some rsp =>
      obtain ⟨own, typed⟩ := fields rsp rfl
      have len : (((rsp.setDstPid msg.srcPid).setSeq msg.seq).setRespCode msgTypeError).msgLen =
          rsp.cap := by
        rw [Buf.msgLen, Buf.setRespCode, Buf.load_put _ (by omega), Buf.setSeq,
          Buf.load_put _ (by omega), Buf.setDstPid, Buf.load_put _ (by omega)]
        exact own
      have type : (((rsp.setDstPid msg.srcPid).setSeq msg.seq).setRespCode msgTypeError).msgType <
          msgMax := by
        rw [Buf.msgType, Buf.setRespCode, Buf.load_put _ (by omega), Buf.setSeq,
          Buf.load_put _ (by omega), Buf.setDstPid, Buf.load_put _ (by omega)]
        change rsp.msgType < msgMax
        rw [typed]
        unfold msgRspBase msgMax at *
        omega
      dsimp only
      rw [msgFree_safe, sendMsg_safe, safe, len]
      exact and_iff_left fun _ => ⟨le_rfl, fun _ => type⟩

/-- The drop stays inside: both indices have been compared before. -/
theorem dropMsg_safe (msg : Buf) (w : World) : (dropMsg msg w).Safe ↔ w.Safe := by
  have answered : (if msg.msgType < msgRspBase then autoRsp msg w else w).Safe ↔ w.Safe := by
    split
    · exact autoRsp_safe ‹_› w
    · rfl
  unfold dropMsg
  dsimp only
  generalize (if msg.msgType < msgRspBase then autoRsp msg w else w) = w' at answered ⊢
  rw [msgFree_safe]
  split
  · rename_i known
    rw [World.safe_note, answered]
    exact and_iff_left known
  · exact answered

/-- Handling a received message stays inside: its type is compared before it is used. -/
theorem handleMsg_safe (fd : Int) (msg : Buf) (w : World) :
    (handleMsg fd msg w).2.Safe ↔ w.Safe := by
  have known : (if !msg.fwFlag then
      { w with map := newSocket fd msg.srcProcType msg.srcPid w.map } else w).Safe ↔ w.Safe := by
    split <;> rfl
  unfold handleMsg
  dsimp only
  generalize (if !msg.fwFlag then
    { w with map := newSocket fd msg.srcProcType msg.srcPid w.map } else w) = w' at known ⊢
  have dispatched : (if msg.msgType < msgMax then dispatch msg.msgType maxProcFun w'
      else (false, w')).2.Safe ↔ w.Safe := by
    split
    · exact (dispatch_safe ‹_› w' le_rfl).trans known
    · exact known
  generalize (if msg.msgType < msgMax then dispatch msg.msgType maxProcFun w' else (false, w')) =
    result at dispatched ⊢
  split
  · exact (msgFree_safe _ _).trans dispatched
  · exact (dropMsg_safe _ _).trans dispatched

/-- The buffer `nsfw_mgr_msg_in` receives into announces its own size. -/
theorem receivable_of_alloc {w w' : World} {buf : Buf}
    (allocated : nullRspmsgAlloc w = (some buf, w')) :
    Receivable buf w' ↔ ∀ whole, wholeMsg buf w' = some whole → whole.msgType < msgMax :=
  and_iff_right ((msgAlloc_safe allocated).2 buf rfl).1.le

/-- `nsfw_mgr_msg_in` stays inside exactly when the type of a completed message is within the
tables. -/
theorem msgIn_safe (fd : Int) (w : World) :
    (msgIn fd w).2.Safe ↔ w.Safe ∧ ∀ buf w', nullRspmsgAlloc w = (some buf, w') →
      ∀ whole, wholeMsg buf w' = some whole → whole.msgType < msgMax := by
  cases allocated : nullRspmsgAlloc w with
  | mk taken w' =>
    obtain ⟨safe, _⟩ := msgAlloc_safe allocated
    cases taken with
    | none => simp [msgIn, allocated, safe]
    | some buf =>
      have receiving := recvMsgSocket_safe buf true w'
      rw [receivable_of_alloc allocated, safe] at receiving
      have taking : (recvMsgSocket buf true w').take.2.Safe ↔
          (recvMsgSocket buf true w').world.Safe := by
        unfold Received.take
        split
        · exact msgFree_safe _ _
        · rfl
      have result : (msgIn fd w).2.Safe ↔ (recvMsgSocket buf true w').world.Safe := by
        unfold msgIn
        simp only [allocated]
        split
        · exact (msgFree_safe _ _).trans taking
        · exact (handleMsg_safe _ _ _).trans taking
      rw [result, receiving]
      apply and_congr_right
      intro _
      constructor
      · rintro known _ _ ⟨⟩
        exact known
      · intro known
        exact known buf w' rfl

/-- What the receive path may do, by the messages of the peer: one receive, the event thread's
`nsfw_mgr_msg_in`, and the receive and forward loop. -/
theorem receive_in_bounds_iff (w : World) :
    (∀ msg wantLarge, (recvMsgSocket msg wantLarge w).world.Safe ↔ w.Safe ∧ Receivable msg w) ∧
    (∀ fd, (msgIn fd w).2.Safe ↔ w.Safe ∧ ∀ buf w', nullRspmsgAlloc w = (some buf, w') →
      ∀ whole, wholeMsg buf w' = some whole → whole.msgType < msgMax) ∧
    ∀ req held rsp, (waitLoop req held comMaxDropMsg rsp w).2.2.Safe ↔
      w.Safe ∧ RoundsFit req held comMaxDropMsg (rsp, w) :=
  ⟨fun msg wantLarge => recvMsgSocket_safe msg wantLarge w, fun fd => msgIn_safe fd w,
    fun req held rsp => waitLoop_safe req held _ (rsp, w)⟩

/-- A message of type 65535. -/
def unknownType : List UInt8 :=
  [255, 255, 0, 0, 248, 1, 0, 0] ++ List.replicate 496 0

/-- A message that is not the response and announces 1000 bytes, and 600 bytes more. -/
def overlong : List UInt8 :=
  [3, 2, 0, 0, 232, 3, 0, 0, 0, 0, 1, 0, 7, 0, 0, 0, 77, 0, 0, 0, 0, 0, 0, 0] ++
    List.replicate 480 0 ++ List.replicate 600 1

/-- The main process is connected, and its peer sends these bytes in these pieces. -/
def peerWorld (stream : List UInt8) (recvs : List RecvCall) : World :=
  { strayWorld 0 with stream, recvs, allocs := [true] }

/-- A type beyond the tables is used as an index, and a length beyond the buffer is received:
the byte after the response buffer has been overwritten. -/
theorem receive_out_of_bounds :
    ¬ (msgIn 5 (peerWorld unknownType [.deliver 504])).2.Safe ∧
      nullRsp.cap = 504 ∧ nullRsp.mem 504 = 0 ∧
      (waitLoop heartbeat (some 5) comMaxDropMsg nullRsp
        (peerWorld overlong [.deliver 504, .deliver 600])).2.1.mem 504 = 1 ∧
      ¬ (waitLoop heartbeat (some 5) comMaxDropMsg nullRsp
        (peerWorld overlong [.deliver 504, .deliver 600])).2.2.Safe := by
  decide +kernel
end Dmm.Mgr
