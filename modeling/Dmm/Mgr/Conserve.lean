import Dmm.Lib.Run
import Dmm.Mgr.Stream

/-!
# Conservation of message buffers

`nsfw_mgr_msg_in` takes up to three buffers: the one it receives into, a large one for a message
that announces more, and one for an automatic response. Whether a buffer is given back is
decided by `alloc_flag`, a bit of the header that the received bytes overwrite and that, unlike
`from_mem`, is not restored. So the account of the first two depends on a bit the peer sent.
-/

namespace Dmm.Mgr

open Dmm.Bytes Dmm.Word

/-! ## The account of single steps -/

/-- An allocated buffer is out. -/
theorem World.Owes.alloc {w w' : World} {held : List (Nat × Origin)} {msgType : Nat} {buf : Buf}
    (owes : w.Owes held) (allocated : Allocated msgType w buf w') :
    w'.Owes ((buf.id, buf.origin) :: held) := by
  have fresh : buf.id ∉ (w.log.filterMap Event.takes).map Prod.fst := by
    intro mem
    have before := owes.passed _ mem
    rw [allocated.id] at before
    exact lt_irrefl _ before
  have taken : (w.note (.taken buf.id buf.origin)).Owes ((buf.id, buf.origin) :: held) := by
    constructor
    · exact owes.account.take rfl rfl fresh
    · intro id mem
      simp only [World.note, List.filterMap_append, List.map_append, List.mem_append,
        List.length_append, List.length_singleton] at mem ⊢
      cases mem with
      | inl early =>
        have before := owes.passed id early
        omega
      | inr late =>
        simp only [List.filterMap_cons, Event.takes, List.filterMap_nil, List.map_cons,
          List.map_nil, List.mem_singleton] at late
        rw [late, allocated.id]
        omega
  apply taken.quiet
  exact ⟨[.range buf.cap 0 buf.cap], allocated.log, by simp [Event.takes, Event.gives]⟩

theorem World.Owes.free {w : World} {held : List (Nat × Origin)} {m : Buf}
    (owes : w.Owes ((m.id, m.origin) :: held)) (flag : m.allocFlag = true)
    (home : m.givenTo = m.origin) : (msgFree m w).Owes held := by
  rw [msgFree_flagged flag, home]
  constructor
  · exact owes.account.give rfl rfl
  · intro id mem
    simp only [World.note, List.filterMap_append, List.length_append, List.length_singleton,
      List.filterMap_cons, Event.takes, List.filterMap_nil, List.append_nil] at mem ⊢
    have before := owes.passed id mem
    omega

/-- A buffer with or without `alloc_flag`, after `nsfw_mgr_msg_free`. -/
def left (msg : Buf) : List (Nat × Origin) :=
  if msg.allocFlag then [] else [(msg.id, msg.origin)]

/-- A message with `alloc_flag` is given back, and one without it is lost. -/
theorem World.Owes.free_left {w : World} {held : List (Nat × Origin)} {msg : Buf}
    (owes : w.Owes ((msg.id, msg.origin) :: held)) (home : msg.givenTo = msg.origin) :
    (msgFree msg w).Owes (left msg ++ held) := by
  unfold left
  cases flag : msg.allocFlag with
  | true => exact owes.free flag home
  | false =>
    rw [msgFree_unflagged flag]
    exact owes

theorem sendLoop_quiet (msg : Buf) (calls : List SendCall) (off : Nat) (w : World) :
    Quiet w (sendLoop msg calls off w).2 := by
  induction calls generalizing off w with
  | nil => exact Quiet.note w ⟨rfl, rfl⟩
  | cons call rest ih =>
    have noted : Quiet w { w.note (.range msg.cap off (msg.msgLen - off)) with sends := rest } :=
      Quiet.note w ⟨rfl, rfl⟩
    cases call with
    | sent k =>
      unfold sendLoop
      dsimp only
      split
      · exact noted
      · split
        · exact noted.trans (ih _ _)
        · exact noted
    | fail => exact noted

theorem sendMsgSocket_quiet (msg : Buf) (w : World) : Quiet w (sendMsgSocket msg w).2.2 := by
  unfold sendMsgSocket
  dsimp only
  generalize (if (raiseMsgLen msg).msgType = msgLargeAlarmRsp then msgHdrLen else 0) = off
  have loop := sendLoop_quiet (raiseMsgLen msg) w.sends off w
  split
  · exact loop.trans (Quiet.note _ ⟨rfl, rfl⟩)
  · exact loop

theorem sendMsg_quiet (held : Option Int) (msg : Buf) (w : World) :
    Quiet w (sendMsg held msg w).2.2 := by
  have looked : Quiet w (destination msg w).2 := by
    apply Quiet.of_eq
    unfold destination getNewSocket getConnectSocket
    dsimp only
    split_ifs <;> rfl
  unfold sendMsg
  cases found : destination msg w with
  | mk fd w' =>
    rw [found] at looked
    dsimp only at looked ⊢
    split
    · exact looked
    · split
      · exact looked
      · exact looked.trans (sendMsgSocket_quiet msg w')

/-- Sending leaves the buffer, its flags and its type. -/
theorem sendMsg_buffer (held : Option Int) (msg : Buf) (w : World) :
    (sendMsg held msg w).2.1.id = msg.id ∧ (sendMsg held msg w).2.1.origin = msg.origin ∧
      (sendMsg held msg w).2.1.allocFlag = msg.allocFlag ∧
      (sendMsg held msg w).2.1.fromMem = msg.fromMem ∧
      (sendMsg held msg w).2.1.msgType = msg.msgType := by
  have raised : (raiseMsgLen msg).id = msg.id ∧ (raiseMsgLen msg).origin = msg.origin ∧
      (raiseMsgLen msg).allocFlag = msg.allocFlag ∧ (raiseMsgLen msg).fromMem = msg.fromMem ∧
      (raiseMsgLen msg).msgType = msg.msgType := by
    unfold raiseMsgLen
    split
    · exact ⟨rfl, rfl, msg.bit_put (by omega) 0, msg.bit_put (by omega) 2,
        msg.load_put (by omega)⟩
    · exact ⟨rfl, rfl, rfl, rfl, rfl⟩
  unfold sendMsg
  cases destination msg w with
  | mk fd w' =>
    dsimp only
    split
    · exact ⟨rfl, rfl, rfl, rfl, rfl⟩
    · split
      · exact ⟨rfl, rfl, rfl, rfl, rfl⟩
      · rw [sendMsgSocket_msg]
        exact raised

/-- The loop over the registered functions logs accesses only. -/
theorem dispatch_quiet (msgType n : Nat) (w : World) : Quiet w (dispatch msgType n w).2 := by
  induction n generalizing w with
  | zero => exact Quiet.of_eq rfl
  | succ n ih =>
    have noted := Quiet.note w (e := .mgrFun msgType (maxProcFun - (n + 1))) ⟨rfl, rfl⟩
    unfold dispatch
    dsimp only
    split
    · exact noted
    · exact noted.trans (ih _)

/-! ## The automatic response -/

/-- The automatic response is given back. -/
theorem autoRsp_owes {w : World} {held : List (Nat × Origin)} (owes : w.Owes held) (msg : Buf) :
    (autoRsp msg w).Owes held := by
  unfold autoRsp rspMsgAlloc
  cases granted : w.allocs.headD false with
  | false =>
    rw [msgAlloc_none granted]
    exact owes.quiet (Quiet.of_eq rfl)
  | true =>
    obtain ⟨buf, w', taken, allocated⟩ :=
      msgAlloc_some granted ((msg.msgType + msgRspBase) % 2 ^ 16) msg.srcProcType
    rw [taken]
    dsimp only
    generalize addressed :
      ((buf.setDstPid msg.srcPid).setSeq msg.seq).setRespCode msgTypeError = rsp
    have id : rsp.id = buf.id := by rw [← addressed]; rfl
    have origin : rsp.origin = buf.origin := by rw [← addressed]; rfl
    have flags (q : Nat) : bit rsp.mem 8 q = bit buf.mem 8 q := by
      rw [← addressed, Buf.setRespCode, Buf.bit_put _ (by omega), Buf.setSeq,
        Buf.bit_put _ (by omega), Buf.setDstPid, Buf.bit_put _ (by omega)]
    have type : rsp.msgType = buf.msgType := by
      rw [← addressed, Buf.msgType, Buf.setRespCode, Buf.load_put _ (by omega), Buf.setSeq,
        Buf.load_put _ (by omega), Buf.setDstPid, Buf.load_put _ (by omega)]
      rfl
    have sent := sendMsg_buffer none rsp w'
    have quiet := sendMsg_quiet none rsp w'
    generalize sendMsg none rsp w' = result at sent quiet
    obtain ⟨outcome, rsp', w''⟩ := result
    dsimp only at sent quiet ⊢
    have out := (owes.alloc allocated).quiet quiet
    rw [← id, ← origin, ← sent.1, ← sent.2.1] at out
    apply out.free
    · exact sent.2.2.1.trans ((flags 0).trans allocated.flag)
    · rw [sent.2.1, origin]
      apply givenTo_of_allocated (Nat.mod_lt _ (by decide)) allocated
      · exact sent.2.2.2.1.trans (flags 2)
      · intro _
        exact sent.2.2.2.2.trans type

theorem dropMsg_owes {w : World} {held : List (Nat × Origin)} {msg : Buf}
    (owes : w.Owes ((msg.id, msg.origin) :: held)) (home : msg.givenTo = msg.origin) :
    (dropMsg msg w).Owes (left msg ++ held) := by
  unfold dropMsg
  dsimp only
  apply World.Owes.free_left _ home
  have answered : (if msg.msgType < msgRspBase then autoRsp msg w else w).Owes
      ((msg.id, msg.origin) :: held) := by
    split
    · exact autoRsp_owes owes msg
    · exact owes
  split
  · exact answered.quiet (Quiet.note _ ⟨rfl, rfl⟩)
  · exact answered

theorem handleMsg_owes {w : World} {held : List (Nat × Origin)} {msg : Buf} (fd : Int)
    (owes : w.Owes ((msg.id, msg.origin) :: held)) (home : msg.givenTo = msg.origin) :
    (handleMsg fd msg w).2.Owes (left msg ++ held) := by
  unfold handleMsg
  dsimp only
  generalize noted : (if !msg.fwFlag then
    { w with map := newSocket fd msg.srcProcType msg.srcPid w.map } else w) = w'
  have known : Quiet w w' := by
    rw [← noted]
    split <;> exact Quiet.of_eq rfl
  have dispatched : Quiet w' (if msg.msgType < msgMax then dispatch msg.msgType maxProcFun w'
      else (false, w')).2 := by
    split
    · exact dispatch_quiet _ _ w'
    · exact Quiet.of_eq rfl
  generalize (if msg.msgType < msgMax then dispatch msg.msgType maxProcFun w' else (false, w')) =
    result at dispatched
  have after := owes.quiet (known.trans dispatched)
  split
  · exact after.free_left home
  · exact dropMsg_owes after home

/-! ## The receive -/

/-- A large message as it is returned: its buffer is out, under the flag of the first receive. -/
def LargeOut (held : List (Nat × Origin)) (msg : Buf) (got : Received) : Prop :=
  match got.large with
  | none => got.world.Owes held
  | some large => got.world.Owes ((large.id, large.origin) :: held) ∧
      large.allocFlag = msg.allocFlag ∧ large.givenTo = large.origin

/-- The header of a buffer is not touched by bytes behind it. -/
theorem Buf.header_receive (msg : Buf) (bytes : List UInt8) :
    (∀ q, bit (msg.receive sizeofMsg bytes).mem 8 q = bit msg.mem 8 q) ∧
      (msg.receive sizeofMsg bytes).msgType = msg.msgType := by
  have kept (i : Nat) (inside : i < sizeofMsg) : (msg.receive sizeofMsg bytes).mem i = msg.mem i :=
    store_outside (.inl inside)
  constructor
  · intro q
    rw [bit, bit, kept 8 (by decide)]
  · apply load_congr
    intro i _ upper
    exact kept i (by unfold sizeofMsg; omega)

/-- The second half of a receive. -/
theorem recvLarge_owes {w : World} {held : List (Nat × Origin)} (owes : w.Owes held) (msg : Buf) :
    LargeOut held msg (recvLarge sizeofMsg sizeofMsg msg w) := by
  unfold recvLarge
  cases granted : w.allocs.headD false with
  | false =>
    rw [msgAlloc_none granted]
    exact owes.quiet (Quiet.of_eq rfl)
  | true =>
    obtain ⟨lMsg, w', taken, allocated⟩ := msgAlloc_some granted msg.msgType msg.dstProcType
    have small : msg.msgType < 2 ^ 16 := load_lt msg.mem 0 2
    have out := owes.alloc allocated
    rw [taken]
    dsimp only
    split
    · -- a buffer that is not large is given back at once
      apply out.free allocated.flag
      exact givenTo_of_allocated small allocated rfl fun _ => rfl
    · rename_i large
      have size : lMsg.msgLen < 2 ^ 31 := by
        rw [allocated.len, allocated.cap]
        split <;> decide
      have arrived : Arrived lMsg.msgLen sizeofMsg lMsg w' _
          (recvLoop lMsg.msgLen w'.recvs 0 sizeofMsg lMsg w') :=
        recvLoop_arrived size w'.recvs (Nat.lt_of_not_le large) rfl
      generalize recvLoop lMsg.msgLen w'.recvs 0 sizeofMsg lMsg w' = second at arrived
      generalize arrival lMsg.msgLen w'.recvs 0 sizeofMsg w'.stream.length = came at arrived
      have header := lMsg.header_receive (w'.stream.take came.bytes)
      rw [← arrived.buffer] at header
      have id : second.msg.id = lMsg.id := by rw [arrived.buffer]; rfl
      have origin : second.msg.origin = lMsg.origin := by rw [arrived.buffer]; rfl
      have received := out.quiet arrived.quiet
      split
      · -- the receive broke off: the buffer has the header of its allocation
        rw [← id, ← origin] at received
        apply received.free (m := second.msg.setFromMem lMsg.fromMem)
        · rw [Buf.allocFlag_setFromMem]
          exact (header.1 0).trans allocated.flag
        · apply (givenTo_of_allocated small allocated _ _).trans origin.symm
          · exact Buf.fromMem_setFromMem _ _
          · intro _
            rw [Buf.msgType_setFromMem]
            exact header.2
      · -- the header comes from the first receive, `from_mem` and the length do not
        have header : ∀ i < sizeofMsg, (second.msg.copy msg sizeofMsg).mem i = msg.mem i :=
          fun i inside => second.msg.mem_copy msg inside
        have flags (q : Nat) : bit (second.msg.copy msg sizeofMsg).mem 8 q = bit msg.mem 8 q := by
          rw [bit, bit, header 8 (by decide)]
        have type : (second.msg.copy msg sizeofMsg).msgType = msg.msgType := by
          apply load_congr
          intro i _ upper
          exact header i (by unfold sizeofMsg; omega)
        have noted := (received.quiet (Quiet.note _ (e := .range second.msg.cap 0 sizeofMsg)
          ⟨rfl, rfl⟩)).quiet (Quiet.note _ (e := .range msg.cap 0 sizeofMsg) ⟨rfl, rfl⟩)
        rw [← id, ← origin] at noted
        refine ⟨noted, ?_, ?_⟩
        · rw [Buf.allocFlag, Buf.setMsgLen, Buf.bit_put _ (by omega)]
          exact (Buf.allocFlag_setFromMem _ _).trans (flags 0)
        · apply (givenTo_of_allocated small allocated _ _).trans origin.symm
          · rw [Buf.fromMem, Buf.setMsgLen, Buf.bit_put _ (by omega)]
            exact Buf.fromMem_setFromMem _ _
          · intro _
            rw [Buf.msgType, Buf.setMsgLen, Buf.load_put _ (by omega)]
            exact (Buf.msgType_setFromMem _ _).trans
              (type.trans ((Nat.mod_eq_of_lt small).symm.trans allocated.type.symm))

/-- The first receive of a message into a fresh buffer. -/
def firstArrival (w : World) : Arrival := arrival sizeofMsg w.recvs 0 0 w.stream.length

/-- The buffer after the first receive. -/
def firstMsg (buf : Buf) (w : World) : Buf :=
  (buf.receive 0 (w.stream.take (firstArrival w).bytes)).setFromMem buf.fromMem

/-- A receive into a fresh buffer. -/
theorem recvMsgSocket_owes {w : World} {held : List (Nat × Origin)} (owes : w.Owes held)
    {buf : Buf} (len : buf.msgLen = sizeofMsg) :
    (recvMsgSocket buf true w).msg = firstMsg buf w ∧
      LargeOut held (firstMsg buf w) (recvMsgSocket buf true w) := by
  have arrived : Arrived sizeofMsg 0 buf w (firstArrival w)
      (recvLoop sizeofMsg w.recvs 0 0 buf w) :=
    recvLoop_arrived (by decide) w.recvs (by decide) rfl
  have received := owes.quiet arrived.quiet
  unfold recvMsgSocket firstMsg
  rw [len]
  generalize recvLoop sizeofMsg w.recvs 0 0 buf w = first at arrived received
  dsimp only
  rw [← arrived.buffer]
  split
  · exact ⟨rfl, received⟩
  · rename_i complete
    have noted := received.quiet (Quiet.note _
      (e := .msgRecv (first.msg.setFromMem buf.fromMem).msgType) ⟨rfl, rfl⟩)
    have full : first.off = sizeofMsg := by
      rw [arrived.filled]
      exact arrived.ok.mp (by simpa using complete)
    split
    · exact ⟨rfl, noted⟩
    · rw [if_neg (by decide), full]
      refine ⟨?_, recvLarge_owes noted _⟩
      unfold recvLarge
      dsimp only
      split
      · rfl
      · split
        · rfl
        · split <;> rfl

/-! ## One message -/

/-- `alloc_flag` among the bytes that arrive for the first receive: a header that does arrive
has it set. -/
def FlagArrives (w : World) : Prop :=
  w.allocs.headD false = true → 8 < (firstArrival w).bytes →
    (w.stream.getD 8 0).toNat.testBit 0 = true

instance : DecidablePred FlagArrives := fun _ => inferInstanceAs (Decidable (_ → _ → _))

/-- The flag of a buffer after the first receive. -/
theorem allocFlag_firstMsg {buf : Buf} (flag : buf.allocFlag = true) (w : World) :
    (firstMsg buf w).allocFlag = true ↔
      (8 < (firstArrival w).bytes → (w.stream.getD 8 0).toNat.testBit 0 = true) := by
  rw [firstMsg, Buf.allocFlag_setFromMem, Buf.allocFlag, bit]
  have there : (firstArrival w).bytes ≤ w.stream.length :=
    le_trans (arrival_le _ _ _ _ _) (min_le_right _ _)
  by_cases header : 8 < (firstArrival w).bytes
  · have inside : 8 < (w.stream.take (firstArrival w).bytes).length := by
      rw [List.length_take]
      omega
    have byte : (buf.receive 0 (w.stream.take (firstArrival w).bytes)).mem 8 =
        (w.stream.take (firstArrival w).bytes)[8] := by
      have stored := @store_inside buf.mem 0 8 _ inside
      rw [Nat.zero_add] at stored
      exact stored
    rw [byte, List.getElem_take]
    simp [header, List.getElem?_eq_getElem (show 8 < w.stream.length by omega)]
  · have outside : 0 + (w.stream.take (firstArrival w).bytes).length ≤ 8 := by
      rw [List.length_take]
      omega
    have byte : (buf.receive 0 (w.stream.take (firstArrival w).bytes)).mem 8 = buf.mem 8 :=
      store_outside (.inr outside)
    rw [byte]
    simp only [header, false_implies, iff_true]
    exact flag

theorem allocFromMem_null (hasPool : Bool) : allocFromMem 0 hasPool = false := by
  cases hasPool <;> rfl

/-- What `nsfw_mgr_msg_in` keeps of the message it went on with. -/
theorem msgIn_rest_owes {w : World} {held : List (Nat × Origin)} {msg : Buf} (fd : Int)
    (ok : Bool) (owes : w.Owes ((msg.id, msg.origin) :: held)) (home : msg.givenTo = msg.origin) :
    (if !ok then (false, msgFree msg w) else handleMsg fd msg w).2.Owes (left msg ++ held) := by
  split
  · exact owes.free_left home
  · exact handleMsg_owes fd owes home

/-- `nsfw_mgr_msg_in` gives back what it took, exactly when a header that arrives has
`alloc_flag` set; otherwise some buffer is lost. -/
theorem msgIn_owes {w : World} {held : List (Nat × Origin)} (owes : w.Owes held) (fd : Int) :
    (FlagArrives w → (msgIn fd w).2.Owes held) ∧
      (¬ FlagArrives w → ∃ x more, (msgIn fd w).2.Owes (x :: more ++ held)) := by
  unfold msgIn nullRspmsgAlloc
  cases granted : w.allocs.headD false with
  | false =>
    have refused : FlagArrives w := fun yes => absurd (granted.symm.trans yes) (by decide)
    rw [msgAlloc_none granted]
    exact ⟨fun _ => owes.quiet (Quiet.of_eq rfl), fun lost => absurd refused lost⟩
  | true =>
    obtain ⟨buf, w', taken, allocated⟩ := msgAlloc_some granted 0 0
    rw [taken]
    dsimp only
    have out := owes.alloc allocated
    have len : buf.msgLen = sizeofMsg := allocated.len.trans allocated.cap
    obtain ⟨first, large⟩ := recvMsgSocket_owes out len
    have connection := allocated.connection
    have flagged : (firstMsg buf w').allocFlag = true ↔ FlagArrives w := by
      rw [allocFlag_firstMsg allocated.flag, firstArrival, connection.1, connection.2.1]
      exact ⟨fun set _ => set, fun arrives => arrives granted⟩
    have home : (firstMsg buf w').givenTo = buf.origin := by
      apply givenTo_of_allocated (by omega) allocated
      · exact Buf.fromMem_setFromMem _ _
      · intro heap
        rw [allocated.fromMem, allocFromMem_null] at heap
        contradiction
    have same : (firstMsg buf w').id = buf.id ∧ (firstMsg buf w').origin = buf.origin :=
      ⟨rfl, rfl⟩
    generalize recvMsgSocket buf true w' = got at first large
    generalize firstMsg buf w' = msg at first large flagged home same
    rw [← same.1, ← same.2] at large
    rw [← same.2] at home
    unfold LargeOut at large
    unfold Received.take
    cases found : got.large with
    | none =>
      rw [found] at large
      dsimp only at large ⊢
      rw [first]
      have rest := msgIn_rest_owes fd got.ok large home
      constructor
      · intro arrives
        rw [left, if_pos (flagged.mpr arrives)] at rest
        exact rest
      · intro lost
        rw [left, if_neg (fun flag => lost (flagged.mp flag))] at rest
        exact ⟨_, [], rest⟩
    | some lMsg =>
      rw [found] at large
      dsimp only at large ⊢
      obtain ⟨both, flag, homed⟩ := large
      rw [first]
      have freed := (both.perm (List.Perm.swap ..)).free_left home
      have swapped : (left msg ++ (lMsg.id, lMsg.origin) :: held).Perm
          ((lMsg.id, lMsg.origin) :: (left msg ++ held)) := List.perm_middle
      have rest := msgIn_rest_owes fd got.ok (freed.perm swapped) homed
      constructor
      · intro arrives
        rw [left, left, flag, if_pos (flagged.mpr arrives), if_pos (flagged.mpr arrives)] at rest
        exact rest
      · intro lost
        have unset : ¬ msg.allocFlag = true := fun set => lost (flagged.mp set)
        rw [left, left, flag, if_neg unset, if_neg unset] at rest
        exact ⟨_, [(msg.id, msg.origin)], rest⟩

/-! ## Any number of messages -/

/-- The buffers of a log have been given back: each of them once, to where it was taken from, so
that the pool holds as many as before. -/
structure Conserved (log : List Event) : Prop where
  returned : (log.filterMap Event.takes).Perm (log.filterMap Event.gives)
  once : ((log.filterMap Event.takes).map Prod.fst).Nodup
  pool : (log.filterMap Event.gives).countP (·.2 = .pool) =
    (log.filterMap Event.takes).countP (·.2 = .pool)

/-- A call of `nsfw_mgr_msg_in`, in whatever state the rest of the process is and whatever the
outside answers. -/
structure Call where
  fd : Int
  /-- The world the call finds; its log is the log so far. -/
  world : World

/-- The world of a call. -/
def Call.at (call : Call) (log : List Event) : World := { call.world with log := log }

/-- One call more. -/
def receiveOne (log : List Event) (call : Call) : Option (List Event) :=
  some (msgIn call.fd (call.at log)).2.log

theorem conserved_iff {w : World}
    (passed : ∀ id ∈ (w.log.filterMap Event.takes).map Prod.fst, id < w.log.length) :
    Conserved w.log ↔ w.Owes [] := by
  constructor
  · intro conserved
    exact ⟨⟨Ledger.balanced_nil.mpr conserved.returned, conserved.once⟩, passed⟩
  · intro owes
    have balance := Ledger.balanced_nil.mp owes.account.balance
    exact ⟨balance, owes.account.distinct, (balance.countP_eq _).symm⟩

/-- Any number of calls that meet the condition conserve the buffers, and one more call does if
and only if it meets it. -/
theorem buffers_conserved_iff (log : List Event)
    (run : Runs receiveOne (fun _ call => FlagArrives call.world) [] log) :
    Conserved log ∧
      ∀ call : Call, Conserved (msgIn call.fd (call.at log)).2.log ↔ FlagArrives call.world := by
  have owing : ∀ call : Call, (call.at log).Owes [] := by
    refine Runs.invariant (P := fun log => ∀ call : Call, (call.at log).Owes []) ?_ ?_ run
    · intro call
      exact ⟨⟨.nil, .nil⟩, by simp [Call.at]⟩
    · intro log call log' owes meets taken call'
      have after := (msgIn_owes (owes call) call.fd).1 meets
      rw [← Option.some.inj taken]
      exact after.quiet (Quiet.of_eq rfl)
  constructor
  · have here := owing ⟨0, peerWorld [] []⟩
    exact (conserved_iff here.passed).mpr here
  · intro call
    have step := msgIn_owes (owing call) call.fd
    constructor
    · intro conserved
      by_contra lost
      obtain ⟨x, more, owes⟩ := step.2 lost
      rw [List.append_nil] at owes
      exact owes.account.ne_nil ((conserved_iff owes.passed).mp conserved).account
    · intro meets
      have after := step.1 meets
      exact (conserved_iff after.passed).mpr after

/-- A call that finds a message of type 0 with `alloc_flag`, and memory for a response. -/
def flaggedCall : Call where
  fd := 5
  world := { peerWorld ([0, 0, 0, 0, 248, 1, 0, 0, 1] ++ List.replicate 495 0) [.deliver 504] with
    allocs := [true, true] }

/-- No function is registered for the type: the buffer of the message and that of the automatic
response are given back. -/
theorem buffers_conserved_flagged :
    ∃ log, Runs receiveOne (fun _ call => FlagArrives call.world) [] log ∧
      log.filterMap Event.takes = [(0, .pool), (5, .pool)] ∧ Conserved log := by
  have meets : FlagArrives flaggedCall.world := by decide +kernel
  have run : Runs receiveOne (fun _ call => FlagArrives call.world) []
      (msgIn flaggedCall.fd (flaggedCall.at [])).2.log := Runs.start.step flaggedCall meets rfl
  exact ⟨_, run, by decide +kernel, (buffers_conserved_iff _ run).1⟩

/-- A message without `alloc_flag`: the buffer it was received into is lost. -/
theorem unflagged_buffer_lost :
    let log := (msgIn 5 (peerWorld (List.replicate 504 0) [.deliver 504])).2.log
    log.filterMap Event.takes = [(0, .pool)] ∧ log.filterMap Event.gives = [] ∧
      ¬ Conserved log := by
  intro log
  have takes : log.filterMap Event.takes = [(0, .pool)] := by decide +kernel
  have gives : log.filterMap Event.gives = [] := by decide +kernel
  clear_value log
  refine ⟨takes, gives, fun conserved => ?_⟩
  have lengths := conserved.returned.length_eq
  rw [takes, gives] at lengths
  contradiction

end Dmm.Mgr
