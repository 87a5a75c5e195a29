import Dmm.Lib.Ledger
import Dmm.Mgr.Bounds

/-!
# What a receive takes from the stream

How many bytes arrive for a receive is settled by the answers of `recv` and the number of bytes
in the stream alone. With it, one statement describes `recvLoop`: so many bytes have moved
from the stream to the buffer, and nothing else has changed but the log of accesses.
-/

namespace Dmm.Mgr

open Dmm.Bytes Dmm.Word

/-! ## The ledger of buffers -/

/-- The buffer an event takes, with its origin. -/
def Event.takes : Event → Option (Nat × Origin)
  | .taken id origin => some (id, origin)
  | _ => none

/-- The buffer an event gives back, with the place it is given to. -/
def Event.gives : Event → Option (Nat × Origin)
  | .given id _ place => some (id, place)
  | _ => none

/-- The buffers that are out. Identities are positions of the log. -/
structure World.Owes (w : World) (held : List (Nat × Origin)) : Prop where
  account : Ledger.Owes Event.takes Event.gives Prod.fst w.log held
  passed : ∀ id ∈ (w.log.filterMap Event.takes).map Prod.fst, id < w.log.length

/-- The log goes on with accesses only. -/
def Quiet (w w' : World) : Prop :=
  ∃ more, w'.log = w.log ++ more ∧ ∀ e ∈ more, e.takes = none ∧ e.gives = none

theorem Quiet.of_eq {w w' : World} (same : w'.log = w.log) : Quiet w w' :=
  ⟨[], by simpa using same, by simp⟩

theorem Quiet.note (w : World) {e : Event} (access : e.takes = none ∧ e.gives = none) :
    Quiet w (w.note e) :=
  ⟨[e], rfl, by simpa using access⟩

theorem Quiet.trans {w w' w'' : World} (first : Quiet w w') (second : Quiet w' w'') :
    Quiet w w'' := by
  obtain ⟨more, log, quiet⟩ := first
  obtain ⟨more', log', quiet'⟩ := second
  refine ⟨more ++ more', by rw [log', log, List.append_assoc], fun e mem => ?_⟩
  cases List.mem_append.mp mem with
  | inl early => exact quiet e early
  | inr late => exact quiet' e late

theorem World.Owes.quiet {w w' : World} {held : List (Nat × Origin)} (owes : w.Owes held)
    (quiet : Quiet w w') : w'.Owes held := by
  obtain ⟨more, log, accesses⟩ := quiet
  have none : more.filterMap Event.takes = [] :=
    List.filterMap_eq_nil_iff.mpr fun e mem => (accesses e mem).1
  constructor
  · rw [log]
    exact owes.account.pass accesses
  · intro id mem
    rw [log, List.filterMap_append, none, List.append_nil] at mem
    have before := owes.passed id mem
    rw [log, List.length_append]
    omega

theorem World.Owes.perm {w : World} {held held' : List (Nat × Origin)} (owes : w.Owes held)
    (same : held.Perm held') : w.Owes held' :=
  ⟨owes.account.perm same, owes.passed⟩

/-! ## Arrival -/

/-- What arrives for a receive. -/
structure Arrival where
  bytes : Nat
  rest : List RecvCall

/-- What arrives for the receive of a length, from an offset on, when so many retries are used up
and so many bytes are in the stream. -/
def arrival (len : Nat) : List RecvCall → Nat → Nat → Nat → Arrival
  | [], _, _, _ => ⟨0, []⟩
  | .deliver k :: rest, count, off, avail =>
    let n := min (min k (min (len - off) maxRwCount)) avail
    if n = 0 then ⟨0, rest⟩
    else if off + n < len then
      let later := arrival len rest count (off + n) (avail - n)
      ⟨n + later.bytes, later.rest⟩
    else ⟨n, rest⟩
  | .again :: rest, count, off, avail =>
    if count < maxRecvCount then arrival len rest (count + 1) off avail else ⟨0, rest⟩
  | .fail :: rest, _, _, _ => ⟨0, rest⟩

/-- No more arrives than is asked for and there. -/
theorem arrival_le (len : Nat) (calls : List RecvCall) (count off avail : Nat) :
    (arrival len calls count off avail).bytes ≤ min (len - off) avail := by
  induction calls generalizing count off avail with
  | nil => simp [arrival]
  | cons call rest ih =>
    cases call with
    | deliver k =>
      have later := ih count (off + min (min k (min (len - off) maxRwCount)) avail)
        (avail - min (min k (min (len - off) maxRwCount)) avail)
      unfold arrival
      dsimp only
      split
      · exact Nat.zero_le _
      · split
        · dsimp only
          omega
        · dsimp only
          omega
    | again =>
      have later := ih (count + 1) off avail
      unfold arrival
      split
      · exact later
      · exact Nat.zero_le _
    | fail => exact Nat.zero_le _

/-- What a receive loop leaves when so many bytes have arrived. -/
structure Arrived (len off : Nat) (msg : Buf) (w : World) (arrival : Arrival) (left : RecvEnd) :
    Prop where
  buffer : left.msg = msg.receive off (w.stream.take arrival.bytes)
  stream : left.world.stream = w.stream.drop arrival.bytes
  recvs : left.world.recvs = arrival.rest
  filled : left.off = off + arrival.bytes
  ok : left.ok = true ↔ off + arrival.bytes = len
  quiet : Quiet w left.world
  same : { left.world with log := w.log, stream := w.stream, recvs := w.recvs } = w

theorem Buf.receive_nil (msg : Buf) (off : Nat) : msg.receive off [] = msg := by
  have same : store msg.mem off [] = msg.mem := by
    funext i
    exact store_outside (by simp; omega)
  rw [receive, same]

theorem Buf.receive_receive (msg : Buf) (off n m : Nat) (bytes : List UInt8)
    (enough : n ≤ bytes.length) :
    (msg.receive off (bytes.take n)).receive (off + n) ((bytes.drop n).take m) =
      msg.receive off (bytes.take (n + m)) := by
  have len : (bytes.take n).length = n := by simpa using enough
  have joined := store_append msg.mem off (bytes.take n) ((bytes.drop n).take m)
  rw [len, ← List.take_add] at joined
  simp only [receive, joined]

theorem arrived_none {len off : Nat} {msg : Buf} {w : World} {rest : List RecvCall}
    (begun : off < len) :
    Arrived len off msg w ⟨0, rest⟩
      ⟨false, off, msg, { w.note (.range msg.cap off (len - off)) with recvs := rest }⟩ where
  buffer := by rw [List.take_zero, Buf.receive_nil]
  stream := rfl
  recvs := rfl
  filled := rfl
  ok := by simp; omega
  quiet := Quiet.note w ⟨rfl, rfl⟩
  same := rfl

theorem Arrived.after {len off n : Nat} {msg : Buf} {w : World} {later : Arrival}
    {left : RecvEnd} {rest : List RecvCall} (enough : n ≤ w.stream.length)
    (arrived : Arrived len (off + n) (msg.receive off (w.stream.take n))
      { w.note (.range msg.cap off (len - off)) with
        recvs := rest, stream := w.stream.drop n } later left) :
    Arrived len off msg w ⟨n + later.bytes, later.rest⟩ left where
  buffer := arrived.buffer.trans (msg.receive_receive off n later.bytes w.stream enough)
  stream := arrived.stream.trans (List.drop_drop ..)
  recvs := arrived.recvs
  filled := arrived.filled.trans (Nat.add_assoc ..)
  ok := by rw [arrived.ok, Nat.add_assoc]
  quiet := Quiet.trans (Quiet.note w ⟨rfl, rfl⟩) arrived.quiet
  same := by
    have same := congrArg (fun w' : World =>
      { w' with log := w.log, stream := w.stream, recvs := w.recvs }) arrived.same
    exact same

/-- What a receive loop does. -/
theorem recvLoop_arrived {len : Nat} (small : len < 2 ^ 31) (calls : List RecvCall)
    {count off : Nat} {msg : Buf} {w : World} (begun : off < len) (answers : w.recvs = calls) :
    Arrived len off msg w (arrival len calls count off w.stream.length)
      (recvLoop len calls count off msg w) := by
  have signed : int32 len = len := int32_of_range (by omega) (by omega)
  induction calls generalizing count off msg w with
  | nil =>
    have ended : Arrived len off msg w ⟨0, []⟩
        ⟨false, off, msg, { w.note (.range msg.cap off (len - off)) with recvs := [] }⟩ :=
      arrived_none begun
    rw [← answers] at ended
    rw [recvLoop, arrival, ← answers]
    exact ended
  | cons call rest ih =>
    cases call with
    | deliver k =>
      have length : (w.stream.take (min k (min (len - off) maxRwCount))).length =
          min (min k (min (len - off) maxRwCount)) w.stream.length := List.length_take
      generalize count' : min (min k (min (len - off) maxRwCount)) w.stream.length = n at length
      have taken : w.stream.take (min k (min (len - off) maxRwCount)) = w.stream.take n := by
        rw [List.take_eq_take_iff]
        omega
      have empty : w.stream.take n = [] ↔ n = 0 := by
        rw [← List.length_eq_zero_iff, ← taken, length]
      unfold recvLoop arrival
      simp only [World.note, taken, empty, count']
      by_cases none : n = 0
      · rw [if_pos none, if_pos none]
        exact arrived_none begun
      · rw [if_neg none, if_neg none]
        have len' : (w.stream.take n).length = n := by rw [← taken, length]
        rw [len', signed]
        by_cases further : off + n < len
        · rw [if_pos further, if_pos (by exact_mod_cast further)]
          apply Arrived.after (by omega)
          rw [← List.length_drop]
          exact ih further rfl
        · rw [if_neg further, if_neg (by exact_mod_cast further)]
          constructor
          · rfl
          · rfl
          · rfl
          · rfl
          · simp
            omega
          · exact Quiet.note w ⟨rfl, rfl⟩
          · rfl
    | again =>
      unfold recvLoop arrival
      simp only [World.note]
      by_cases retry : count < maxRecvCount
      · rw [if_pos retry, if_pos retry, if_pos (by rw [signed]; exact_mod_cast begun)]
        have arrived : Arrived len off msg
            { w.note (.range msg.cap off (len - off)) with recvs := rest }
            (arrival len rest (count + 1) off w.stream.length) _ := ih begun rfl
        exact {
          buffer := arrived.buffer
          stream := arrived.stream
          recvs := arrived.recvs
          filled := arrived.filled
          ok := arrived.ok
          quiet := Quiet.trans (Quiet.note w ⟨rfl, rfl⟩) arrived.quiet
          same := congrArg (fun w' : World =>
            { w' with log := w.log, stream := w.stream, recvs := w.recvs }) arrived.same }
      · rw [if_neg retry, if_neg retry]
        exact arrived_none begun
    | fail => exact arrived_none begun

/-! ## Taking and giving back a buffer -/

/-- A buffer as `nsfw_mgr_msg_alloc` returns it. -/
structure Allocated (msgType : Nat) (w : World) (buf : Buf) (w' : World) : Prop where
  id : buf.id = w.log.length
  origin : buf.origin = if allocFromMem msgType w.hasPool then .heap else .pool
  cap : buf.cap = if msgLagQryRspBegin ≤ msgType then largeMsgLen else sizeofMsg
  len : buf.msgLen = buf.cap
  type : buf.msgType = msgType % 2 ^ 16
  flag : buf.allocFlag = true
  fromMem : buf.fromMem = allocFromMem msgType w.hasPool
  log : w'.log = w.log ++ [.taken buf.id buf.origin] ++ [.range buf.cap 0 buf.cap]
  allocs : w'.allocs = w.allocs.tail
  same : { w' with log := w.log, curIdx := w.curIdx, allocs := w.allocs } = w

theorem Allocated.connection {msgType : Nat} {w w' : World} {buf : Buf}
    (allocated : Allocated msgType w buf w') :
    w'.stream = w.stream ∧ w'.recvs = w.recvs ∧ w'.handlers = w.handlers := by
  have same := allocated.same
  rw [← same]
  exact ⟨rfl, rfl, rfl⟩

theorem clearedBuf_fields (msgType : Nat) (fromMem : Bool) (id : Nat) :
    (clearedBuf msgType fromMem id).id = id ∧
      (clearedBuf msgType fromMem id).origin = (if fromMem then .heap else .pool) ∧
      (clearedBuf msgType fromMem id).cap =
        if msgLagQryRspBegin ≤ msgType then largeMsgLen else sizeofMsg := by
  by_cases large : msgLagQryRspBegin ≤ msgType
  · simp only [clearedBuf, if_pos large, and_self]
  · simp only [clearedBuf, if_neg large, and_self]

theorem headed_flags (msg : Buf) (fromMem : Bool) (msgType dstProcType : Nat) (w : World) :
    (headed msg fromMem msgType dstProcType w).allocFlag = true ∧
      (headed msg fromMem msgType dstProcType w).fromMem = fromMem := by
  constructor
  · exact Buf.bit_setFlag _ (by decide) true (by decide)
  · rw [headed, Buf.fromMem, Buf.setAllocFlag, Buf.bit_setFlag _ (by decide) true (by decide),
      if_neg (by decide), Buf.setDstProcType, Buf.bit_put _ (by omega), Buf.setMsgLen,
      Buf.bit_put _ (by omega), Buf.setSrcProcType, Buf.bit_put _ (by omega), Buf.setSrcPid,
      Buf.bit_put _ (by omega), Buf.setMsgType, Buf.bit_put _ (by omega)]
    exact msg.fromMem_setFromMem fromMem

theorem msgAlloc_none {w : World} (refused : w.allocs.headD false = false)
    (msgType dstProcType : Nat) :
    msgAlloc msgType dstProcType w = (none, { w with allocs := w.allocs.tail }) := by
  simp only [msgAlloc, World.allocates, refused, Bool.not_false, if_true]

/-- A cleared buffer with its header, in a world that has logged it. -/
theorem allocated_headed {msg : Buf} {msgType : Nat} {w w₁ w₂ : World} (dstProcType : Nat)
    (id : msg.id = w.log.length)
    (origin : msg.origin = if allocFromMem msgType w.hasPool then .heap else .pool)
    (cap : msg.cap = if msgLagQryRspBegin ≤ msgType then largeMsgLen else sizeofMsg)
    (log : w₂.log = w.log ++ [.taken msg.id msg.origin] ++ [.range msg.cap 0 msg.cap])
    (allocs : w₂.allocs = w.allocs.tail)
    (same : { w₂ with log := w.log, curIdx := w.curIdx, allocs := w.allocs } = w) :
    Allocated msgType w
      (headed msg (allocFromMem msgType w.hasPool) msgType dstProcType w₁) w₂ := by
  have kept := headed_same msg (allocFromMem msgType w.hasPool) msgType dstProcType w₁
  have flags := headed_flags msg (allocFromMem msgType w.hasPool) msgType dstProcType w₁
  have small : msg.cap < 2 ^ 32 := by
    rw [cap]
    split <;> decide
  have fields := headed_fields small (allocFromMem msgType w.hasPool) msgType dstProcType w₁
  generalize headed msg (allocFromMem msgType w.hasPool) msgType dstProcType w₁ = buf
    at kept flags fields
  rw [← kept.1, ← kept.2.1, ← kept.2.2] at log
  exact {
    id := kept.1.trans id
    origin := kept.2.1.trans origin
    cap := kept.2.2.trans cap
    len := fields.1
    type := fields.2
    flag := flags.1
    fromMem := flags.2
    log := log
    allocs := allocs
    same := same }

theorem msgAlloc_some {w : World} (granted : w.allocs.headD false = true)
    (msgType dstProcType : Nat) :
    ∃ buf w', msgAlloc msgType dstProcType w = (some buf, w') ∧ Allocated msgType w buf w' := by
  have cleared := clearedBuf_fields msgType (allocFromMem msgType w.hasPool) w.log.length
  unfold msgAlloc
  simp only [World.allocates, granted, Bool.not_true, Bool.false_eq_true, if_false]
  by_cases numbered : Numbered msgType
  · simp only [if_pos numbered]
    exact ⟨_, _, rfl, allocated_headed dstProcType cleared.1 cleared.2.1 cleared.2.2 rfl rfl rfl⟩
  · simp only [if_neg numbered]
    exact ⟨_, _, rfl, allocated_headed dstProcType cleared.1 cleared.2.1 cleared.2.2 rfl rfl rfl⟩

/-- The place a buffer is given back to. -/
def Buf.givenTo (msg : Buf) : Origin :=
  if msg.fromMem && (decide (msg.msgType = msgInitNtyReq) ||
    decide (msg.msgType = msgInitNtyRsp) || decide (msgLagQryRspBegin ≤ msg.msgType)) then .heap
  else .pool

theorem msgFree_flagged {msg : Buf} (flag : msg.allocFlag = true) (w : World) :
    msgFree msg w = w.note (.given msg.id msg.origin msg.givenTo) := by
  unfold msgFree Buf.givenTo
  simp only [flag, Bool.not_true, Bool.false_eq_true, if_false]
  split <;> rfl

theorem msgFree_unflagged {msg : Buf} (flag : msg.allocFlag = false) (w : World) :
    msgFree msg w = w := by
  simp [msgFree, flag]

theorem allocFromMem_type {msgType : Nat} {hasPool : Bool}
    (heap : allocFromMem msgType hasPool = true) :
    msgType = msgInitNtyReq ∨ msgType = msgInitNtyRsp ∨ msgLagQryRspBegin ≤ msgType := by
  simp [allocFromMem] at heap
  tauto

/-- A message whose `from_mem` and type are those of its allocation is given back to where it was
taken from. -/
theorem givenTo_of_allocated {msg buf : Buf} {msgType : Nat} {w w' : World}
    (small : msgType < 2 ^ 16) (allocated : Allocated msgType w buf w')
    (fromMem : msg.fromMem = buf.fromMem)
    (type : buf.fromMem = true → msg.msgType = buf.msgType) : msg.givenTo = buf.origin := by
  unfold Buf.givenTo
  rw [allocated.origin, fromMem, allocated.fromMem]
  cases heap : allocFromMem msgType w.hasPool with
  | false => simp
  | true =>
    have kind := allocFromMem_type heap
    rw [type (allocated.fromMem.trans heap), allocated.type, Nat.mod_eq_of_lt small]
    simp [kind, or_assoc]

end Dmm.Mgr
