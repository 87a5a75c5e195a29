import Dmm.Mgr.Com

/-!
# Requests and responses

`nsfw_mgr_send_req_wait_rsp` sends a request and receives until the response is there,
handing every other message to `nsfw_mgr_send_msg`. The loop is bounded by
`MGR_COM_MAX_DROP_MSG`, and running out of it is followed by the same return as a break at
the response. `Correlated` is what a caller relies on; it holds exactly when one of the
first `MGR_COM_MAX_DROP_MSG` receives fails or brings the response, and no message before
it is addressed to the socket whose lock the call holds.
-/

namespace Dmm.Mgr

open Dmm.Bytes Dmm.Word

/-- The call returns `TRUE` with the response to the request in the response buffer, or it
returns `FALSE`. -/
def Correlated (req rsp : Buf) (w : World) : Prop :=
  let (outcome, rsp, _) := sendReqWaitRsp req rsp w
  outcome = .returned true ∧ Answers req rsp ∨ outcome = .returned false

/-- The response buffer and the world between two receives. -/
abbrev Waiting := Buf × World

/-- A receive from here fails or brings the response. -/
def Ends (req : Buf) (s : Waiting) : Prop :=
  let got := recvMsgSocket s.1 false s.2
  got.ok = true → Answers req got.msg

/-- One message that is not the response, received and handed to `nsfw_mgr_send_msg`, which
returned. -/
def drop (req : Buf) (held : Option Int) (s : Waiting) : Option Waiting :=
  let got := recvMsgSocket s.1 false s.2
  if !got.ok ∨ Answers req got.msg then none else
  match sendMsg held (got.msg.setFwFlag true) got.world with
  | (.blocked, _, _) => none
  | (.returned _, rsp, w) => some (rsp, w)

/-- So many messages, one after another. -/
def drops (req : Buf) (held : Option Int) : Nat → Waiting → Option Waiting
  | 0, s => some s
  | n + 1, s => (drop req held s).bind (drops req held n)

/-- The lock held and the world when the loop begins, if the request has been sent. -/
def sent (req : Buf) (w : World) : Option (Option Int × World) :=
  let (fd, w) := destination req w
  if fd ≤ 0 then none else
  let (ok, _, w) := sendMsgSocket req w
  if ok then some (lockMgrFd fd w, w) else none

theorem answers_congr {req req' rsp rsp' : Buf} (seq : req'.seq = req.seq)
    (type : req'.msgType = req.msgType) (seq' : rsp'.seq = rsp.seq)
    (type' : rsp'.msgType = rsp.msgType) : Answers req' rsp' ↔ Answers req rsp := by
  simp only [Answers, seq, type, seq', type']

theorem sendMsgSocket_msg (msg : Buf) (w : World) :
    (sendMsgSocket msg w).2.1 = raiseMsgLen msg := by
  unfold sendMsgSocket
  dsimp only
  rw [apply_ite (fun r : Bool × Buf × World => r.2.1), ite_self]

/-- Sending leaves the sequence number and the type of a message. -/
theorem sendMsgSocket_header (msg : Buf) (w : World) :
    (sendMsgSocket msg w).2.1.seq = msg.seq ∧
      (sendMsgSocket msg w).2.1.msgType = msg.msgType := by
  rw [sendMsgSocket_msg, raiseMsgLen]
  split
  · exact ⟨msg.load_put (by omega), msg.load_put (by omega)⟩
  · exact ⟨rfl, rfl⟩

/-- A forwarded message is no more a response than it was. -/
theorem answers_sendMsg (req : Buf) (held : Option Int) (msg : Buf) (w : World) :
    Answers req (sendMsg held (msg.setFwFlag true) w).2.1 ↔ Answers req msg := by
  have seq : (msg.setFwFlag true).seq = msg.seq := msg.load_setFlag _ _ (by omega)
  have type : (msg.setFwFlag true).msgType = msg.msgType := msg.load_setFlag _ _ (by omega)
  unfold sendMsg
  split
  rename_i fd w' found
  dsimp only
  split
  · exact answers_congr rfl rfl seq type
  split
  · exact answers_congr rfl rfl seq type
  · obtain ⟨seq', type'⟩ := sendMsgSocket_header (msg.setFwFlag true) w'
    exact answers_congr rfl rfl (seq'.trans seq) (type'.trans type)

/-- Every state that so many dropped messages lead to: the first, and those after a message. -/
theorem forall_drops_succ {req : Buf} {held : Option Int} {n : Nat} {s : Waiting}
    (P : Waiting → Prop) :
    (∀ i < n + 1, ∀ s', drops req held i s = some s' → P s') ↔
      P s ∧ ∀ t, drop req held s = some t → ∀ i < n, ∀ s', drops req held i t = some s' → P s' := by
  constructor
  · intro all
    refine ⟨all 0 (by omega) s rfl, fun t first i within s' rest => ?_⟩
    exact all (i + 1) (by omega) s' (Option.bind_eq_some_iff.mpr ⟨t, first, rest⟩)
  · rintro ⟨here, later⟩ i within s' dropped
    cases i with
    | zero =>
      cases dropped
      exact here
    | succ i =>
      obtain ⟨t, first, rest⟩ := Option.bind_eq_some_iff.mp dropped
      exact later t first i (by omega) s' rest

theorem drop_cases {req : Buf} {held : Option Int} {s s' : Waiting}
    (dropped : drop req held s = some s') :
    let got := recvMsgSocket s.1 false s.2
    got.ok = true ∧ ¬ Answers req got.msg ∧
      ∃ ok, sendMsg held (got.msg.setFwFlag true) got.world = (.returned ok, s') := by
  unfold drop at dropped
  dsimp only at dropped ⊢
  split at dropped
  · cases dropped
  · rename_i other
    obtain ⟨received, answers⟩ := not_or.mp other
    split at dropped
    · cases dropped
    · rename_i ok rsp w sending
      cases dropped
      exact ⟨by simpa using received, answers, ok, sending⟩

theorem drop_not_answers {req : Buf} {held : Option Int} {s s' : Waiting}
    (dropped : drop req held s = some s') : ¬ Answers req s'.1 := by
  obtain ⟨_, other, _, sending⟩ := drop_cases dropped
  have same := answers_sendMsg req held (recvMsgSocket s.1 false s.2).msg
    (recvMsgSocket s.1 false s.2).world
  rw [sending] at same
  exact fun answers => other (same.mp answers)

theorem waitRound_of_drop {req : Buf} {held : Option Int} {s s' : Waiting}
    {further : Buf → World → Option Outcome × Buf × World}
    (dropped : drop req held s = some s') :
    waitRound req held further s.1 s.2 = further s'.1 s'.2 := by
  obtain ⟨received, answers, _, sending⟩ := drop_cases dropped
  simp [waitRound, received, answers, sending]

/-- What the loop left means for the caller. -/
def Settles (req : Buf) : Option Outcome × Buf × World → Prop
  | (outcome, rsp, _) => outcome = none ∧ Answers req rsp ∨ outcome = some (.returned false)

/-- Some receive among the first so many fails or brings the response. -/
def EndsWithin (req : Buf) (held : Option Int) (n : Nat) (s : Waiting) : Prop :=
  ∃ i < n, ∃ s', drops req held i s = some s' ∧ Ends req s'

/-- The first receive ends the loop, or the loop goes on after a dropped message. -/
theorem endsWithin_succ (req : Buf) (held : Option Int) (n : Nat) (s : Waiting) :
    EndsWithin req held (n + 1) s ↔
      Ends req s ∨ ∃ s', drop req held s = some s' ∧ EndsWithin req held n s' := by
  constructor
  · rintro ⟨i, within, s', dropped, ends⟩
    cases i with
    | zero =>
      cases dropped
      exact .inl ends
    | succ i =>
      obtain ⟨t, first, rest⟩ := Option.bind_eq_some_iff.mp dropped
      exact .inr ⟨t, first, i, by omega, s', rest, ends⟩
  · rintro (ends | ⟨t, first, i, within, s', rest, ends⟩)
    · exact ⟨0, by omega, s, rfl, ends⟩
    · exact ⟨i + 1, by omega, s', Option.bind_eq_some_iff.mpr ⟨t, first, rest⟩, ends⟩

/-- The loop settles exactly when some receive within its bound ends it. -/
theorem waitLoop_settles (req : Buf) (held : Option Int) (n : Nat) (s : Waiting)
    (waits : n = 0 → ¬ Answers req s.1) :
    Settles req (waitLoop req held n s.1 s.2) ↔ EndsWithin req held n s := by
  induction n generalizing s with
  | zero => simp [Settles, waitLoop, EndsWithin, waits rfl]
  | succ n ih =>
    rw [endsWithin_succ]
    cases received : (recvMsgSocket s.1 false s.2).ok with
    | false => simp [waitLoop, waitRound, Settles, Ends, received]
    | true =>
      by_cases answers : Answers req (recvMsgSocket s.1 false s.2).msg
      · simp [waitLoop, waitRound, Settles, Ends, received, answers]
      · have goesOn : ¬ Ends req s := fun ends => answers (ends received)
        cases sending : sendMsg held ((recvMsgSocket s.1 false s.2).msg.setFwFlag true)
            (recvMsgSocket s.1 false s.2).world with
        | mk outcome after =>
          cases outcome with
          | blocked => 
            simp [waitLoop, waitRound, Settles, drop, received, answers, goesOn, sending]
          | returned ok =>
            have dropped : drop req held s = some after := by
              simp [drop, received, answers, sending]
            have rest := ih after fun _ => drop_not_answers dropped
            simp [waitLoop, waitRound, received, answers, goesOn, sending, dropped, rest]

/-- The loop looks at nothing of the request but what is compared. -/
theorem waitLoop_congr {req req' : Buf} (seq : req'.seq = req.seq)
    (type : req'.msgType = req.msgType) (held : Option Int) (n : Nat) :
    waitLoop req' held n = waitLoop req held n := by
  induction n with
  | zero => rfl
  | succ n ih =>
    funext rsp w
    have same := answers_congr seq type (Eq.refl (recvMsgSocket rsp false w).msg.seq) rfl
    simp only [waitLoop, waitRound, same, ih]

theorem waitLoop_ne_true (req : Buf) (held : Option Int) (n : Nat) (rsp : Buf) (w : World) :
    (waitLoop req held n rsp w).1 ≠ some (.returned true) := by
  induction n generalizing rsp w with
  | zero => simp [waitLoop]
  | succ n ih =>
    unfold waitLoop waitRound
    dsimp only
    split
    · simp
    split
    · simp
    split
    · simp
    · exact ih _ _

/-- The call, by whether the request has been sent. -/
theorem correlated_iff_settles (req rsp : Buf) (w : World) :
    Correlated req rsp w ↔ ∀ held w', sent req w = some (held, w') →
      Settles req (waitLoop req held comMaxDropMsg rsp w') := by
  unfold Correlated sendReqWaitRsp sent
  cases found : destination req w with
  | mk fd w₁ =>
    by_cases none : fd ≤ 0
    · simp [none]
    cases sending : sendMsgSocket req w₁ with
    | mk ok after =>
      obtain ⟨req', w₂⟩ := after
      cases ok with
      | false => simp [none, sending]
      | true =>
        obtain ⟨seq, type⟩ : req'.seq = req.seq ∧ req'.msgType = req.msgType := by
          simpa [sending] using sendMsgSocket_header req w₁
        simp only [none, sending, waitLoop_congr seq type]
        cases looped : waitLoop req (lockMgrFd fd w₂) comMaxDropMsg rsp w₂ with
        | mk outcome left =>
          cases outcome with
          | none => simp [Settles, looped]
          | some outcome =>
            have other : outcome ≠ .returned true := by
              simpa [looped] using waitLoop_ne_true req (lockMgrFd fd w₂) comMaxDropMsg rsp w₂
            simp [Settles, looped, other]

/-- A request and its response: the call returns `TRUE` only with the response, and `FALSE`
otherwise, exactly when the request cannot be sent or one of the first
`MGR_COM_MAX_DROP_MSG` receives fails or brings the response. -/
theorem response_correlated_iff (req rsp : Buf) (w : World) :
    Correlated req rsp w ↔ ∀ held w', sent req w = some (held, w') →
      EndsWithin req held comMaxDropMsg (rsp, w') := by
  rw [correlated_iff_settles]
  apply forall₃_congr
  intro held w' _
  exact waitLoop_settles req held comMaxDropMsg (rsp, w') (fun never => absurd never (by decide))

/-- A heartbeat response with another sequence number, for no process. -/
def stray : List UInt8 :=
  [3, 2, 0, 0, 248, 1, 0, 0, 0, 0, 1, 0, 7, 0, 0, 0, 77, 0, 0, 0, 0, 0, 0, 0] ++
    List.replicate 480 0

/-- A heartbeat request to the main process. -/
def heartbeat : Buf :=
  ⟨0, .pool, sizeofMsg, store (fun _ => 0) 0 [3, 0, 0, 0, 248, 1, 0, 0, 1, 0, 3, 1, 9, 0, 0, 0,
    100, 0, 0, 0, 77, 0, 0, 0], le_rfl⟩

/-- A response buffer as `nsfw_mgr_null_rspmsg_alloc` leaves it. -/
def nullRsp : Buf :=
  ⟨1, .pool, sizeofMsg, store (fun _ => 0) 0 [0, 0, 0, 0, 248, 1, 0, 0, 1, 0, 3, 0, 0, 0, 0, 0,
    100, 0, 0, 0, 0, 0, 0, 0], le_rfl⟩

/-- The main process is connected on descriptor 5. -/
def mainMap : SockMap :=
  ⟨Function.update (fun _ => 0) 1 5, Function.update (fun _ => ⟨0, 0⟩) 5 ⟨1, 77⟩, 1024⟩

/-- The peer sends the stray message so many times. -/
def strayWorld (n : Nat) : World where
  map := mainMap
  procType := 3
  sysPid := 100
  curIdx := 9
  hasPool := true
  handlers := fun _ => 0
  stream := (List.replicate n stray).flatten
  recvs := List.replicate n (.deliver 504)
  sends := [.sent 504]
  connects := []
  allocs := []
  log := []

/-- A message that arrives in one piece is received whole. -/
theorem recvMsgSocket_whole {msg : Buf} {w : World} {calls : List RecvCall}
    {bytes rest : List UInt8} {k : Nat} (len : bytes.length = msg.msgLen)
    (positive : 0 < msg.msgLen) (small : msg.msgLen ≤ maxRwCount) (enough : msg.msgLen ≤ k)
    (stream : w.stream = bytes ++ rest) (recvs : w.recvs = .deliver k :: calls) :
    let got := recvMsgSocket msg false w
    got.ok = true ∧ got.msg = (msg.receive 0 bytes).setFromMem msg.fromMem ∧
      got.world.stream = rest ∧ got.world.recvs = calls ∧ got.world.map = w.map := by
  have count : min k (min (msg.msgLen - 0) maxRwCount) = bytes.length := by omega
  have some_bytes : bytes ≠ [] := List.ne_nil_of_length_pos (by omega)
  have signed : int32 msg.msgLen = msg.msgLen := by
    unfold maxRwCount at small
    exact int32_of_range (by omega) (by omega)
  have loop : recvLoop msg.msgLen w.recvs 0 0 msg w = ⟨true, bytes.length, msg.receive 0 bytes,
      { w.note (.range msg.cap 0 msg.msgLen) with recvs := calls, stream := rest }⟩ := by
    simp [recvs, recvLoop, World.note, stream, len, signed, some_bytes, small, enough]
  simp only [recvMsgSocket, loop]
  split_ifs <;> simp_all [World.note]

theorem length_stray : stray.length = 504 := by
  rw [stray, List.length_append, List.length_replicate]
  rfl

/-- A number of the header of a buffer that the stray message was received into. -/
theorem load_stray (msg : Buf) (flag : Bool) {off width : Nat} (inside : off + width ≤ 504)
    (apart : off + width ≤ 8 ∨ 8 < off) :
    load ((msg.receive 0 stray).setFromMem flag).mem off width =
      load (fun i => stray.getD i 0) off width := by
  rw [Buf.setFromMem, Buf.load_setFlag _ _ _ apart]
  exact load_store_inside (by rw [length_stray]; exact inside)

/-- No process has the type 0, so a message to it is sent nowhere. -/
theorem sendMsg_nobody (held : Option Int) {msg : Buf} {w : World}
    (toProc : msg.dstProcType = 0) (toPid : msg.dstPid = 0) (map : w.map = mainMap) :
    sendMsg held msg w = (.returned false, msg, w) := by
  have nobody : getDstSocket 0 0 mainMap = -1 := by decide +kernel
  simp [sendMsg, destination, getNewSocket, getConnectSocket, toProc, toPid, map, nobody]

/-- A receive of the stray message in one piece drops it. -/
theorem drop_stray {s : Waiting} {calls : List RecvCall} {rest : List UInt8}
    (held : Option Int) (len : s.1.msgLen = 504) (stream : s.2.stream = stray ++ rest)
    (recvs : s.2.recvs = .deliver 504 :: calls) (map : s.2.map = mainMap) :
    ∃ s', drop heartbeat held s = some s' ∧ s'.1.msgLen = 504 ∧
      s'.2.stream = rest ∧ s'.2.recvs = calls ∧ s'.2.map = mainMap := by
  obtain ⟨ok, msg, stream', recvs', map'⟩ := recvMsgSocket_whole (by rw [len, length_stray])
    (by omega) (by rw [len]; decide) (by omega) stream recvs
  have other : ¬ Answers heartbeat (recvMsgSocket s.1 false s.2).msg := by
    rw [Answers, msg, Buf.seq, load_stray _ _ (by omega) (by omega)]
    intro answers
    exact absurd answers.1 (by decide +kernel)
  have toProc : ((recvMsgSocket s.1 false s.2).msg.setFwFlag true).dstProcType = 0 := by
    rw [msg, Buf.dstProcType, Buf.setFwFlag, Buf.load_setFlag _ _ _ (by omega),
      load_stray _ _ (by omega) (by omega)]
    decide +kernel
  have toPid : ((recvMsgSocket s.1 false s.2).msg.setFwFlag true).dstPid = 0 := by
    rw [msg, Buf.dstPid, Buf.setFwFlag, Buf.load_setFlag _ _ _ (by omega),
      load_stray _ _ (by omega) (by omega)]
    decide +kernel
  have lost := sendMsg_nobody held toProc toPid (map'.trans map)
  refine ⟨((recvMsgSocket s.1 false s.2).msg.setFwFlag true, (recvMsgSocket s.1 false s.2).world),
    by simp [drop, ok, other, lost], ?_, stream', recvs', map'.trans map⟩
  rw [msg, Buf.msgLen, Buf.setFwFlag, Buf.load_setFlag _ _ _ (by omega),
    load_stray _ _ (by omega) (by omega)]
  decide +kernel

theorem drops_stray (held : Option Int) (n : Nat) (s : Waiting) (len : s.1.msgLen = 504)
    (stream : s.2.stream = (List.replicate n stray).flatten)
    (recvs : s.2.recvs = List.replicate n (.deliver 504)) (map : s.2.map = mainMap) :
    ∃ s', drops heartbeat held n s = some s' := by
  induction n generalizing s with
  | zero => exact ⟨s, rfl⟩
  | succ n ih =>
    rw [List.replicate_succ, List.flatten_cons] at stream
    rw [List.replicate_succ] at recvs
    obtain ⟨t, first, len', stream', recvs', map'⟩ := drop_stray held len stream recvs map
    obtain ⟨s', rest⟩ := ih t len' stream' recvs' map'
    exact ⟨s', Option.bind_eq_some_iff.mpr ⟨t, first, rest⟩⟩

/-- The loop that drops all its messages falls through. -/
theorem waitLoop_of_drops {req : Buf} {held : Option Int} {n : Nat} {s s' : Waiting}
    (dropped : drops req held n s = some s') :
    waitLoop req held n s.1 s.2 = (none, s') ∧ (0 < n → ¬ Answers req s'.1) := by
  induction n generalizing s with
  | zero =>
    cases dropped
    exact ⟨rfl, fun some => absurd some (lt_irrefl 0)⟩
  | succ n ih =>
    obtain ⟨t, first, rest⟩ := Option.bind_eq_some_iff.mp dropped
    obtain ⟨falls, other⟩ := ih rest
    refine ⟨(waitRound_of_drop first).trans falls, fun _ => ?_⟩
    cases n with
    | zero =>
      cases rest
      exact drop_not_answers first
    | succ n => exact other (by omega)

/-- A loop that falls through makes the call return `TRUE`, whatever is in the buffer. -/
theorem sendReqWaitRsp_of_falls {req req' rsp : Buf} {w w₁ w₂ : World} {fd : Int}
    {last : Waiting} (found : destination req w = (fd, w₁)) (positive : 0 < fd)
    (sending : sendMsgSocket req w₁ = (true, req', w₂))
    (falls : waitLoop req' (lockMgrFd fd w₂) comMaxDropMsg rsp w₂ = (none, last))
    (other : ¬ Answers req last.1) :
    (sendReqWaitRsp req rsp w).1 = .returned true ∧
      ¬ Answers req (sendReqWaitRsp req rsp w).2.1 := by
  simp [sendReqWaitRsp, found, positive.not_ge, sending, falls, other]

/-- The world after the request has been sent. -/
def requestSent (n : Nat) : World :=
  { strayWorld n with sends := [], log := [.range sizeofMsg 0 sizeofMsg, .msgSend 3] }

/-- A peer that answers a request with `MGR_COM_MAX_DROP_MSG` other messages makes the call
return `TRUE` with the last of them in the response buffer. -/
theorem stray_taken_for_response :
    (sendReqWaitRsp heartbeat nullRsp (strayWorld comMaxDropMsg)).1 = .returned true ∧
      ¬ Answers heartbeat (sendReqWaitRsp heartbeat nullRsp (strayWorld comMaxDropMsg)).2.1 := by
  have found (n : Nat) : destination heartbeat (strayWorld n) = (5, strayWorld n) := rfl
  have sending (n : Nat) : sendMsgSocket heartbeat (strayWorld n) =
      (true, heartbeat, requestSent n) := rfl
  have all (n : Nat) : ∃ last, drops heartbeat (lockMgrFd 5 (requestSent n)) n
      (nullRsp, requestSent n) = some last :=
    drops_stray _ n (nullRsp, requestSent n) (show nullRsp.msgLen = 504 by decide +kernel)
      rfl rfl rfl
  obtain ⟨last, dropped⟩ := all comMaxDropMsg
  obtain ⟨falls, other⟩ := waitLoop_of_drops dropped
  exact sendReqWaitRsp_of_falls (found _) (by decide) (sending _) falls (other (by decide))

end Dmm.Mgr
