import Dmm.Mgr.Request

/-!
# Waiting under a lock

A call that waits for its response holds the spin lock of its socket. A message that is not the
response is sent on meanwhile, to a socket that is looked up by the fields its sender put into it.
The lock is not recursive: a message for the socket it came from stops the call for good.
-/

namespace Dmm.Mgr

/-- `nsfw_mgr_send_msg` finds the socket whose lock is held for the message. -/
def Locked (held : Option Int) (msg : Buf) (w : World) : Prop :=
  let (fd, w) := destination msg w
  0 < fd ∧ fd < w.map.fdMax ∧ held = some fd

/-- The message received next fails, is the response or is for another socket. -/
def Passes (req : Buf) (held : Option Int) (s : Waiting) : Prop :=
  let got := recvMsgSocket s.1 false s.2
  got.ok = true → ¬Answers req got.msg → ¬Locked held (got.msg.setFwFlag true) got.world

/-- Sending waits for the lock exactly if the caller holds it. -/
theorem sendMsg_blocked_iff (held : Option Int) (msg : Buf) (w : World) :
    (sendMsg held msg w).1 = .blocked ↔ Locked held msg w := by
  unfold sendMsg Locked
  cases destination msg w with
  | mk fd w' =>
    by_cases nowhere : fd ≤ 0
    · simp [nowhere, Int.not_lt.mpr nowhere]
    · by_cases locked : fd < w'.map.fdMax ∧ held = some fd
      · simp [nowhere, locked, Int.not_le.mp nowhere]
      · simp [nowhere, locked]

/-- The loop is not stopped exactly if no message of its rounds is for its own socket. -/
theorem waitLoop_returns_iff (req : Buf) (held : Option Int) (n : Nat) (s : Waiting) :
    (waitLoop req held n s.1 s.2).1 ≠ some .blocked ↔
      ∀ i < n, ∀ s', drops req held i s = some s' → Passes req held s' := by
  induction n generalizing s with
  | zero => simp [waitLoop]
  | succ n ih =>
    rw [forall_drops_succ]
    cases received : (recvMsgSocket s.1 false s.2).ok with
    | false => simp [waitLoop, waitRound, Passes, drop, received]
    | true =>
      by_cases answers : Answers req (recvMsgSocket s.1 false s.2).msg
      · simp [waitLoop, waitRound, Passes, drop, received, answers]
      have locked := sendMsg_blocked_iff held ((recvMsgSocket s.1 false s.2).msg.setFwFlag true)
        (recvMsgSocket s.1 false s.2).world
      cases sending : sendMsg held ((recvMsgSocket s.1 false s.2).msg.setFwFlag true)
          (recvMsgSocket s.1 false s.2).world with
      | mk outcome after =>
        rw [sending] at locked
        cases outcome with
        | blocked => simp [waitLoop, waitRound, Passes, received, answers, sending, locked.mp rfl]
        | returned ok =>
          have dropped : drop req held s = some after := by
            simp [drop, received, answers, sending]
          have passes : Passes req held s := fun _ _ own =>
            Outcome.noConfusion (locked.mpr own)
          rw [waitLoop, waitRound_of_drop dropped, ih after]
          simp [dropped, passes]

/-- A call that waits for its response returns exactly if the request cannot be sent or no message
before the response is for the socket that the call holds the lock of. -/
theorem request_returns_iff (req rsp : Buf) (w : World) :
    (sendReqWaitRsp req rsp w).1 ≠ .blocked ↔ ∀ held w', sent req w = some (held, w') →
      ∀ i < comMaxDropMsg, ∀ s, drops req held i (rsp, w') = some s → Passes req held s := by
  unfold sendReqWaitRsp sent
  cases found : destination req w with
  | mk fd w₁ =>
    by_cases nowhere : fd ≤ 0
    · simp [nowhere]
    cases sending : sendMsgSocket req w₁ with
    | mk ok after =>
      obtain ⟨req', w₂⟩ := after
      cases ok with
      | false => simp [nowhere, sending]
      | true =>
        obtain ⟨seq, type⟩ : req'.seq = req.seq ∧ req'.msgType = req.msgType := by
          simpa [sending] using sendMsgSocket_header req w₁
        have returns := waitLoop_returns_iff req (lockMgrFd fd w₂) comMaxDropMsg (rsp, w₂)
        simp only [nowhere, sending, waitLoop_congr seq type]
        cases looped : waitLoop req (lockMgrFd fd w₂) comMaxDropMsg rsp w₂ with
        | mk outcome left =>
          rw [looped] at returns
          cases outcome with
          | none => simpa using returns
          | some outcome => simpa using returns

/-- A heartbeat response with another sequence number, for the main process. -/
def echo : List UInt8 :=
  [3, 2, 0, 0, 248, 1, 0, 0, 0, 0, 1, 1, 7, 0, 0, 0, 77, 0, 0, 0, 77, 0, 0, 0] ++
    List.replicate 480 0

/-- The main process answers a heartbeat with a message for itself. -/
theorem echo_blocks : (sendReqWaitRsp heartbeat nullRsp
    { strayWorld 0 with stream := echo, recvs := [.deliver 504] }).1 = .blocked := by
  decide +kernel

end Dmm.Mgr
