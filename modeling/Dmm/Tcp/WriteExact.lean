import Dmm.Lib.Run
import Dmm.Tcp.WriteInv

/-!
# The bytes of the write queue

Messages arrive at a connection and the callbacks of lwIP go on with what is left of them. Whatever
`tcp_sndbuf` and `tcp_write` return, short of an error other than `ERR_MEM`, the bytes that are
passed on are the first bytes of the messages, in the order of arrival.
-/

namespace Dmm.Tcp

open Dmm.Chain Dmm.Ledger

/-- What happens to a connection that is written to. -/
inductive WriteAction
  | write (m : MsgId) (msg : Msg) (lwip : Lwip)
  | sent (lwip : Lwip)
  | poll (lwip : Lwip)

/-- One of them. -/
def writeAct (s : Stack) : WriteAction → Option Stack
  | .write m msg lwip => doWriteMsg lwip m (s.receive m msg)
  | .sent lwip => splSentTcp lwip s
  | .poll lwip => splPollTcp lwip s

/-- `tcp_write` takes bytes, or there is no memory. -/
def Lwip.Answers (lwip : Lwip) : Prop := ∀ n, lwip.write n = errOk ∨ lwip.write n = errMem

/-- A message is one that is not in the queue, with a length, and its pbufs are not empty. -/
def WriteOffered (s : Stack) : WriteAction → Prop
  | .write m msg lwip =>
    (m ∉ ids s.unfinished ∧ 0 < msg.len ∧ ∀ b ∈ msg.p, b.payload ≠ []) ∧ lwip.Answers
  | .sent lwip => lwip.Answers
  | .poll lwip => lwip.Answers

/-- A connection that has been connected, and nothing was written to it. -/
structure Connected (s : Stack) : Prop where
  idle : Idle s
  pcb : s.conn.privateData = true
  noError : ¬ splErrIsFatal s.conn.lastErr
  empty : Inv s [] []
  fresh : s.arrived = []

/-- The queue is exact: `queue` are the messages with the pbufs that are left, and `before` the
bytes in front of them. -/
structure WriteExact (s : Stack) (queue : Queue) (before : List UInt8) : Prop where
  isPrefix : s.sent <+: stream s.arrived
  all : queue = [] → s.sent = stream s.arrived
  linked : Linked s queue
  unfinished : ids queue = ids s.unfinished
  finished : stream (s.arrived.take s.left) <+: s.sent
  notFinished : ∀ e ∈ s.unfinished.head?, bytes e.2 ≠ [] →
    ¬ stream (s.arrived.take (s.left + 1)) <+: s.sent
  current : s.conn.currentMsg = (ids queue).head?
  split : stream s.arrived = before ++ stream queue
  offset : ∀ b, firstPbuf queue = some b → s.conn.writeOffset < b.payload.length ∧
    s.sent = before ++ b.payload.take s.conn.writeOffset
  state : s.conn.state = .write ↔ queue ≠ []

/-- The invariant of a run. -/
structure Writing (s : Stack) (done : List Pbuf) (q : Queue) : Prop where
  inv : Inv s done q
  idle : q = [] → Idle s
  pcb : s.conn.privateData = true
  noError : ¬ splErrIsFatal s.conn.lastErr
  full : ∀ e ∈ s.arrived, ∀ b ∈ e.2, b.payload ≠ []

/-- A call of `do_writemore` keeps the invariant. -/
theorem Writing.doWritemore {lwip : Lwip} (answers : lwip.Answers) {s : Stack}
    {done : List Pbuf} {q : Queue} (writing : Writing s done q) :
    ∃ t, doWritemore lwip s = some t ∧ ∃ done' q', Writing t done' q' := by
  obtain ⟨t, returns, result⟩ := doWritemore_inv lwip writing.inv
  refine ⟨t, returns, ?_⟩
  cases result with
  | inl same => exact ⟨done, q, same ▸ writing⟩
  | inr call =>
    cases call with
    | kept inv kept idle =>
      refine ⟨_, _, inv, idle, kept.privateData.trans writing.pcb, ?_, ?_⟩
      · rw [kept.lastErr]
        exact writing.noError
      · rw [kept.arrived]
        exact writing.full
    | aborted n inv some kept notOk notMem =>
      cases answers n with
      | inl ok => exact absurd ok notOk
      | inr mem => exact absurd mem notMem

/-- One action keeps the invariant, and is always possible. -/
theorem Writing.step {s : Stack} {done : List Pbuf} {q : Queue} (writing : Writing s done q)
    {a : WriteAction} (offered : WriteOffered s a) :
    ∃ t, writeAct s a = some t ∧ ∃ done' q', Writing t done' q' := by
  have callback {lwip : Lwip} (answers : lwip.Answers) :
      ∃ t, writeCallback lwip s = some t ∧ ∃ done' q', Writing t done' q' := by
    unfold writeCallback
    by_cases busy : s.conn.state = .write
    · rw [if_pos busy]
      exact writing.doWritemore answers
    · have nothing : q = [] := by
        by_contra some
        exact busy (writing.inv.busy some).1
      have none := (writing.idle nothing).1
      rw [if_neg busy, none]
      exact ⟨s, rfl, done, q, writing⟩
  cases a with
  | sent lwip => exact callback offered
  | poll lwip => exact callback offered
  | write m msg lwip =>
    obtain ⟨⟨fresh, len, full⟩, answers⟩ := offered
    rw [writing.inv.ids_unfinished] at fresh
    have result := doWriteMsg_result lwip writing.inv m msg
    have known {t : Stack} (arrived : t.arrived = s.arrived ++ [(m, msg.p)]) :
        ∀ e ∈ t.arrived, ∀ b ∈ e.2, b.payload ≠ [] := by
      rw [arrived]
      intro e mem
      cases List.mem_append.mp mem with
      | inl old => exact writing.full e old
      | inr new =>
        rw [List.mem_singleton.mp new]
        exact full
    show ∃ t, doWriteMsg lwip m (s.receive m msg) = some t ∧ _
    revert result
    generalize doWriteMsg lwip m (s.receive m msg) = outcome
    intro result
    cases result with
    | dropped refused =>
      exfalso
      rcases refused with noPcb | fatal | ⟨nothing, taken⟩
      · exact Bool.noConfusion (noPcb.symm.trans writing.pcb)
      · exact writing.noError fatal
      · have idle := writing.idle nothing
        cases taken with
        | inl current => exact current idle.2
        | inr state => exact state idle.1
    | empty zero nothing current => omega
    | enqueued tail last =>
      have apart : m ≠ tail := fun same => fresh (same ▸ List.mem_of_getLast? last)
      have next : Writing ((s.receive m msg).enqueue m tail) done (q ++ [(m, msg.p)]) :=
        ⟨writing.inv.enqueue last fresh msg, fun none => absurd none (by simp), writing.pcb,
          writing.noError, known (s.enqueue_arrived apart msg)⟩
      exact next.doWritemore answers
    | first nothing pcb nonzero =>
      subst nothing
      have arrived : ((s.receive m msg).first m).arrived = s.arrived ++ [(m, msg.p)] := by
        simp [Stack.first, Stack.arrive, Stack.setNext, Stack.receive]
      have next : Writing ((s.receive m msg).first m) [] [(m, msg.p)] :=
        ⟨writing.inv.first pcb m msg, fun none => absurd none (by simp), writing.pcb,
          writing.noError, known arrived⟩
      exact next.doWritemore answers

/-- What has arrived is what is in front of the queue and the queue. -/
theorem Inv.split {s : Stack} {done : List Pbuf} {q : Queue} (inv : Inv s done q) :
    stream s.arrived = stream (s.arrived.take s.left) ++ bytes done ++ stream q := by
  have halves : stream s.arrived = stream (s.arrived.take s.left) ++
      stream (s.arrived.drop s.left) := by
    rw [stream, stream, stream, ← List.flatMap_append, List.take_append_drop]
  rw [halves, inv.original, List.append_assoc]
  cases q with
  | nil =>
    rw [inv.started rfl]
    rfl
  | cons e q =>
    obtain ⟨m, p⟩ := e
    simp [restore, stream, bytes]

/-- What is passed on of a message that is left is not all of it. -/
theorem Inv.sent_lt {s : Stack} {done : List Pbuf} {m : MsgId} {b : Pbuf} {rest : List Pbuf}
    {q : Queue} (inv : Inv s done ((m, b :: rest) :: q))
    (inside : s.conn.writeOffset < b.payload.length) :
    s.sent.length < (stream (s.arrived.take (s.left + 1))).length := by
  have here : s.arrived[s.left]? = some (m, done ++ b :: rest) := by
    rw [← List.head?_drop, inv.original]
    rfl
  have sent := congrArg List.length inv.sent
  rw [List.take_add_one, here]
  simp only [firstPbuf, Option.elim_some, List.length_append, List.length_take] at sent
  simp only [stream, bytes, Option.toList_some, List.flatMap_append, List.flatMap_cons,
    List.flatMap_nil, List.append_nil, List.length_append] at sent ⊢
  omega

/-- The pbufs of the queue are among those that have arrived. -/
theorem Writing.nonempty {s : Stack} {done : List Pbuf} {m : MsgId} {b : Pbuf}
    {rest : List Pbuf} {q : Queue} (writing : Writing s done ((m, b :: rest) :: q)) :
    b.payload ≠ [] := by
  have arrived : (m, done ++ b :: rest) ∈ s.arrived := by
    apply List.mem_of_mem_drop (i := s.left)
    rw [writing.inv.original]
    simp [restore]
  exact writing.full _ arrived b (by simp)

theorem Writing.offset_lt {s : Stack} {done : List Pbuf} {m : MsgId} {b : Pbuf}
    {rest : List Pbuf} {q : Queue} (writing : Writing s done ((m, b :: rest) :: q)) :
    s.conn.writeOffset < b.payload.length := by
  cases writing.inv.offset with
  | inl zero =>
    rw [zero]
    exact List.length_pos_iff.mpr writing.nonempty
  | inr inside =>
    obtain ⟨c, first, less⟩ := inside
    cases first
    exact less

/-- The invariant makes the queue exact. -/
theorem Writing.exact {s : Stack} {done : List Pbuf} {q : Queue} (writing : Writing s done q) :
    WriteExact s q (stream (s.arrived.take s.left) ++ bytes done) := by
  have inv := writing.inv
  have sent := inv.sent
  exact {
    isPrefix := by
      rw [inv.split, sent]
      apply (List.prefix_append_right_inj _).mpr
      rcases q with _ | ⟨⟨m, _ | ⟨b, rest⟩⟩, q⟩
      · simp [firstPbuf]
      · simp [firstPbuf]
      · have whole : b.payload <+: stream ((m, b :: rest) :: q) := by
          simp [stream, bytes]
        exact (List.take_prefix _ _).trans whole
    all := by
      rintro rfl
      rw [inv.split, sent]
      simp [firstPbuf, stream]
    linked := inv.linked
    unfinished := inv.ids_unfinished.symm
    finished := by
      rw [sent, List.append_assoc]
      exact List.prefix_append _ _
    notFinished := by
      intro e first some
      rw [Stack.unfinished, inv.original] at first
      rcases q with _ | ⟨⟨m, _ | ⟨b, rest⟩⟩, q⟩
      · cases first
      · have none := inv.started rfl
        subst none
        cases first
        exact absurd rfl some
      · intro all
        have less := inv.sent_lt writing.offset_lt
        have length := all.length_le
        omega
    current := by
      by_cases nothing : q = []
      · subst nothing
        exact (writing.idle rfl).2
      · exact inv.current nothing
    split := inv.split
    offset := by
      intro b first
      rcases q with _ | ⟨⟨m, _ | ⟨c, rest⟩⟩, q⟩
      · cases first
      · cases first
      · cases first
        exact ⟨writing.offset_lt, sent⟩
    state := by
      constructor
      · rintro busy rfl
        rw [(writing.idle rfl).1] at busy
        cases busy
      · exact fun some => (inv.busy some).1 }

/-- **The write queue passes on the byte stream exactly.** However messages arrive and callbacks
come, and whatever the send buffer takes at each turn: the bytes passed on are at every moment a
prefix of the bytes of the messages in the order of arrival, and all of them without a queue;
`msg_head` to `msg_tail` list the unfinished messages; `current_msg` is the first of them and
`write_offset` the position in its first pbuf; the connection is in state `SPL_NETCONN_WRITE`
exactly while there is a queue. And every call returns. -/
theorem write_stream_exact {start s : Stack} (connected : Connected start)
    (run : Runs writeAct WriteOffered start s) :
    (∃ queue before, WriteExact s queue before) ∧
      ∀ a, WriteOffered s a → (writeAct s a).isSome := by
  have writing : ∃ done q, Writing s done q := by
    refine run.invariant (P := fun s => ∃ done q, Writing s done q) ?_ ?_
    · refine ⟨[], [], connected.empty, fun _ => connected.idle, connected.pcb,
        connected.noError, ?_⟩
      rw [connected.fresh]
      exact fun e mem => absurd mem (by simp)
    · rintro t a u ⟨done, q, writing⟩ offered taken
      obtain ⟨v, acts, kept⟩ := writing.step offered
      obtain rfl := Option.some.inj (taken.symm.trans acts)
      exact kept
  obtain ⟨done, q, writing⟩ := writing
  refine ⟨⟨q, _, writing.exact⟩, fun a offered => ?_⟩
  obtain ⟨t, acts, _⟩ := writing.step offered
  rw [acts]
  rfl

theorem connectedStack_connected : Connected (connectedStack false) where
  idle := ⟨rfl, rfl⟩
  pcb := rfl
  noError := by decide
  empty := connectedStack_inv false
  fresh := rfl

/-- Two pbufs of which the send buffer takes two bytes, then one, then no more. -/
def twoPbufs : Msg := ⟨[⟨0, [1, 2, 3], by decide⟩, ⟨1, [4, 5], by decide⟩], none, 5⟩

/-- A send buffer with room for two bytes, then one, then none. -/
def smallBuffer : Lwip := ⟨fun n => 2 - n, fun _ => errOk, false, fun _ => false⟩

/-- Three of five bytes are passed on when the message arrives, and then the rest. -/
theorem write_stream_pieces :
    ∃ s, Runs writeAct WriteOffered (connectedStack false) s ∧ s.sent = [1, 2, 3, 4, 5] ∧
      ∃ queue before, WriteExact s queue before := by
  have answers : smallBuffer.Answers := fun _ => .inl rfl
  have first : Runs writeAct WriteOffered (connectedStack false) _ :=
    Runs.start.step (.write 7 twoPbufs smallBuffer)
      ⟨⟨by decide, by decide, by decide⟩, answers⟩ rfl
  have second : Runs writeAct WriteOffered (connectedStack false) _ :=
    first.step (.sent smallBuffer) answers rfl
  exact ⟨_, second, rfl, (write_stream_exact connectedStack_connected second).1⟩

end Dmm.Tcp
