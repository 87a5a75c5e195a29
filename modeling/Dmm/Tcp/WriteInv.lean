import Dmm.Lib.Chain
import Dmm.Lib.Ledger
import Dmm.Tcp.WriteQueue

/-!
# The invariant of the write queue

What is still to be written is a list of messages with the pbufs left of each. The invariant ties
it to the pointers of the connection, to what has arrived and what has been passed on, and to what
has been freed. One turn of the loop of `do_writemore` keeps it, and takes something off what is
left, so that the loop ends.
-/

namespace Dmm.Tcp

open Dmm.Chain Dmm.Ledger

/-! ## The queue -/

/-- The bytes of some pbufs. -/
def bytes (p : List Pbuf) : List UInt8 := p.flatMap Pbuf.payload

/-- Messages with the pbufs left of each. -/
abbrev Queue := List (MsgId × List Pbuf)

/-- The messages of a queue. -/
def ids (q : Queue) : List MsgId := q.map Prod.fst

/-- The bytes of the messages of a queue. -/
def stream (q : Queue) : List UInt8 := q.flatMap fun e => bytes e.2

/-- The first pbuf of a queue. -/
def firstPbuf : Queue → Option Pbuf
  | (_, b :: _) :: _ => some b
  | _ => none

/-- A queue with pbufs of its first message that are written already. -/
def restore (done : List Pbuf) : Queue → Queue
  | [] => []
  | (m, p) :: q => (m, done ++ p) :: q

/-- The messages that have arrived and not left. -/
def Stack.unfinished (s : Stack) : Queue := s.arrived.drop s.left

/-- The queue as the connection and the messages have it. -/
structure Linked (s : Stack) (q : Queue) : Prop where
  head : s.conn.msgHead = (ids q).head?
  tail : s.conn.msgTail = (ids q).getLast?
  chained : Chained (fun m => (s.msgs m).next) (ids q)
  nodup : (ids q).Nodup
  pbufs : ∀ e ∈ q, (s.msgs e.1).p = e.2

/-- What is to be freed. -/
inductive Item
  | msg (m : MsgId)
  | pbuf (id : Nat)
  deriving DecidableEq, Repr

/-- What an event brings to the stack. -/
def Event.takes : Event → Option Item
  | .postedMsg m => some (.msg m)
  | .postedPbuf id => some (.pbuf id)
  | _ => none

/-- What an event frees. -/
def Event.gives : Event → Option Item
  | .freedMsg m => some (.msg m)
  | .freedPbuf id => some (.pbuf id)
  | _ => none

/-- The pbufs of a chain. -/
def pbufItems (p : List Pbuf) : List Item := p.map fun b => .pbuf b.id

/-- The messages and pbufs of a queue. -/
def items (q : Queue) : List Item := q.flatMap fun e => .msg e.1 :: pbufItems e.2

/-- The invariant: `q` is left, and `done` are the pbufs of its first message that are written. -/
structure Inv (s : Stack) (done : List Pbuf) (q : Queue) : Prop where
  linked : Linked s q
  original : s.arrived.drop s.left = restore done q
  left_le : s.left ≤ s.arrived.length
  current : q ≠ [] → s.conn.currentMsg = (ids q).head?
  busy : q ≠ [] → s.conn.state = .write ∧ s.conn.privateData = true
  idle : q = [] → s.conn.state = .write → s.conn.currentMsg = none
  offset : s.conn.writeOffset = 0 ∨
    ∃ b, firstPbuf q = some b ∧ s.conn.writeOffset < b.payload.length
  started : firstPbuf q = none → done = []
  sent : s.sent = stream (s.arrived.take s.left) ++ bytes done ++
    ((firstPbuf q).elim [] Pbuf.payload).take s.conn.writeOffset
  balanced : Balanced Event.takes Event.gives s.log (items q)

theorem Inv.ids_unfinished {s : Stack} {done : List Pbuf} {q : Queue} (inv : Inv s done q) :
    ids s.unfinished = ids q := by
  rw [Stack.unfinished, inv.original]
  cases q with
  | nil => rfl
  | cons e q => rfl

/-- A connection that is just connected, without an error. -/
def connectedStack (nonblocking : Bool) : Stack where
  conn := ⟨.none, errOk, nonblocking, true, false, none, none, none, 0⟩
  msgs := fun _ => ⟨[], none, 0⟩
  sent := []
  arrived := []
  left := 0
  log := []

/-- The queue of a connection that is just connected is empty. -/
theorem connectedStack_inv (nonblocking : Bool) : Inv (connectedStack nonblocking) [] [] where
  linked := ⟨rfl, rfl, trivial, List.nodup_nil, fun e mem => absurd mem (by simp)⟩
  original := rfl
  left_le := Nat.le_refl 0
  current := fun none => absurd rfl none
  busy := fun none => absurd rfl none
  idle := fun _ _ => rfl
  offset := .inl rfl
  started := fun _ => rfl
  sent := rfl
  balanced := List.Perm.refl []

/-! ## Updates of a message -/

theorem Stack.setP_other (s : Stack) {m m' : MsgId} (other : m' ≠ m) (p : List Pbuf) :
    (s.setP m p).msgs m' = s.msgs m' := by
  simp [setP, Function.update_of_ne other]

theorem Stack.setP_next (s : Stack) (m m' : MsgId) (p : List Pbuf) :
    ((s.setP m p).msgs m').next = (s.msgs m').next := by
  by_cases same : m' = m
  · subst same
    simp [setP]
  · rw [setP_other s same]

@[simp] theorem Stack.setP_p (s : Stack) (m : MsgId) (p : List Pbuf) :
    ((s.setP m p).msgs m).p = p := by
  simp [setP]

theorem Stack.setP_setP (s : Stack) (m : MsgId) (p p' : List Pbuf) :
    (s.setP m p).setP m p' = s.setP m p' := by
  simp [setP]

theorem Stack.setP_self (s : Stack) {m : MsgId} {p : List Pbuf} (has : (s.msgs m).p = p) :
    s.setP m p = s := by
  subst has
  unfold setP
  rw [show ({ s.msgs m with p := (s.msgs m).p } : Msg) = s.msgs m from rfl,
    Function.update_eq_self]

theorem Linked.setP {s : Stack} {m : MsgId} {p p' : List Pbuf} {q : Queue}
    (linked : Linked s ((m, p) :: q)) : Linked (s.setP m p') ((m, p') :: q) where
  head := linked.head
  tail := linked.tail
  chained := linked.chained.congr fun m' _ => s.setP_next m m' p'
  nodup := linked.nodup
  pbufs := by
    intro e mem
    grind [s.setP_p, ids, linked.nodup, s.setP_other, linked.pbufs]

theorem Linked.agree {s t : Stack} {q : Queue} (linked : Linked s q)
    (head : t.conn.msgHead = s.conn.msgHead) (tail : t.conn.msgTail = s.conn.msgTail)
    (msgs : ∀ m ∈ ids q, t.msgs m = s.msgs m) : Linked t q where
  head := head.trans linked.head
  tail := tail.trans linked.tail
  chained := linked.chained.congr fun m mem => congrArg Msg.next (msgs m mem)
  nodup := linked.nodup
  pbufs := fun e mem => by
    rw [msgs e.1 (List.mem_map_of_mem mem)]
    exact linked.pbufs e mem

theorem Linked.congr {s t : Stack} {q : Queue} (linked : Linked s q)
    (head : t.conn.msgHead = s.conn.msgHead) (tail : t.conn.msgTail = s.conn.msgTail)
    (msgs : t.msgs = s.msgs) : Linked t q :=
  linked.agree head tail fun m _ => congrFun msgs m

/-! ## One turn -/

/-- A pbuf that has been passed on is freed. -/
def Stack.finishPbuf (s : Stack) (m : MsgId) (b : Pbuf) (rest : List Pbuf) : Stack :=
  ((s.setOffset 0).setP m rest).freePbufs [b]

/-- What one turn of the loop can do with the first pbuf. -/
inductive TurnResult (lwip : Lwip) (n : Nat) (s : Stack) (m : MsgId) (b : Pbuf)
    (rest : List Pbuf) : Next × Stack → Prop
  /-- The send buffer is full, or there is no memory. -/
  | blocked : TurnResult lwip n s m b rest (.stop, s)
  | part (len : Nat) (positive : 0 < len) (short : s.conn.writeOffset + len < b.payload.length) :
      TurnResult lwip n s m b rest (.again m, s.pass b len)
  /-- The pbuf is finished, and it is not the last one. -/
  | pbuf (len : Nat) (all : s.conn.writeOffset + len = b.payload.length) (more : rest ≠ []) :
      TurnResult lwip n s m b rest (.again m, (s.pass b len).finishPbuf m b rest)
  /-- The pbuf is finished, and with it the message. -/
  | msg (len : Nat) (all : s.conn.writeOffset + len = b.payload.length) (last : rest = []) :
      TurnResult lwip n s m b rest (finishMsg ((s.pass b len).finishPbuf m b []))
  /-- `tcp_write` fails, and the connection is aborted. -/
  | aborted (notOk : lwip.write n ≠ errOk) (notMem : lwip.write n ≠ errMem) :
      TurnResult lwip n s m b rest (.stop, splErrTcp lwip errAbrt (s.setOffset 0))

/-- What is passed to `tcp_write` is inside the pbuf, and not empty before its end. -/
theorem writeLen_inside {len off available : Nat} (short : len < 2 ^ 32) (inside : off ≤ len)
    (some : available ≠ 0) : off + writeLen len off available ≤ len ∧
      (off < len → 0 < writeLen len off available) := by
  unfold writeLen
  have diff : (len + 2 ^ 64 - off) % 2 ^ 64 = len - off := by omega
  simp only [diff]
  split <;> split <;> omega

theorem written_eq {s : Stack} {m : MsgId} {b : Pbuf} {rest : List Pbuf}
    (has : (s.msgs m).p = b :: rest) (len : Nat) :
    written m b rest len (s.setP m rest) =
      if s.conn.writeOffset + len = b.payload.length then
        if rest = [] then finishMsg ((s.pass b len).finishPbuf m b [])
        else (.again m, (s.pass b len).finishPbuf m b rest)
      else (.again m, s.pass b len) := by
  have moved : (s.setP m rest).pass b len = (s.pass b len).setP m rest := rfl
  have offset : ((s.pass b len).setP m rest).conn.writeOffset = s.conn.writeOffset + len := rfl
  have kept : ((s.pass b len).msgs m).p = b :: rest := has
  unfold written
  simp only [moved, offset, Stack.setP_setP, Stack.setP_self _ kept]
  by_cases last : rest = []
  · subst last
    rfl
  · rw [if_neg last, show rest.isEmpty = false by simpa using last]
    rfl

/-- A turn in which `tcp_write` takes bytes does one of these. -/
theorem written_result (lwip : Lwip) (n : Nat) {s : Stack} {m : MsgId} {b : Pbuf}
    {rest : List Pbuf} (has : (s.msgs m).p = b :: rest) {len : Nat}
    (fits : s.conn.writeOffset + len ≤ b.payload.length)
    (positive : s.conn.writeOffset + len < b.payload.length → 0 < len) :
    TurnResult lwip n s m b rest (written m b rest len (s.setP m rest)) := by
  rw [written_eq has]
  by_cases all : s.conn.writeOffset + len = b.payload.length
  · rw [if_pos all]
    by_cases last : rest = []
    · subst last
      exact .msg len all rfl
    · rw [if_neg last]
      exact .pbuf len all last
  · rw [if_neg all]
    exact .part len (positive (by omega)) (by omega)

/-- A turn does one of these. -/
theorem turn_result (lwip : Lwip) (n : Nat) {s : Stack} {m : MsgId} {b : Pbuf} {rest : List Pbuf}
    (has : (s.msgs m).p = b :: rest)
    (inside : s.conn.writeOffset = 0 ∨ s.conn.writeOffset < b.payload.length) :
    TurnResult lwip n s m b rest (turn lwip n m s) := by
  have back : (s.setP m rest).setP m (b :: rest) = s := by
    rw [s.setP_setP, s.setP_self has]
  unfold turn
  rw [has]
  dsimp only
  generalize lwip.sndbuf n % 2 ^ 16 = available
  by_cases full : available = 0
  · rw [if_pos full, back]
    exact .blocked
  rw [if_neg full]
  by_cases ok : lwip.write n = errOk
  · have len := writeLen_inside b.short (show s.conn.writeOffset ≤ b.payload.length by omega) full
    rw [if_pos ok]
    exact written_result lwip n has len.1 fun short => len.2 (by omega)
  rw [if_neg ok]
  by_cases mem : lwip.write n = errMem
  · rw [if_pos mem, back]
    exact .blocked
  · have whole : ((s.setP m rest).setOffset 0).setP m (b :: rest) = s.setOffset 0 := by
      rw [← Stack.setP_self (s.setOffset 0) has, ← Stack.setP_setP (s.setOffset 0) m rest]
      rfl
    rw [if_neg mem, whole]
    exact .aborted ok mem

/-! ## A turn keeps the invariant -/

/-- What a turn leaves of a connection. -/
structure Kept (s t : Stack) : Prop where
  arrived : t.arrived = s.arrived
  nonblocking : t.conn.nonblocking = s.conn.nonblocking
  lastErr : t.conn.lastErr = s.conn.lastErr
  privateData : t.conn.privateData = s.conn.privateData
  closeProgress : t.conn.closeProgress = s.conn.closeProgress

theorem Kept.refl (s : Stack) : Kept s s := ⟨rfl, rfl, rfl, rfl, rfl⟩

theorem Kept.trans {s t u : Stack} (first : Kept s t) (second : Kept t u) : Kept s u :=
  ⟨second.arrived.trans first.arrived, second.nonblocking.trans first.nonblocking,
    second.lastErr.trans first.lastErr, second.privateData.trans first.privateData,
    second.closeProgress.trans first.closeProgress⟩

/-- The connection has nothing to write. -/
def Idle (s : Stack) : Prop := s.conn.state = .none ∧ s.conn.currentMsg = none

/-- The bytes and pbufs left of a queue. -/
def work (q : Queue) : Nat := (q.map fun e => turns e.2).sum

theorem Inv.part {s : Stack} {done : List Pbuf} {m : MsgId} {b : Pbuf} {rest : List Pbuf}
    {q : Queue} (inv : Inv s done ((m, b :: rest) :: q)) {len : Nat}
    (short : s.conn.writeOffset + len < b.payload.length) :
    Inv (s.pass b len) done ((m, b :: rest) :: q) where
  linked := inv.linked.congr rfl rfl rfl
  original := inv.original
  left_le := inv.left_le
  current := inv.current
  busy := inv.busy
  idle := fun none => absurd none (by simp)
  offset := .inr ⟨b, rfl, short⟩
  started := inv.started
  sent := by
    have before := inv.sent
    simp only [firstPbuf, Option.elim_some] at before ⊢
    show s.sent ++ (b.payload.drop s.conn.writeOffset).take len = _
    rw [before, List.append_assoc _ _ ((b.payload.drop s.conn.writeOffset).take len),
      ← List.take_add]
    rfl
  balanced := inv.balanced

/-- The bytes passed on when the first pbuf is finished. -/
theorem Inv.sent_pbuf {s : Stack} {done : List Pbuf} {m : MsgId} {b : Pbuf} {rest : List Pbuf}
    {q : Queue} (inv : Inv s done ((m, b :: rest) :: q)) {len : Nat}
    (all : s.conn.writeOffset + len = b.payload.length) :
    (s.pass b len).sent = stream (s.arrived.take s.left) ++ bytes (done ++ [b]) := by
  have before := inv.sent
  have rest : (b.payload.drop s.conn.writeOffset).take len = b.payload.drop s.conn.writeOffset := by
    apply List.take_of_length_le
    rw [List.length_drop]
    omega
  simp only [firstPbuf, Option.elim_some] at before
  show s.sent ++ (b.payload.drop s.conn.writeOffset).take len = _
  rw [rest, before, List.append_assoc _ _ (b.payload.drop _), List.take_append_drop]
  simp [bytes]

theorem Inv.balanced_pbuf {s : Stack} {done : List Pbuf} {m : MsgId} {b : Pbuf}
    {rest : List Pbuf} {q : Queue} (inv : Inv s done ((m, b :: rest) :: q)) :
    Balanced Event.takes Event.gives (s.log ++ [.freedPbuf b.id])
      (.msg m :: (pbufItems rest ++ items q)) := by
  have swapped : Balanced Event.takes Event.gives s.log
      ([Event.freedPbuf b.id].filterMap Event.gives ++ .msg m :: (pbufItems rest ++ items q)) :=
    inv.balanced.perm (List.Perm.swap _ _ _)
  exact swapped.give rfl

/-- A pbuf that is not the last one of its message is finished. -/
theorem Inv.pbuf {s : Stack} {done : List Pbuf} {m : MsgId} {b : Pbuf} {rest : List Pbuf}
    {q : Queue} (inv : Inv s done ((m, b :: rest) :: q)) {len : Nat}
    (all : s.conn.writeOffset + len = b.payload.length) (more : rest ≠ []) :
    Inv ((s.pass b len).finishPbuf m b rest) (done ++ [b]) ((m, rest) :: q) where
  linked :=
    have shorter : Linked (s.setP m rest) ((m, rest) :: q) := inv.linked.setP
    shorter.congr rfl rfl rfl
  original := by
    show s.arrived.drop s.left = _
    rw [inv.original]
    simp [restore]
  left_le := inv.left_le
  current := fun _ => inv.current (by simp)
  busy := fun _ => inv.busy (by simp)
  idle := fun none => absurd none (by simp)
  offset := .inl rfl
  started := by
    intro none
    cases rest with
    | nil => exact absurd rfl more
    | cons c rest => simp [firstPbuf] at none
  sent := by
    show (s.pass b len).sent = _
    rw [inv.sent_pbuf all]
    show _ = stream (s.arrived.take s.left) ++ _ ++ List.take 0 _
    rw [List.take_zero, List.append_nil]
  balanced := inv.balanced_pbuf

/-- A message of which all pbufs are written leaves the queue. -/
theorem finishMsg_inv {t : Stack} {m : MsgId} {p : List Pbuf} {q : Queue}
    (linked : Linked t ((m, []) :: q)) (original : t.arrived.drop t.left = (m, p) :: q)
    (current : t.conn.currentMsg = some m)
    (busy : t.conn.state = .write ∧ t.conn.privateData = true)
    (sent : t.sent = stream (t.arrived.take t.left) ++ bytes p)
    (balanced : Balanced Event.takes Event.gives t.log (.msg m :: items q)) :
    Inv (finishMsg t).2 [] q ∧ Kept t (finishMsg t).2 ∧ (q = [] → Idle (finishMsg t).2) ∧
      (finishMsg t).2.conn.writeOffset = 0 ∧
      ((finishMsg t).1 = .stop ∧ firstPbuf q = none ∨ ∃ m' b rest q', q = (m', b :: rest) :: q' ∧
        (finishMsg t).1 = .again m') := by
  have inside : t.left < t.arrived.length := by
    by_contra beyond
    rw [List.drop_eq_nil_of_le (by omega)] at original
    cases original
  have here : t.arrived[t.left]? = some (m, p) := by
    rw [← List.head?_drop, original]
    rfl
  have later : t.arrived.drop (t.left + 1) = q := by
    rw [← List.tail_drop, original]
    rfl
  have all : t.sent = stream (t.arrived.take (t.left + 1)) := by
    rw [sent, List.take_add_one, here]
    simp [stream]
  have freed : Balanced Event.takes Event.gives (t.log ++ [.freedMsg m]) (items q) := by
    have first : Balanced Event.takes Event.gives t.log
        ([Event.freedMsg m].filterMap Event.gives ++ items q) := balanced
    exact first.give rfl
  have next : (t.msgs m).next = (ids q).head? := linked.chained.1
  have head : t.conn.msgHead = some m := linked.head
  cases q with
  | nil =>
    have result : finishMsg t = (.stop, { t with
        conn := { t.conn with
          msgHead := none, msgTail := none, currentMsg := none, state := .none, writeOffset := 0 }
        left := t.left + 1
        log := t.log ++ [.freedMsg m] }) := by
      simp [finishMsg, Stack.setOffset, Stack.freeMsg, head, next, current, ids]
    rw [result]
    refine ⟨⟨⟨rfl, rfl, trivial, List.nodup_nil, fun e mem => absurd mem (by simp)⟩, later, inside,
      fun none => absurd rfl none, fun none => absurd rfl none, fun _ _ => rfl, .inl rfl,
      fun _ => rfl, ?_, freed⟩,
      ⟨rfl, rfl, rfl, rfl, rfl⟩, fun _ => ⟨rfl, rfl⟩, rfl, .inl ⟨rfl, rfl⟩⟩
    simpa [firstPbuf, bytes] using all
  | cons e q =>
    obtain ⟨m', p'⟩ := e
    have result : finishMsg t = (if p'.isEmpty then .stop else .again m', { t with
        conn := { t.conn with msgHead := some m', currentMsg := some m', writeOffset := 0 }
        left := t.left + 1
        log := t.log ++ [.freedMsg m] }) := by
      have second : (t.msgs m').p = p' := linked.pbufs (m', p') (by simp)
      simp [finishMsg, Stack.setOffset, Stack.freeMsg, head, next, current, ids, second]
      split <;> rfl
    rw [result]
    refine ⟨?_, ⟨rfl, rfl, rfl, rfl, rfl⟩, fun none => absurd none (by simp), rfl, ?_⟩
    · exact {
        linked := {
          head := rfl
          tail := by
            show t.conn.msgTail = _
            rw [linked.tail]
            simp [ids]
          chained := linked.chained.2
          nodup := (List.nodup_cons.mp linked.nodup).2
          pbufs := fun e mem => linked.pbufs e (List.mem_cons_of_mem _ mem) }
        original := later
        left_le := inside
        current := fun _ => rfl
        busy := fun _ => busy
        idle := fun none => absurd none (by simp)
        offset := .inl rfl
        started := fun _ => rfl
        sent := by
          show t.sent = _
          rw [all]
          simp [bytes]
        balanced := freed }
    · cases p' with
      | nil => exact .inl ⟨rfl, rfl⟩
      | cons b rest => exact .inr ⟨m', b, rest, q, rfl, rfl⟩

/-- Where a turn leads from a queue: the loop goes on with less to do, or the call ends. -/
inductive TurnInv (lwip : Lwip) (n : Nat) (s : Stack) (q : Queue) : Next × Stack → Prop
  | again {t : Stack} {done : List Pbuf} {m : MsgId} {b : Pbuf} {rest : List Pbuf} {q' : Queue}
      (inv : Inv t done ((m, b :: rest) :: q')) (kept : Kept s t)
      (less : work ((m, b :: rest) :: q') + s.conn.writeOffset < work q + t.conn.writeOffset) :
      TurnInv lwip n s q (.again m, t)
  | stop {t : Stack} {done : List Pbuf} {q' : Queue} (inv : Inv t done q') (kept : Kept s t)
      (idle : q' = [] → Idle t) : TurnInv lwip n s q (.stop, t)
  | aborted (notOk : lwip.write n ≠ errOk) (notMem : lwip.write n ≠ errMem) :
      TurnInv lwip n s q (.stop, splErrTcp lwip errAbrt (s.setOffset 0))

/-- A turn keeps the invariant, unless it aborts the connection. -/
theorem turn_inv (lwip : Lwip) (n : Nat) {s : Stack} {done : List Pbuf} {m : MsgId} {b : Pbuf}
    {rest : List Pbuf} {q : Queue} (inv : Inv s done ((m, b :: rest) :: q)) :
    TurnInv lwip n s ((m, b :: rest) :: q) (turn lwip n m s) := by
  have has : (s.msgs m).p = b :: rest := inv.linked.pbufs (m, b :: rest) (by simp)
  have inside : s.conn.writeOffset = 0 ∨ s.conn.writeOffset < b.payload.length := by
    cases inv.offset with
    | inl zero => exact .inl zero
    | inr inside =>
      obtain ⟨c, first, less⟩ := inside
      cases first
      exact .inr less
  have result := turn_result lwip n has inside
  revert result
  generalize turn lwip n m s = next
  intro result
  cases result with
  | blocked => exact .stop inv (.refl s) fun none => absurd none (by simp)
  | part len positive short =>
    refine .again (inv.part short) ⟨rfl, rfl, rfl, rfl, rfl⟩ ?_
    show _ + s.conn.writeOffset < _ + (s.conn.writeOffset + len)
    omega
  | pbuf len all more =>
    have finished := inv.pbuf all more
    cases rest with
    | nil => exact absurd rfl more
    | cons c rest =>
      refine .again finished ⟨rfl, rfl, rfl, rfl, rfl⟩ ?_
      show work ((m, c :: rest) :: q) + s.conn.writeOffset < work ((m, b :: c :: rest) :: q) + 0
      simp only [work, turns, List.map_cons, List.sum_cons]
      omega
  | msg len all last =>
    subst last
    have emptied : Linked (s.setP m []) ((m, []) :: q) := inv.linked.setP
    have finished := @finishMsg_inv ((s.pass b len).finishPbuf m b []) m (done ++ [b]) q
      (emptied.congr rfl rfl rfl) inv.original (inv.current (by simp)) (inv.busy (by simp))
      (inv.sent_pbuf all) inv.balanced_pbuf
    revert finished
    generalize finishMsg ((s.pass b len).finishPbuf m b []) = next
    rintro ⟨kept, same, idle, offset, ends⟩
    obtain ⟨next, t⟩ := next
    have first : Kept s ((s.pass b len).finishPbuf m b []) := ⟨rfl, rfl, rfl, rfl, rfl⟩
    have whole : Kept s t := first.trans same
    cases ends with
    | inl stop =>
      cases stop.1
      exact .stop kept whole idle
    | inr again =>
      obtain ⟨m', c, rest, q', rfl, more⟩ := again
      cases more
      refine .again kept whole ?_
      have zero : t.conn.writeOffset = 0 := offset
      rw [zero]
      simp only [work, turns, List.map_cons, List.sum_cons, List.map_nil, List.sum_nil]
      omega
  | aborted notOk notMem => exact .aborted notOk notMem

/-! ## The loop -/

/-- Where a call of `do_writemore` leads. -/
inductive CallInv (lwip : Lwip) (s : Stack) : Stack → Prop
  | kept {t : Stack} {done : List Pbuf} {q : Queue} (inv : Inv t done q) (kept : Kept s t)
      (idle : q = [] → Idle t) : CallInv lwip s t
  /-- The connection is aborted with something left. -/
  | aborted {t : Stack} {done : List Pbuf} {q : Queue} (n : Nat) (inv : Inv t done q)
      (some : q ≠ []) (kept : Kept s t) (notOk : lwip.write n ≠ errOk)
      (notMem : lwip.write n ≠ errMem) :
      CallInv lwip s (splErrTcp lwip errAbrt (t.setOffset 0))

/-- The loop ends, and keeps the invariant. -/
theorem writeLoop_inv (lwip : Lwip) {fuel n : Nat} {s : Stack} {done : List Pbuf} {m : MsgId}
    {b : Pbuf} {rest : List Pbuf} {q : Queue} (inv : Inv s done ((m, b :: rest) :: q))
    (enough : work ((m, b :: rest) :: q) < fuel + s.conn.writeOffset) :
    ∃ t, writeLoop lwip fuel n m s = some t ∧ CallInv lwip s t := by
  induction fuel generalizing n s done m b rest q with
  | zero =>
    -- the offset is inside the first pbuf
    have inside : s.conn.writeOffset ≤ b.payload.length := by
      cases inv.offset with
      | inl zero => omega
      | inr inside =>
        obtain ⟨c, first, less⟩ := inside
        cases first
        omega
    simp only [work, turns, List.map_cons, List.sum_cons] at enough
    omega
  | succ fuel ih =>
    have result := turn_inv lwip n inv
    unfold writeLoop
    revert result
    generalize turn lwip n m s = next
    intro result
    cases result with
    | again next kept less =>
      obtain ⟨t, done, call⟩ := ih (n := n + 1) next (by omega)
      refine ⟨t, done, ?_⟩
      cases call with
      | kept inv same idle => exact .kept inv (kept.trans same) idle
      | aborted n inv some same notOk notMem =>
        exact .aborted n inv some (kept.trans same) notOk notMem
    | stop next kept idle => exact ⟨_, rfl, .kept next kept idle⟩
    | aborted notOk notMem =>
      exact ⟨_, rfl, .aborted n inv (by simp) (.refl s) notOk notMem⟩

/-- What is left is not more than what has arrived. -/
theorem Inv.work_lt_bound {s : Stack} {done : List Pbuf} {q : Queue} (inv : Inv s done q) :
    work q < s.bound := by
  have left : work q ≤ work (s.arrived.drop s.left) := by
    rw [inv.original]
    cases q with
    | nil => exact Nat.le_refl _
    | cons e q =>
      simp only [restore, work, turns, List.map_cons, List.map_append, List.sum_cons,
        List.sum_append]
      omega
  have all : work (s.arrived.take s.left) + work (s.arrived.drop s.left) = work s.arrived := by
    unfold work
    rw [← List.sum_append, ← List.map_append, List.take_append_drop]
  show work q < work s.arrived + 1
  omega

/-- `do_writemore` returns, and keeps the invariant. -/
theorem doWritemore_inv (lwip : Lwip) {s : Stack} {done : List Pbuf} {q : Queue}
    (inv : Inv s done q) :
    ∃ t, doWritemore lwip s = some t ∧ (t = s ∨ CallInv lwip s t) := by
  unfold doWritemore
  split
  case isFalse => exact ⟨s, rfl, .inl rfl⟩
  case isTrue writing =>
    cases q with
    | nil =>
      rw [inv.idle rfl writing.2]
      exact ⟨s, rfl, .inl rfl⟩
    | cons e q =>
      obtain ⟨m, p⟩ := e
      have current : s.conn.currentMsg = some m := inv.current (by simp)
      have enough := inv.work_lt_bound
      rw [current]
      cases p with
      | nil =>
        have none : (s.msgs m).p = [] := inv.linked.pbufs (m, []) (by simp)
        have stops : turn lwip 0 m s = (.stop, s) := by simp [turn, none]
        refine ⟨s, ?_, .inl rfl⟩
        show writeLoop lwip ((s.arrived.map fun m => turns m.2).sum + 1) 0 m s = some s
        rw [writeLoop, stops]
      | cons b rest =>
        obtain ⟨t, ended, call⟩ := writeLoop_inv lwip (n := 0) inv
          (show _ < s.bound + s.conn.writeOffset by omega)
        exact ⟨t, ended, .inr call⟩

/-! ## Arrival -/

theorem firstPbuf_append {q : Queue} (some : q ≠ []) (more : Queue) :
    firstPbuf (q ++ more) = firstPbuf q := by
  cases q with
  | nil => exact absurd rfl some
  | cons e q =>
    obtain ⟨m, p⟩ := e
    cases p with
    | nil => rfl
    | cons b rest => rfl

theorem restore_append {done : List Pbuf} {q : Queue} (some : q ≠ []) (more : Queue) :
    restore done (q ++ more) = restore done q ++ more := by
  cases q with
  | nil => exact absurd rfl some
  | cons e q => rfl

theorem Balanced.receive {log : List Event} {held : List Item}
    (balanced : Balanced Event.takes Event.gives log held) (m : MsgId) (p : List Pbuf) :
    Balanced Event.takes Event.gives (log ++ .postedMsg m :: p.map fun q => .postedPbuf q.id)
      (held ++ .msg m :: pbufItems p) := by
  have given : (Event.postedMsg m :: p.map fun q => Event.postedPbuf q.id).filterMap Event.gives =
      [] := by
    simp [List.filterMap_cons, Event.gives, List.filterMap_eq_nil_iff]
  have taken : (Event.postedMsg m :: p.map fun q => Event.postedPbuf q.id).filterMap Event.takes =
      .msg m :: pbufItems p := by
    simp [Event.takes, pbufItems, List.filterMap_map, Function.comp_def]
  rw [← taken]
  exact balanced.take given

/-- The state in which a message is linked behind the last one. -/
def Stack.enqueue (s : Stack) (m tail : MsgId) : Stack :=
  let s := ((s.setNext m none).setNext tail (some m)).arrive m
  { s with conn := { s.conn with msgTail := some m } }

/-- The state in which a message is the only one. -/
def Stack.first (s : Stack) (m : MsgId) : Stack :=
  let s := { s with conn := { s.conn with state := .write } }
  let s := (s.setNext m none).arrive m
  { s with conn := { s.conn with currentMsg := some m, msgHead := some m, msgTail := some m } }

/-- A message behind the last one. -/
theorem Linked.enqueue {s : Stack} {q : Queue} {m tail : MsgId} {msg : Msg}
    (linked : Linked s q) (last : (ids q).getLast? = some tail) (fresh : m ∉ ids q) :
    Linked ((s.receive m msg).enqueue m tail) (q ++ [(m, msg.p)]) := by
  have mem : tail ∈ ids q := List.mem_of_getLast? last
  have apart : m ≠ tail := fun same => fresh (same ▸ mem)
  have some : q ≠ [] := by
    rintro rfl
    cases last
  have other (m' : MsgId) (inside : m' ∈ ids q) :
      (((s.receive m msg).enqueue m tail).msgs m').p = (s.msgs m').p := by
    have notNew : m' ≠ m := fun same => fresh (same ▸ inside)
    by_cases isTail : m' = tail
    · subst isTail
      simp [Stack.enqueue, Stack.arrive, Stack.setNext, Stack.receive, notNew]
    · simp [Stack.enqueue, Stack.arrive, Stack.setNext, Stack.receive, notNew, isTail]
  refine ⟨?_, ?_, ?_, ?_, ?_⟩
  · show s.conn.msgHead = _
    rw [linked.head]
    cases q with
    | nil => exact absurd rfl some
    | cons e q => rfl
  · simp [Stack.enqueue, ids]
  · rw [ids, List.map_append]
    apply linked.chained.append linked.nodup
    · intro m' is
      obtain rfl := Option.some.inj (last.symm.trans is)
      simp [Stack.enqueue, Stack.arrive, Stack.setNext]
    · simp [Stack.enqueue, Stack.arrive, Stack.setNext, Stack.receive, apart]
    · intro m' inside notTail
      have notNew : m' ≠ m := fun same => fresh (same ▸ inside)
      have isTail : m' ≠ tail := fun same => notTail (same ▸ last)
      simp [Stack.enqueue, Stack.arrive, Stack.setNext, Stack.receive, notNew, isTail]
  · rw [ids, List.map_append, List.nodup_append_comm]
    exact List.nodup_cons.mpr ⟨fresh, linked.nodup⟩
  · intro e mem
    cases List.mem_append.mp mem with
    | inl old =>
      rw [other e.1 (List.mem_map_of_mem old)]
      exact linked.pbufs e old
    | inr new =>
      rw [List.mem_singleton.mp new]
      simp [Stack.enqueue, Stack.arrive, Stack.setNext, Stack.receive, apart]

theorem Stack.enqueue_arrived (s : Stack) {m tail : MsgId} (apart : m ≠ tail) (msg : Msg) :
    ((s.receive m msg).enqueue m tail).arrived = s.arrived ++ [(m, msg.p)] := by
  simp [enqueue, arrive, setNext, receive, apart]

/-- A message arrives behind others. -/
theorem Inv.enqueue {s : Stack} {done : List Pbuf} {q : Queue} (inv : Inv s done q)
    {m tail : MsgId} (last : (ids q).getLast? = some tail) (fresh : m ∉ ids q) (msg : Msg) :
    Inv ((s.receive m msg).enqueue m tail) done (q ++ [(m, msg.p)]) := by
  have apart : m ≠ tail := fun same => fresh (same ▸ List.mem_of_getLast? last)
  have some : q ≠ [] := by
    rintro rfl
    cases last
  have arrived := s.enqueue_arrived apart msg
  have first := firstPbuf_append some [(m, msg.p)]
  exact {
    linked := inv.linked.enqueue last fresh
    original := by
      rw [arrived, restore_append some, ← inv.original]
      exact List.drop_append_of_le_length inv.left_le
    left_le := by
      rw [arrived, List.length_append]
      exact Nat.le_add_right_of_le inv.left_le
    current := by
      intro _
      show s.conn.currentMsg = _
      rw [inv.current some]
      cases q with
      | nil => exact absurd rfl some
      | cons e q => rfl
    busy := fun _ => inv.busy some
    idle := fun none => absurd none (by simp)
    offset := by
      rw [first]
      exact inv.offset
    started := by
      rw [first]
      exact inv.started
    sent := by
      have taken : (s.arrived ++ [(m, msg.p)]).take s.left = s.arrived.take s.left :=
        List.take_append_of_le_length inv.left_le
      rw [first, arrived]
      show s.sent = stream ((s.arrived ++ [(m, msg.p)]).take s.left) ++ _ ++ _
      rw [taken]
      exact inv.sent
    balanced := by
      have more := Balanced.receive inv.balanced m msg.p
      have all : items (q ++ [(m, msg.p)]) = items q ++ .msg m :: pbufItems msg.p := by
        simp [items]
      rw [all]
      exact more }

/-- A message arrives at a connection with nothing to write. -/
theorem Inv.first {s : Stack} {done : List Pbuf} (inv : Inv s done [])
    (pcb : s.conn.privateData = true) (m : MsgId) (msg : Msg) :
    Inv ((s.receive m msg).first m) [] [(m, msg.p)] := by
  have nothing : s.left = s.arrived.length := by
    have none := List.drop_eq_nil_iff.mp inv.original
    have le := inv.left_le
    omega
  have offset : s.conn.writeOffset = 0 := by
    cases inv.offset with
    | inl zero => exact zero
    | inr inside =>
      obtain ⟨b, none, _⟩ := inside
      cases none
  have arrived : ((s.receive m msg).first m).arrived = s.arrived ++ [(m, msg.p)] := by
    simp [Stack.first, Stack.arrive, Stack.setNext, Stack.receive]
  exact {
    linked := {
      head := rfl
      tail := rfl
      chained := by simp [Chained, ids, Stack.first, Stack.arrive, Stack.setNext]
      nodup := List.nodup_singleton m
      pbufs := by
        intro e mem
        rw [List.mem_singleton.mp mem]
        simp [Stack.first, Stack.arrive, Stack.setNext, Stack.receive] }
    original := by
      rw [arrived]
      show (s.arrived ++ [(m, msg.p)]).drop s.left = _
      rw [nothing, List.drop_left]
      rfl
    left_le := by
      rw [arrived, List.length_append]
      exact Nat.le_add_right_of_le inv.left_le
    current := fun _ => rfl
    busy := fun _ => ⟨rfl, pcb⟩
    idle := fun none => absurd none (by simp)
    offset := .inl offset
    started := fun _ => rfl
    sent := by
      have sent := inv.sent
      have done := inv.started rfl
      rw [arrived]
      show s.sent = stream ((s.arrived ++ [(m, msg.p)]).take s.left) ++ _ ++
        List.take s.conn.writeOffset _
      rw [List.take_append_of_le_length inv.left_le, sent, done, offset, List.take_zero,
        List.take_zero]
    balanced := by
      have more := Balanced.receive inv.balanced m msg.p
      have all : items [(m, msg.p)] = items [] ++ .msg m :: pbufItems msg.p := by
        simp [items]
      rw [all]
      exact more }

/-- What `_do_write` does with a message. -/
inductive WriteResult (lwip : Lwip) (s : Stack) (q : Queue) (m : MsgId) (msg : Msg) :
    Option Stack → Prop
  | dropped (refused : s.conn.privateData = false ∨ splErrIsFatal s.conn.lastErr ∨
      q = [] ∧ (s.conn.currentMsg ≠ none ∨ s.conn.state ≠ .none)) :
      WriteResult lwip s q m msg (some (dropWrite m (s.receive m msg)))
  /-- A message without a length is dropped, and the connection stays in state
  `SPL_NETCONN_WRITE`. -/
  | empty (zero : msg.len = 0) (nothing : q = []) (current : s.conn.currentMsg = none) :
      WriteResult lwip s q m msg (some (dropWrite m
        { s.receive m msg with conn := { s.conn with state := .write } }))
  | enqueued (tail : MsgId) (last : (ids q).getLast? = some tail) :
      WriteResult lwip s q m msg (doWritemore lwip ((s.receive m msg).enqueue m tail))
  | first (nothing : q = []) (pcb : s.conn.privateData = true) (len : msg.len ≠ 0) :
      WriteResult lwip s q m msg (doWritemore lwip ((s.receive m msg).first m))

/-- `_do_write` does one of these. -/
theorem doWriteMsg_result (lwip : Lwip) {s : Stack} {done : List Pbuf} {q : Queue}
    (inv : Inv s done q) (m : MsgId) (msg : Msg) :
    WriteResult lwip s q m msg (doWriteMsg lwip m (s.receive m msg)) := by
  have head : (s.receive m msg).conn = s.conn := rfl
  unfold doWriteMsg doWrite
  rw [head]
  by_cases pcb : s.conn.privateData = true
  swap
  · rw [if_neg pcb]
    exact .dropped (.inl (by simpa using pcb))
  rw [if_pos pcb]
  split
  case isTrue fatal => exact .dropped (.inr (.inl fatal.1))
  cases q with
  | cons e q =>
    have current : s.conn.currentMsg ≠ none := by
      rw [inv.current (by simp)]
      simp [ids]
    have first : s.conn.msgHead = some e.1 := inv.linked.head
    have last : s.conn.msgTail = (ids (e :: q)).getLast? := inv.linked.tail
    rw [if_pos current, first]
    cases tail : s.conn.msgTail with
    | none =>
      rw [tail] at last
      exact absurd last.symm (by simp [ids])
    | some tail' => exact .enqueued tail' (last.symm.trans tail)
  | nil =>
    have first : s.conn.msgHead = none := inv.linked.head
    have offset : s.conn.writeOffset = 0 := by
      cases inv.offset with
      | inl zero => exact zero
      | inr inside =>
        obtain ⟨b, none, _⟩ := inside
        cases none
    by_cases current : s.conn.currentMsg ≠ none
    · rw [if_pos current, first]
      exact .dropped (.inr (.inr ⟨rfl, .inl current⟩))
    rw [if_neg current]
    by_cases state : s.conn.state ≠ .none
    · rw [if_pos state]
      exact .dropped (.inr (.inr ⟨rfl, .inr state⟩))
    have stored : ((s.receive m msg).msgs m).len = msg.len := by simp [Stack.receive]
    have atStart : ¬ s.conn.writeOffset ≠ 0 := not_not.mpr offset
    rw [if_neg state]
    dsimp only
    rw [if_neg atStart]
    by_cases zero : msg.len = 0
    · rw [if_pos (stored.trans zero)]
      exact .empty zero rfl (not_not.mp current)
    · rw [if_neg (fun none => zero (stored.symm.trans none))]
      exact .first rfl pcb zero

end Dmm.Tcp
