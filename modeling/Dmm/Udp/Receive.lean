import Dmm.Lib.Run
import Dmm.Netconn.RecvCallback

/-!
# Receiving on a UDP socket

`recvfrom`, `recvmsg` and `readv` take a datagram from the receive ring into `lastdata`, copy it,
and unless they only peek put its buffer on the recoder list, which is handed over to the stack in
one message when a large buffer or many are on it. `recvmsg` and `readv` first peek with
`_sbr_udp_recvfrom`, without the flags of the call.

The stack puts a datagram on the ring before it adds to `rcvevent`.
-/

namespace Dmm.Udp.Receive

open Netconn

/-! ## Calls -/

/-- A received datagram: its number, and the payloads of its pbufs. -/
structure Datagram where
  id : Nat
  chain : List (List UInt8)
  deriving DecidableEq, Repr

/-- The bytes of a datagram. -/
def Datagram.data (d : Datagram) : List UInt8 := d.chain.flatten

/-- What a call finds: the state of the connection (its nonblocking flag, a fatal error, has it a
ring, `shut_rd`, `can_not_recv`, `recv_timeout`), is the sender's address stored, is there a message
for the buffers, and is it posted. -/
structure Env where
  nonblock : Bool
  fatal : Bool
  valid : Bool
  shutRd : Bool
  canNotRecv : Bool
  timeout : Int
  address : Bool
  attaches : Bool
  posts : Bool
  deriving DecidableEq, Repr

/-- `MSG_PEEK` and `MSG_DONTWAIT` -/
structure Flags where
  peek : Bool
  dontwait : Bool
  deriving DecidableEq, Repr

/-- A call: `none` for a null pointer. -/
inductive Call
  | recvfrom (mem : Option Nat) (flags : Flags)
  | recvmsg (iov : List (Option Nat)) (flags : Flags)
  | readv (iov : List (Option Nat))
  deriving DecidableEq, Repr

/-- How a call ends; one that `waits` for data goes on when there are some. -/
inductive Reply
  | waits
  | fails
  | got (bytes : List UInt8)
  deriving DecidableEq, Repr

/-- A socket; `messages` are the `SPL_API_DO_PBUF_FREE` messages, `consumed` the datagrams received
without `MSG_PEEK`. -/
structure State where
  ring : List Datagram
  rcvevent : Int
  /-- Datagrams on the ring that are not counted yet. -/
  uncounted : Nat
  lastdata : Option Datagram
  recoder : List Nat
  messages : List (List Nat)
  arrived : Nat
  consumed : List Nat
  deriving DecidableEq, Repr

/-- `sbr_dequeue_buf` and `sbr_udp_recv_from_ring`, into `lastdata`. -/
def recvFromRing (e : Env) (s : State) : Reply × State :=
  if e.valid = false ∨ e.shutRd = true then (.fails, s)
  else
    match s.ring with
    | d :: rest => (.got [],
      { s with ring := rest, rcvevent := s.rcvevent - 1, lastdata := some d })
    | [] =>
      if e.canNotRecv = true ∨ e.fatal = true ∨ e.timeout < 0 then (.fails, s) else (.waits, s)

/-- The first part of `_sbr_udp_recvfrom`, until there is a buffer in `lastdata`. -/
def takeBuf (e : Env) (dontwait : Bool) (s : State) : Reply × State :=
  if s.lastdata.isSome then (.got [], s)
  else if (dontwait || e.nonblock) && (e.fatal || s.rcvevent ≤ 0) then (.fails, s)
  else recvFromRing e s

/-- `MAX_RECV_FREE_LEN` and `MAX_RECV_FREE_BUF` -/
def maxRecvFreeLen : Nat := 1500 - 20

@[inherit_doc maxRecvFreeLen]
def maxRecvFreeBuf : Nat := 32

/-- `sbr_handle_free_recv_buf`: a message that is not posted is freed. -/
def handleFreeRecvBuf (e : Env) (s : State) : State :=
  if e.attaches = false then s
  else { s with
    recoder := []
    messages := if e.posts then s.messages ++ [s.recoder] else s.messages }

/-- `lastdata` is cleared, and `sbr_com_free_recv_buf`. -/
def comFreeRecvBuf (e : Env) (d : Datagram) (s : State) : State :=
  let s := { s with
    lastdata := none, recoder := s.recoder ++ [d.id], consumed := s.consumed ++ [d.id] }
  if maxRecvFreeLen < d.data.length ∨ maxRecvFreeBuf ≤ s.recoder.length then handleFreeRecvBuf e s
  else s

/-- `_sbr_udp_recvfrom` -/
def sbrUdpRecvfrom (e : Env) (mem : Option Nat) (flags : Flags) (s : State) : Reply × State :=
  match takeBuf e flags.dontwait s with
  | (.got _, s) =>
    match s.lastdata with
    | none => (.fails, s)
    | some d =>
      let copyLen := min (mem.getD 0) d.data.length
      let bytes := splPbufCopyPartial d.chain copyLen 0
      if 0 < copyLen ∧ bytes.length = 0 then (.fails, s)
      else if e.address = false then (.fails, s)
      else (.got bytes, if flags.peek then s else comFreeRecvBuf e d s)
  | other => other

/-- The loop of `sbr_udp_recvdata` over the entries: the bytes it copies. -/
def copyEntries (chain : List (List UInt8)) :
    List (Option Nat) → (buflen offset : Nat) → List UInt8
  | [], _, _ => []
  | none :: iov, buflen, offset => copyEntries chain iov buflen offset
  | some len :: iov, buflen, offset =>
    if len = 0 then copyEntries chain iov buflen offset
    else
      let copyLen := min buflen len
      let bytes := splPbufCopyPartial chain copyLen offset
      if 0 < copyLen ∧ bytes.length = 0 then []
      else if buflen - copyLen = 0 then bytes
      else bytes ++ copyEntries chain iov (buflen - copyLen) (offset + copyLen)

/-- `sbr_udp_recvdata` -/
def sbrUdpRecvdata (e : Env) (iov : List (Option Nat)) (flags : Flags) (s : State) :
    Reply × State :=
  match sbrUdpRecvfrom e none ⟨true, false⟩ s with
  | (.got _, s) =>
    match s.lastdata with
    | none => (.fails, s)
    | some d =>
      (.got (copyEntries d.chain iov d.data.length 0),
        if flags.peek then s else comFreeRecvBuf e d s)
  | other => other

/-- A call. -/
def call (e : Env) (s : State) : Call → Reply × State
  | .recvfrom mem flags => sbrUdpRecvfrom e mem flags s
  | .recvmsg iov flags => sbrUdpRecvdata e iov flags s
  | .readv iov => sbrUdpRecvdata e iov ⟨false, false⟩ s

/-- The flags of a call. -/
def Call.flags : Call → Flags
  | .recvfrom _ flags | .recvmsg _ flags => flags
  | .readv _ => ⟨false, false⟩

/-- The buffer space of a call. -/
def Call.space : Call → Nat
  | .recvfrom mem _ => mem.getD 0
  | .recvmsg iov _ | .readv iov => (iov.map fun len => len.getD 0).sum

/-- Does the flag `MSG_DONTWAIT` reach `_sbr_udp_recvfrom`. -/
def Call.passes : Call → Bool
  | .recvfrom _ flags => flags.dontwait
  | _ => false

/-! ## Runs -/

/-- What happens. -/
inductive Action
  /-- A datagram is put on the ring, and later counted. -/
  | arrive (chain : List (List UInt8))
  | count
  | call (e : Env) (c : Call)
  deriving DecidableEq, Repr

/-- One step. -/
def act (s : State) : Action → Option State
  | .arrive chain => some { s with
      ring := s.ring ++ [⟨s.arrived, chain⟩]
      uncounted := s.uncounted + 1
      arrived := s.arrived + 1 }
  | .count =>
    if 0 < s.uncounted then
      some { s with rcvevent := s.rcvevent + 1, uncounted := s.uncounted - 1 }
    else none
  | .call e c => some (call e s c).2

/-- Nothing has arrived. -/
def start : State := ⟨[], 0, 0, none, [], [], 0, []⟩

/-- The datagrams that are not consumed, oldest first. -/
def State.waiting (s : State) : List Datagram := s.lastdata.toList ++ s.ring

/-- A consumed buffer is in one message, or on the recoder list. -/
def Accounted (s : State) : Prop := s.messages.flatten ++ s.recoder = s.consumed

/-- What a step should do: a call that succeeds gets the first bytes of the oldest datagram, as many
as there is space for, and consumes that unless it peeks; one with `MSG_DONTWAIT` does not wait. -/
def Right (s : State) : Action → Prop
  | .call e c =>
    (∀ bytes, (call e s c).1 = .got bytes → ∃ d rest, s.waiting = d :: rest ∧
      bytes = d.data.take c.space ∧ bytes.length = min c.space d.data.length ∧
      (call e s c).2.consumed = (if c.flags.peek then s.consumed else s.consumed ++ [d.id]) ∧
      (call e s c).2.waiting = if c.flags.peek then s.waiting else rest) ∧
    (c.flags.dontwait = true → (call e s c).1 ≠ .waits)
  | _ => True

/-- A call gets a buffer. -/
def Obtains (s : State) (e : Env) (c : Call) : Prop :=
  s.lastdata ≠ none ∨ s.ring ≠ [] ∧ e.valid = true ∧ e.shutRd = false ∧
    ((c.passes || e.nonblock) = true → e.fatal = false ∧ 0 < s.rcvevent)

/-- A call does not wait for a buffer on an empty ring. -/
def Refuses (s : State) (e : Env) (c : Call) : Prop :=
  c.passes = false → e.nonblock = false → s.waiting = [] → e.valid = true → e.shutRd = false →
    e.canNotRecv = true ∨ e.fatal = true ∨ e.timeout < 0

/-- A `recvmsg` with `MSG_DONTWAIT` does not come to an empty ring on which `sbr_dequeue_buf` waits;
and a message for the recoder list is posted. -/
def Meets (s : State) : Action → Prop
  | .call e c =>
    (c.flags.dontwait = true → Refuses s e c) ∧
    (Obtains s e c → e.address = true → c.flags.peek = false → e.attaches = true →
      (∀ d ∈ s.waiting.head?, maxRecvFreeLen < d.data.length ∨
        maxRecvFreeBuf ≤ s.recoder.length + 1) → e.posts = true)
  | _ => True

/-- The datagrams are numbered in order, the events count the ring, and no buffer is lost. -/
structure Inv (s : State) : Prop where
  order : s.consumed ++ s.waiting.map Datagram.id = List.range s.arrived
  events : s.rcvevent + s.uncounted = s.ring.length
  accounted : Accounted s

/-! ## One call -/

/-- The loop over the entries copies the rest of the chain, as far as there is space. -/
theorem copyEntries_eq (chain : List (List UInt8)) (iov : List (Option Nat)) (offset : Nat) :
    copyEntries chain iov (chain.flatten.length - offset) offset =
      (chain.flatten.drop offset).take (iov.map fun len => len.getD 0).sum := by
  induction iov generalizing offset with
  | nil => simp [copyEntries]
  | cons entry iov ih =>
    cases entry with
    | none => simpa [copyEntries] using ih offset
    | some len =>
      rw [copyEntries]
      have length : ((chain.flatten.drop offset).take
          (min (chain.flatten.length - offset) len)).length =
          min (chain.flatten.length - offset) len := by
        rw [List.length_take, List.length_drop]
        omega
      simp only [splPbufCopyPartial_eq, length, List.map_cons, Option.getD_some, List.sum_cons]
      split_ifs with zero none_ all
      · rw [zero, Nat.zero_add]
        exact ih offset
      · omega
      · rw [List.take_of_length_le (by rw [List.length_drop]; omega),
          List.take_of_length_le (by rw [List.length_drop]; omega)]
      · have short : min (chain.flatten.length - offset) len = len := by omega
        have next := ih (offset + len)
        rw [show chain.flatten.length - (offset + len) =
          chain.flatten.length - offset - len by omega]
          at next
        rw [short, next, ← List.drop_drop, List.take_add]

/-- The oldest datagram was taken into `lastdata`. -/
structure Took (s t : State) (d : Datagram) : Prop where
  lastdata : t.lastdata = some d
  waiting : s.waiting = d :: t.ring
  events : t.rcvevent + t.uncounted = t.ring.length
  recoder : t.recoder = s.recoder
  messages : t.messages = s.messages
  arrived : t.arrived = s.arrived
  consumed : t.consumed = s.consumed

/-- A buffer is taken, or the call fails or waits and nothing changes. -/
theorem takeBuf_cases {e : Env} {s : State} (events : s.rcvevent + s.uncounted = s.ring.length)
    (c : Call) :
    (Obtains s e c ∧ ∃ d t, takeBuf e c.passes s = (.got [], t) ∧ Took s t d) ∨
    (¬Obtains s e c ∧ takeBuf e c.passes s = (.fails, s) ∧ Refuses s e c) ∨
    (¬Obtains s e c ∧ takeBuf e c.passes s = (.waits, s) ∧ c.passes = false ∧ e.nonblock = false ∧
      s.waiting = [] ∧ e.valid = true ∧ e.shutRd = false ∧
      ¬(e.canNotRecv = true ∨ e.fatal = true ∨ e.timeout < 0)) := by
  unfold takeBuf Obtains Refuses State.waiting
  cases last : s.lastdata with
  | some d => exact .inl ⟨.inl (by simp), d, s, by simp,
    ⟨last, by simp [State.waiting, last], events,
      rfl, rfl, rfl, rfl⟩⟩
  | none =>
    simp only [Option.isSome_none, Bool.false_eq_true, if_false, ne_eq, not_true, false_or,
      Option.toList_none, List.nil_append]
    unfold recvFromRing
    cases ring : s.ring with
    | nil =>
      rw [ring, List.length_nil] at events
      grind
    | cons d rest =>
      rw [ring, List.length_cons] at events
      have took : Took s { s with
          ring := rest, rcvevent := s.rcvevent - 1, lastdata := some d } d :=
        ⟨rfl, by simp [State.waiting, last, ring], by dsimp only; omega, rfl, rfl, rfl, rfl⟩
      grind

/-- What a call that gets a buffer leaves. -/
def finish (e : Env) (c : Call) (d : Datagram) (t : State) : State :=
  if e.address = true ∧ c.flags.peek = false then comFreeRecvBuf e d t else t

/-- How a call ends. -/
theorem call_cases {e : Env} {s : State} (events : s.rcvevent + s.uncounted = s.ring.length)
    (c : Call) :
    (Obtains s e c ∧ ∃ d t, Took s t d ∧ call e s c =
      (if e.address then .got (d.data.take c.space) else .fails, finish e c d t)) ∨
    (¬Obtains s e c ∧ call e s c = (.fails, s) ∧ Refuses s e c) ∨
    (¬Obtains s e c ∧ call e s c = (.waits, s) ∧ c.passes = false ∧ e.nonblock = false ∧
      s.waiting = [] ∧ e.valid = true ∧ e.shutRd = false ∧
      ¬(e.canNotRecv = true ∨ e.fatal = true ∨ e.timeout < 0)) := by
  have copied (d : Datagram) (len : Nat) :
      splPbufCopyPartial d.chain (min len d.data.length) 0 = d.data.take len := by
    rw [splPbufCopyPartial_eq, List.drop_zero, Nat.min_comm, ← List.take_take]
    exact List.take_of_length_le (by rw [List.length_take]; exact min_le_right _ _)
  have whole (d : Datagram) (len : Nat) :
      ¬(0 < min len d.data.length ∧ (d.data.take len).length = 0) := by
    rw [List.length_take]
    omega
  have gathers (d : Datagram) (iov : List (Option Nat)) :
      copyEntries d.chain iov d.data.length 0 = d.data.take (iov.map fun len => len.getD 0).sum :=
    copyEntries_eq d.chain iov 0
  rcases takeBuf_cases (e := e) events c with ⟨obtains, d, t, taken, took⟩ |
    ⟨not_, taken, refuses⟩ | ⟨not_, taken, rest⟩
  · refine .inl ⟨obtains, d, t, took, ?_⟩
    cases c with
    | recvfrom mem flags =>
      simp only [call, sbrUdpRecvfrom, Call.passes] at taken ⊢
      simp only [taken, took.lastdata, copied, whole, if_false, finish, Call.flags, Call.space]
      obtain ⟨peek, dontwait⟩ := flags
      cases e.address <;> cases peek <;> rfl
    | recvmsg iov flags =>
      simp only [call, sbrUdpRecvdata, sbrUdpRecvfrom, Call.passes] at taken ⊢
      simp only [taken, took.lastdata, copied, whole, if_false, finish, Call.flags, Call.space]
      cases e.address
      · rfl
      · obtain ⟨peek, dontwait⟩ := flags
        cases peek <;> simp [took.lastdata, gathers]
    | readv iov =>
      simp only [call, sbrUdpRecvdata, sbrUdpRecvfrom, Call.passes] at taken ⊢
      simp only [taken, took.lastdata, copied, whole, if_false, finish, Call.flags, Call.space]
      cases e.address
      · rfl
      · simp [took.lastdata, gathers]
  · refine .inr (.inl ⟨not_, ?_, refuses⟩)
    cases c <;> simp only [call, sbrUdpRecvdata, sbrUdpRecvfrom, Call.passes] at taken ⊢ <;>
      simp [taken]
  · refine .inr (.inr ⟨not_, ?_, rest⟩)
    cases c <;> simp only [call, sbrUdpRecvdata, sbrUdpRecvfrom, Call.passes] at taken ⊢ <;>
      simp [taken]

/-- A buffer that is put on the recoder list is accounted for exactly if a message it goes into is
posted. -/
theorem accounted_comFreeRecvBuf_iff {e : Env} {d : Datagram} {t : State} (before : Accounted t) :
    Accounted (comFreeRecvBuf e d t) ↔
      (e.attaches = true → maxRecvFreeLen < d.data.length ∨ maxRecvFreeBuf ≤ t.recoder.length + 1 →
        e.posts = true) := by
  unfold Accounted at *
  unfold comFreeRecvBuf handleFreeRecvBuf
  dsimp only
  rw [List.length_append, List.length_singleton]
  have listed : t.messages.flatten ++ (t.recoder ++ [d.id]) = t.consumed ++ [d.id] := by
    rw [← List.append_assoc, before]
  have lost : ¬t.messages.flatten ++ [] = t.consumed ++ [d.id] := by
    intro same
    have length := congrArg List.length same
    rw [← before] at length
    simp only [List.length_append, List.length_nil, List.length_singleton] at length
    omega
  by_cases full : maxRecvFreeLen < d.data.length ∨ maxRecvFreeBuf ≤ t.recoder.length + 1
  · rw [if_pos full]
    cases attaches : e.attaches with
    | false => exact iff_of_true listed nofun
    | true =>
      cases posts : e.posts with
      | true => exact iff_of_true (by simpa using listed) fun _ _ => rfl
      | false => exact iff_of_false lost fun all => Bool.false_ne_true (all rfl full)
  · rw [if_neg full]
    exact iff_of_true listed fun _ reached => absurd reached full

/-- What is not accounted for stays so outside of the recoder list. -/
theorem comFreeRecvBuf_frame (e : Env) (d : Datagram) (t : State) :
    (comFreeRecvBuf e d t).consumed = t.consumed ++ [d.id] ∧
      (comFreeRecvBuf e d t).waiting = t.ring ∧ (comFreeRecvBuf e d t).arrived = t.arrived ∧
      (comFreeRecvBuf e d t).ring = t.ring ∧ (comFreeRecvBuf e d t).rcvevent = t.rcvevent ∧
      (comFreeRecvBuf e d t).uncounted = t.uncounted := by
  unfold comFreeRecvBuf handleFreeRecvBuf State.waiting
  dsimp only
  split_ifs <;> exact ⟨rfl, rfl, rfl, rfl, rfl, rfl⟩

/-! ## Datagrams and buffers -/

theorem meets_obtains_iff {e : Env} {c : Call} {s t : State} {d : Datagram} (inv : Inv s)
    (obtains : Obtains s e c) (took : Took s t d) :
    Meets s (.call e c) ↔ Accounted (finish e c d t) := by
  have same : Accounted t := by
    unfold Accounted
    rw [took.messages, took.recoder, took.consumed]
    exact inv.accounted
  simp only [Meets, Refuses, took.waiting, reduceCtorEq, false_implies, implies_true, true_and,
    obtains, true_implies, List.head?_cons, Option.mem_some_iff, forall_eq']
  unfold finish
  split_ifs with consumes
  · rw [accounted_comFreeRecvBuf_iff same, took.recoder]
    simp [consumes]
  · refine iff_of_true (fun address reads => absurd ⟨address, reads⟩ consumes) same

/-- A step does what it should and loses no buffer exactly if it meets the condition. -/
theorem step_iff {s t : State} {a : Action} (inv : Inv s) (taken : act s a = some t) :
    Accounted t ∧ Right s a ↔ Meets s a := by
  cases a with
  | arrive chain =>
    obtain rfl := Option.some.inj taken
    exact iff_of_true ⟨inv.accounted, trivial⟩ trivial
  | count =>
    obtain ⟨-, rfl⟩ := of_guarded taken
    exact iff_of_true ⟨inv.accounted, trivial⟩ trivial
  | call e c =>
    obtain rfl := Option.some.inj taken
    rcases call_cases (e := e) inv.events c with ⟨obtains, d, t, took, is⟩ |
      ⟨not_, is, refuses⟩ | ⟨not_, is, unpassed, blocking, empty, waits⟩
    · rw [meets_obtains_iff inv obtains took, is]
      refine and_iff_left ?_
      obtain ⟨consumed, waiting, -⟩ := comFreeRecvBuf_frame e d t
      simp only [Right, is]
      cases address : e.address with
      | false => simp
      | true =>
        refine ⟨?_, by simp⟩
        rintro _ ⟨⟩
        refine ⟨d, t.ring, took.waiting, rfl, List.length_take, ?_⟩
        unfold finish
        cases reads : c.flags.peek with
        | true => simp [took.consumed, State.waiting, took.lastdata, ← took.waiting]
        | false => simp [address, consumed, waiting, took.consumed]
    · rw [is]
      refine iff_of_true ⟨inv.accounted, ?_⟩
        ⟨fun _ => refuses, fun obtains => absurd obtains not_⟩
      simp [Right, is]
    · rw [is]
      simp only [Right, is, Meets, Refuses, unpassed, blocking, empty, waits, not_, inv.accounted]
      simp

/-- Every step that meets the condition keeps the invariant. -/
theorem Inv.step {s t : State} {a : Action} (inv : Inv s) (meets : Meets s a)
    (taken : act s a = some t) : Inv t := by
  have accounted := ((step_iff inv taken).mpr meets).1
  cases a with
  | arrive chain =>
    obtain rfl := Option.some.inj taken
    refine ⟨?_, ?_, accounted⟩
    · have order := inv.order
      simp only [State.waiting, List.map_append] at order ⊢
      rw [List.range_succ, ← order]
      simp
    · have events := inv.events
      simp only [List.length_append, List.length_singleton]
      omega
  | count =>
    obtain ⟨some_, rfl⟩ := of_guarded taken
    have events := inv.events
    exact ⟨inv.order, by dsimp only; omega, accounted⟩
  | call e c =>
    obtain rfl := Option.some.inj taken
    rcases call_cases (e := e) inv.events c with ⟨-, d, t, took, is⟩ | ⟨-, is, -⟩ | ⟨-, is, -⟩
    · obtain ⟨consumed, waiting, arrived, ring, rcvevent, uncounted⟩ := comFreeRecvBuf_frame e d t
      have order := inv.order
      rw [took.waiting] at order
      rw [is] at accounted ⊢
      dsimp only [finish] at accounted ⊢
      by_cases consumes : e.address = true ∧ c.flags.peek = false
      · rw [if_pos consumes] at accounted ⊢
        refine ⟨?_, by rw [ring, rcvevent, uncounted]; exact took.events, accounted⟩
        rw [consumed, waiting, arrived, took.consumed, took.arrived, ← order]
        simp
      · rw [if_neg consumes] at accounted ⊢
        refine ⟨?_, took.events, accounted⟩
        rw [took.consumed, took.arrived, ← order]
        simp [State.waiting, took.lastdata]
    · rw [is]
      exact inv
    · rw [is]
      exact inv

/-- In every run that meets the condition, the datagrams are consumed in order and each consumed
buffer is in one message or on the recoder list; and with one step more this holds, and the step
does what it should, exactly if it meets the condition. -/
theorem udp_receive_iff (s : State) :
    (Runs act Meets start s → Accounted s ∧
      s.consumed ++ s.waiting.map Datagram.id = List.range s.arrived) ∧
      ∀ a t, Runs act Meets start s → act s a = some t →
        (Accounted t ∧ Right s a ↔ Meets s a) := by
  have inv (run : Runs act Meets start s) : Inv s :=
    run.invariant (P := Inv) ⟨by simp [start, State.waiting], rfl, by simp [Accounted, start]⟩
      fun _ _ _ inv meets taken => inv.step meets taken
  exact ⟨fun run => ⟨(inv run).accounted, (inv run).order⟩,
    fun a t run taken => step_iff (inv run) taken⟩

/-- A `recvmsg` with `MSG_DONTWAIT` on a blocking socket waits for data. -/
theorem dontwait_waits :
    ∃ (e : Env) (c : Call), c.flags.dontwait = true ∧ (call e start c).1 = .waits :=
  ⟨⟨false, false, true, false, false, 0, true, true, true⟩, .recvmsg [some 8] ⟨false, true⟩,
    rfl, rfl⟩

end Dmm.Udp.Receive
