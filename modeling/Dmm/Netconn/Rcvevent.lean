import Dmm.Lib.Run

/-!
# The receive event counter

`rcvevent` of a TCP connection is to count the entries of its receive ring. A new socket starts with
one event, which `connect` and `listen` take back; the stack thread puts an entry on the ring before
it counts it, and an application takes one off before it subtracts it.

What lwIP answers, and whether a write is under way, comes with each message.
-/

namespace Dmm.Netconn.Rcvevent

/-! ## Messages and calls -/

/-- `enum spl_netconn_state`, without `SPL_NETCONN_CLOSE`, which `do_close` leaves again. -/
inductive ConnState
  | none
  | write
  | listen
  | connect
  deriving DecidableEq, Repr

/-- `SPL_NETCONN_SHUT_RD`, `SPL_NETCONN_SHUT_WR` and `SPL_NETCONN_SHUT_RDWR` -/
inductive Shut
  | rd
  | wr
  | rdwr
  deriving DecidableEq, Repr

/-- Does a shutdown close the reading side. -/
def Shut.reads : Shut → Bool
  | .wr => false
  | _ => true

/-- A connection; `linked` if it has a pcb, `stopped` if the receive callback is taken off. -/
structure State where
  state : ConnState
  linked : Bool
  stopped : Bool
  ring : Nat
  rcvevent : Int
  /-- The stack thread has put an entry on the ring and not yet counted it. -/
  counting : Bool
  /-- Entries taken off the ring and not yet subtracted. -/
  taken : Nat
  /-- A first `connect` or `listen` has come. -/
  began : Bool
  deriving DecidableEq, Repr

/-- `do_internal_tcp_connect`, with what `tcp_connect` answers. -/
def doInternalTcpConnect (ok : Bool) (s : State) : State :=
  if s.state ≠ .none then s
  else { s with rcvevent := s.rcvevent - 1, state := if ok then .connect else .none }

/-- `do_listen`; `ok` if the connection has no fatal error, the pcb is closed and
`tcp_listen_with_backlog_and_err` gives one. -/
def doListen (ok : Bool) (s : State) : State :=
  if ok = false ∨ s.state ≠ .none then s
  else { s with state := .listen, rcvevent := s.rcvevent - 1 }

/-- `netconn_drain` -/
def netconnDrain (s : State) : State := { s with ring := 0 }

/-- `do_close`; `busy` if there is a current message or a write offset. -/
def doClose (shut : Shut) (busy : Bool) (s : State) : State :=
  if s.state = .write ∨ s.linked = false ∨ shut ≠ .rdwr ∧ s.state = .listen then s
  else
    let s := if shut.reads then netconnDrain s else s
    if busy = true ∧ s.state ≠ .connect then s
    else
      let s := { s with state := .none, linked := false, stopped := s.stopped || shut.reads }
      if shut.reads then { s with rcvevent := s.rcvevent + 1 } else s

/-! ## Runs -/

/-- What happens to a connection. -/
inductive Action
  /-- A message is handled by the stack thread. -/
  | connect (ok : Bool)
  | listen (ok : Bool)
  | shutdown (shut : Shut) (busy : Bool)
  /-- `spl_do_connected`, and the beginning and the end of a write. -/
  | connected
  | write
  | written
  /-- `spl_recv_tcp` or `spl_accept_function` puts an entry on the ring, and then counts it. -/
  | enqueue
  | count
  /-- `recv` or `accept` takes an entry off, and then subtracts it; `accept` does not if it cannot
  store the address. -/
  | dequeue
  | subtract (stored : Bool)
  deriving DecidableEq, Repr

/-- One step. There is one stack thread, which ends with an entry before it does anything else; a
`connect` or `listen` without a pcb is a null dereference. -/
def act (s : State) : Action → Option State
  | .connect ok =>
    if s.linked = true ∧ s.counting = false then
      some { doInternalTcpConnect ok s with began := true }
    else none
  | .listen ok =>
    if s.linked = true ∧ s.counting = false then some { doListen ok s with began := true } else none
  | .shutdown shut busy => if s.counting = false then some (doClose shut busy s) else none
  | .connected =>
    if s.state = .connect ∧ s.counting = false then some { s with state := .none } else none
  | .write =>
    if s.state = .none ∧ s.began = true ∧ s.counting = false then some { s with state := .write }
    else none
  | .written =>
    if s.state = .write ∧ s.counting = false then some { s with state := .none } else none
  | .enqueue =>
    if s.began = true ∧ s.stopped = false ∧ s.counting = false then
      some { s with ring := s.ring + 1, counting := true }
    else none
  | .count =>
    if s.counting = true then some { s with rcvevent := s.rcvevent + 1, counting := false }
    else none
  | .dequeue =>
    if 0 < s.ring then some { s with ring := s.ring - 1, taken := s.taken + 1 } else none
  | .subtract stored =>
    if 0 < s.taken then
      some { s with
        taken := s.taken - 1
        rcvevent := if stored then s.rcvevent - 1 else s.rcvevent }
    else none

/-- A connection made by `sbr_tcp_socket`, or one that was accepted. -/
def start (accepted : Bool) : State :=
  ⟨.none, true, false, 0, if accepted then 0 else 1, false, 0, accepted⟩

/-- No operation is in progress. -/
def State.Quiet (s : State) : Prop := s.counting = false ∧ s.taken = 0

/-- The counter when the operations in progress have ended. -/
def State.settled (s : State) : Int := s.rcvevent + (if s.counting then 1 else 0) - s.taken

/-- The counter is the number of entries, once the operations in progress have ended. -/
def Exact (s : State) : Prop := s.began = true → s.settled = s.ring

/-- Does a nonblocking `sbr_tcp_recvfrom` without `lastdata` give `EWOULDBLOCK`. -/
def WouldBlock (s : State) : Prop := s.rcvevent ≤ 0

/-- Once there was a `connect` or `listen`, neither takes an event back again; the first takes one;
the reading side is not shut down after it, except on an empty ring while the connection is busy;
and an accepted address is stored. -/
def Meets (s : State) : Action → Prop
  | .connect _ => s.state = .none → s.began = false
  | .listen ok => s.began = (!ok || decide (s.state ≠ .none))
  | .shutdown shut busy =>
    s.began = true → s.linked = true → shut.reads = true → s.state ≠ .write →
      (s.state = .listen → shut = .rdwr) → busy = true ∧ s.state ≠ .connect ∧ s.ring = 0
  | .subtract stored => s.began = true → stored = true
  | _ => True

/-- A connection that is not begun is new, or has lost its pcb. -/
structure Inv (s : State) : Prop where
  exact_ : Exact s
  fresh : s.began = false → s.ring = 0 ∧ s.counting = false ∧ s.taken = 0 ∧
    (s.linked = true → s.state = .none ∧ s.rcvevent = 1)

/-- A step leaves the counter exact exactly if it meets the condition. -/
theorem step_iff {s t : State} {a : Action} (inv : Inv s) (taken : act s a = some t) :
    Exact t ↔ Meets s a := by
  obtain ⟨exact_, fresh⟩ := inv
  unfold Exact State.settled at *
  cases a with
  | connect ok =>
    obtain ⟨⟨linked, idle⟩, rfl⟩ := of_guarded taken
    grind [doInternalTcpConnect, Meets]
  | listen ok =>
    obtain ⟨⟨linked, idle⟩, rfl⟩ := of_guarded taken
    grind [doListen, Meets]
  | shutdown shut busy =>
    obtain ⟨idle, rfl⟩ := of_guarded taken
    cases shut <;> grind [doClose, netconnDrain, Shut.reads, Meets]
  | subtract stored =>
    obtain ⟨some_, rfl⟩ := of_guarded taken
    grind [Meets]
  | connected | write | written | enqueue | count | dequeue =>
    obtain ⟨may, rfl⟩ := of_guarded taken
    grind [Meets]

/-- A step keeps an unbegun connection new, or takes its pcb. -/
theorem Inv.step {s t : State} {a : Action} (inv : Inv s) (meets : Meets s a)
    (taken : act s a = some t) : Inv t := by
  refine ⟨(step_iff inv taken).mpr meets, ?_⟩
  have fresh := inv.fresh
  cases a <;>
    simp only [act, Option.ite_none_right_eq_some, Option.some.injEq] at taken <;>
    obtain ⟨may, rfl⟩ := taken <;>
    grind [doClose, netconnDrain]

/-- In every run that meets the condition, when no operation is in progress after the first
`connect` or `listen` the counter is the number of entries of the ring, and a nonblocking receive
fails only on an empty ring; and one step more leaves the counter exact exactly if it meets the
condition. -/
theorem rcvevent_exact_iff (accepted : Bool) (s : State) :
    (Runs act Meets (start accepted) s → s.began = true → s.Quiet →
      s.rcvevent = s.ring ∧ (WouldBlock s → s.ring = 0)) ∧
    ∀ a t, Runs act Meets (start accepted) s → act s a = some t → (Exact t ↔ Meets s a) := by
  have inv (run : Runs act Meets (start accepted) s) : Inv s :=
    run.invariant (P := Inv)
      (by cases accepted <;> constructor <;> simp [start, Exact, State.settled])
      fun _ _ _ inv meets taken => inv.step meets taken
  refine ⟨fun run began quiet => ?_, fun a t run taken => step_iff (inv run) taken⟩
  have counted := (inv run).exact_ began
  obtain ⟨idle, none_⟩ := quiet
  simp only [State.settled, idle, none_] at counted
  unfold WouldBlock
  simp only [Bool.false_eq_true, if_false] at counted
  omega

/-- A `connect` fails at once, the next succeeds, and data arrive: a nonblocking receive gives
`EWOULDBLOCK`. -/
theorem event_lost_on_retry :
    ∃ s, Runs act (fun _ _ => True) (start false) s ∧ s.began = true ∧ s.Quiet ∧ WouldBlock s ∧
      s.ring = 1 := by
  have executed : ∃ s, Runs act (fun _ _ => True) (start false) s ∧
      decide (s.began = true ∧ (s.counting = false ∧ s.taken = 0) ∧ s.rcvevent ≤ 0 ∧ s.ring = 1) =
        true :=
    exists_runs_of_execute (fun _ _ => true)
      [.connect false, .connect true, .connected, .enqueue, .count] (fun _ _ _ => trivial)
      (by decide +kernel)
  simpa only [decide_eq_true_eq, State.Quiet, WouldBlock] using executed

end Dmm.Netconn.Rcvevent
