import Mathlib

/-!
# The ready list of an epoll instance

`ephlist.h`, `nstack_event_callback`, `nsep_ctl_event_add`, `nsep_epctl_triggle` and
`nsep_ep_poll` of one `struct eventpoll`. The ready list is linked through the `rdllink` of its
items and ends at a null pointer; `pprev` is the address of the link that points at a node, which
is the node that holds it. A poll takes the list off the eventpoll under `ep->lock`, walks it
without the lock and puts the rest back under the lock; callbacks that fall in between leave
their item on a second, singly linked list, `ovflist`.

A poll is a small-step program: one locked section, or one item examined without the lock, is a
step, and so is each item that is moved from `ovflist` under the lock. What a module's
`ep_getevt` returns is an input of the step that calls it. Left out are `eventflag`, which only
tells `nstack_epoll_prewait_proc` which modules to skip, and the process id check; the list of an
fd's items that a callback walks has one item of this eventpoll.
-/

namespace Dmm.Epoll

/-- A `struct ep_hlist_node *`: null, the node in the list's head, or an item's `rdllink`. -/
inductive Node
  | null
  | list
  | rdllink (epi : Nat)
  deriving DecidableEq, Repr

/-- A `struct epitem *` of `ovflist`: `NSEP_EP_UNACTIVE_PTR`, null or an item. -/
inductive Ovf
  | unactive
  | null
  | epi (epi : Nat)
  deriving DecidableEq, Repr

/-- `struct epitem`, its links apart; `rmidx` is that of the item's fd. -/
structure Epitem where
  events : UInt32
  data : UInt64
  revents : UInt32
  ovfRevents : UInt32
  next : Ovf
  rmidx : Int
  deriving DecidableEq, Repr

/-- `struct eventpoll` with its items. -/
structure Eventpoll where
  next : Node → Node
  pprev : Node → Node
  tail : Node
  ovflist : Ovf
  waitSem : Nat
  item : Nat → Epitem

/-- `EPOLLET` -/
def epollEt : UInt32 := 0x80000000

/-- `EPOLLERR | EPOLLHUP` -/
def epollErrHup : UInt32 := 0x18

namespace Eventpoll

/-! ## `ephlist.h` -/

/-- `EP_HLIST_NODE_LINKED` -/
def linked (ep : Eventpoll) (node : Node) : Bool := ep.pprev node ≠ .null

/-- `EP_HLIST_INIT_NODE` -/
def initNode (ep : Eventpoll) (node : Node) : Eventpoll :=
  { ep with next := Function.update ep.next node .null
            pprev := Function.update ep.pprev node .null }

/-- `EP_HLIST_INIT (&ep->rdlist)` -/
def hlistInit (ep : Eventpoll) : Eventpoll := { ep.initNode .list with tail := .list }

/-- `EP_HLIST_EMPTY (&ep->rdlist)` -/
def hlistEmpty (ep : Eventpoll) : Bool := ep.next .list = .null

/-- `ep_hlist_del` -/
def hlistDel (ep : Eventpoll) (n : Node) : Eventpoll :=
  if ep.linked n then
    let before := { ep with next := Function.update ep.next (ep.pprev n) (ep.next n) }
    let around :=
      if before.next n ≠ .null then
        { before with pprev := Function.update before.pprev (before.next n) (before.pprev n) }
      else { before with tail := before.pprev n }
    around.initNode n
  else ep

/-- `ep_hlist_add_tail` -/
def hlistAddTail (ep : Eventpoll) (node : Node) : Eventpoll :=
  let fresh := ep.initNode node
  { fresh with pprev := Function.update fresh.pprev node ep.tail
               next := Function.update fresh.next ep.tail node
               tail := node }

/-- Put an item on the ready list unless it is on a list. -/
def addUnlinked (ep : Eventpoll) (epi : Nat) : Eventpoll :=
  if ep.linked (.rdllink epi) then ep else ep.hlistAddTail (.rdllink epi)

/-- `sem_post (&ep->waitSem)` -/
def semPost (ep : Eventpoll) : Eventpoll := { ep with waitSem := ep.waitSem + 1 }

/-- A write to fields of an item. -/
def modify (ep : Eventpoll) (epi : Nat) (f : Epitem → Epitem) : Eventpoll :=
  { ep with item := Function.update ep.item epi (f (ep.item epi)) }

/-! ## Events that come in -/

/-- `nstack_event_callback`, for the item of this eventpoll. -/
def eventCallback (ep : Eventpoll) (epi : Nat) (events : UInt32) : Eventpoll :=
  if (ep.item epi).events &&& events = 0 then ep
  else if ep.ovflist ≠ .unactive then
    let queued :=
      if (ep.item epi).next = .unactive then
        { ep.modify epi ({ · with next := ep.ovflist }) with ovflist := .epi epi }
      else ep
    queued.modify epi fun item => { item with ovfRevents := item.ovfRevents ||| events }
  else
    let queued :=
      if ep.linked (.rdllink epi) then ep else (ep.hlistAddTail (.rdllink epi)).semPost
    queued.modify epi fun item =>
      { item with revents := item.revents ||| (item.events &&& events) }

/-- `nstack_ep_triggle_ops_t`; a deletion does nothing here. -/
inductive Triggle
  | add
  | mod
  deriving DecidableEq, Repr

/-- `nsep_ctl_event_add` -/
def ctlEventAdd (ep : Eventpoll) (epi : Nat) (triggleOps : Triggle) (events : UInt32) :
    Eventpoll :=
  match triggleOps with
  | .add =>
    if events &&& (ep.item epi).events ≠ 0 then (ep.addUnlinked epi).semPost else ep
  | .mod =>
    if events &&& (ep.item epi).events ≠ 0 then
      if ep.linked (.rdllink epi) then ep else (ep.hlistAddTail (.rdllink epi)).semPost
    else if ep.linked (.rdllink epi) ∧ (ep.item epi).events &&& epollEt ≠ 0 then
      ep.hlistDel (.rdllink epi)
    else ep

end Eventpoll

/-! ## A poll -/

/-- An entry of the array that a poll fills, with the item it was filled for. -/
structure Report where
  epi : Nat
  events : UInt32
  data : UInt64
  deriving DecidableEq, Repr

/-- Where a poll is. -/
inductive Pc
  | returned
  | start
  | locked
  | detach
  | walk
  | putBack
  | merge
  deriving DecidableEq, Repr

/-- The local variables of `nsep_ep_poll`; `evt` is the number of reports. -/
structure Poll where
  pc : Pc
  maxevents : Nat
  head : Node
  tail : Node
  nepi : Ovf
  reports : List Report
  deriving Repr

/-- Before any poll. -/
def Poll.none : Poll := ⟨.returned, 1, .null, .null, .null, []⟩

/-- A call of `nsep_ep_poll`. -/
def Poll.call (maxevents : Nat) : Poll := ⟨.start, maxevents, .null, .null, .null, []⟩

namespace Eventpoll

/-- Taking the list off, under `ep->lock`. -/
def detach (ep : Eventpoll) : Eventpoll := { ep.hlistInit with ovflist := .null }

/-- The events of an item as `nsep_events_proc` sees them; `got` is from `ep_getevt`. -/
def gathered (ep : Eventpoll) (epi : Nat) (got : UInt32) : UInt32 :=
  (ep.item epi).revents ||| (if (ep.item epi).rmidx ≠ -1 then got else 0)

/-- The report on an item. -/
def report (ep : Eventpoll) (epi : Nat) (got : UInt32) : Option Report :=
  if ep.gathered epi got ≠ 0 then some ⟨epi, ep.gathered epi got, (ep.item epi).data⟩ else none

/-- An item is put back on the list after its report. -/
def requeues (ep : Eventpoll) (epi : Nat) (got : UInt32) : Bool :=
  ep.gathered epi got ≠ 0 ∧ (ep.item epi).events &&& epollEt ≠ epollEt

/-- The body of the loop of `nsep_events_proc`. -/
def examine (ep : Eventpoll) (epi : Nat) (got : UInt32) : Eventpoll :=
  let alone := ep.initNode (.rdllink epi)
  let requeued := if ep.requeues epi got then alone.hlistAddTail (.rdllink epi) else alone
  requeued.modify epi ({ · with revents := 0 })

/-- Putting the rest of the list back, under `ep->lock`. -/
def putBack (ep : Eventpoll) (head tail : Node) : Eventpoll :=
  if head ≠ .null then
    { ep with next := Function.update ep.next ep.tail head
              pprev := Function.update ep.pprev head ep.tail
              tail := tail }
  else ep

/-- The body of the loop over `ovflist`. -/
def merge (ep : Eventpoll) (epi : Nat) : Eventpoll :=
  let noted := ep.modify epi fun item =>
    { item with revents := item.revents ||| item.ovfRevents, ovfRevents := 0 }
  (noted.addUnlinked epi).modify epi ({ · with next := .unactive })

end Eventpoll

/-- One step of `nsep_ep_poll`, with what `ep_getevt` returns if it is called. -/
def pollStep (ep : Eventpoll) (poll : Poll) (got : UInt32) : Eventpoll × Poll :=
  match poll.pc with
  | .returned => (ep, poll)
  | .start => (ep, { poll with pc := if ep.hlistEmpty then .returned else .locked })
  | .locked => (ep, { poll with pc := if ep.hlistEmpty then .returned else .detach })
  | .detach => (ep.detach, { poll with pc := .walk, head := ep.next .list, tail := ep.tail })
  | .walk =>
    match poll.head with
    | .rdllink epi =>
      let reports := poll.reports ++ (ep.report epi got).toList
      (ep.examine epi got,
        { poll with pc := if reports.length ≥ poll.maxevents then .putBack else .walk
                    head := ep.next (.rdllink epi)
                    reports := reports })
    | _ => (ep, { poll with pc := .putBack })
  | .putBack => (ep.putBack poll.head poll.tail, { poll with pc := .merge, nepi := ep.ovflist })
  | .merge =>
    match poll.nepi with
    | .epi epi => (ep.merge epi, { poll with nepi := (ep.item epi).next })
    | _ => ({ ep with ovflist := .unactive }, { poll with pc := .returned })

end Dmm.Epoll
