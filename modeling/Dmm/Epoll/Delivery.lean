import Dmm.Epoll.ReadyList
import Dmm.Lib.Mask
import Dmm.Lib.Run

/-!
# Delivery of events through the ready list

Polls, one at a time, interleaved at their lock boundaries with callbacks and with
`nsep_ctl_event_add`. Beside the eventpoll a run records, for each item, the requested events
that a callback delivered and that no report has shown since.

`nsep_ctl_event_add` takes an edge-triggered item off the list when its caller saw no event, even
if a callback has delivered one in the meantime; while a poll has the list detached it takes the
item out of the detached part, which breaks both lists.
-/

namespace Dmm.Epoll

open Dmm.Mask

/-! ## The second list -/

/-- The items on `ovflist` from a pointer on. -/
def OvfChain (item : Nat → Epitem) : Ovf → List Nat → Prop
  | pointer, [] => pointer = .null
  | pointer, x :: l => pointer = .epi x ∧ OvfChain item (item x).next l

/-- `ovflist` has these items, and the others have nothing stored for it. -/
structure Overflow (item : Nat → Epitem) (pointer : Ovf) (l : List Nat) : Prop where
  chain : OvfChain item pointer l
  distinct : l.Nodup
  queued : ∀ i, (item i).next ≠ .unactive ↔ i ∈ l
  clean : ∀ i, i ∉ l → (item i).ovfRevents = 0

section

variable {item item' : Nat → Epitem} {pointer : Ovf} {l : List Nat} {x : Nat}

theorem OvfChain.congr (chain : OvfChain item pointer l)
    (same : ∀ i ∈ l, (item' i).next = (item i).next) : OvfChain item' pointer l := by
  induction l generalizing pointer with
  | nil => exact chain
  | cons x l ih =>
    refine ⟨chain.1, ?_⟩
    rw [same x (by simp)]
    exact ih chain.2 fun i member => same i (List.mem_cons_of_mem x member)

theorem OvfChain.ne_unactive (chain : OvfChain item pointer l) : pointer ≠ .unactive := by
  cases l with
  | nil =>
    have null : pointer = .null := chain
    simp [null]
  | cons x l => simp [chain.1]

theorem Overflow.congr (overflow : Overflow item pointer l)
    (next : ∀ i, (item' i).next = (item i).next)
    (ovf : ∀ i, (item' i).ovfRevents = (item i).ovfRevents) : Overflow item' pointer l := by
  refine ⟨overflow.chain.congr fun i _ => next i, overflow.distinct, ?_, ?_⟩
  · intro i
    rw [next i]
    exact overflow.queued i
  · intro i absent
    rw [ovf i]
    exact overflow.clean i absent

theorem Overflow.store (overflow : Overflow item pointer l) (member : x ∈ l) (events : UInt32) :
    Overflow (Function.update item x { item x with ovfRevents := events }) pointer l := by
  have next (i : Nat) :
      (Function.update item x { item x with ovfRevents := events } i).next = (item i).next := by
    by_cases same : i = x
    · rw [same, Function.update_self]
    · rw [Function.update_of_ne same]
  refine ⟨overflow.chain.congr fun i _ => next i, overflow.distinct, ?_, ?_⟩
  · intro i
    rw [next i]
    exact overflow.queued i
  · intro i absent
    have other : i ≠ x := by
      rintro rfl
      exact absent member
    rw [Function.update_of_ne other]
    exact overflow.clean i absent

theorem Overflow.push (overflow : Overflow item pointer l) (absent : x ∉ l) :
    Overflow (Function.update item x { item x with next := pointer }) (.epi x) (x :: l) := by
  constructor
  · refine ⟨rfl, ?_⟩
    rw [Function.update_self]
    apply overflow.chain.congr
    intro i member
    have other : i ≠ x := by
      rintro rfl
      exact absent member
    rw [Function.update_of_ne other]
  · exact List.nodup_cons.mpr ⟨absent, overflow.distinct⟩
  · intro i
    by_cases same : i = x
    · subst same
      rw [Function.update_self]
      simp [overflow.chain.ne_unactive]
    · rw [Function.update_of_ne same, overflow.queued i]
      simp [same]
  · intro i outside
    have other : i ≠ x := fun same => outside (by simp [same])
    rw [Function.update_of_ne other]
    exact overflow.clean i fun member => outside (List.mem_cons_of_mem x member)

/-- Taking the first item off. -/
theorem Overflow.pop (overflow : Overflow item pointer (x :: l)) (revents : UInt32) :
    Overflow (Function.update item x
      { item x with revents := revents, ovfRevents := 0, next := .unactive }) (item x).next l := by
  obtain ⟨absent, distinct⟩ := List.nodup_cons.mp overflow.distinct
  constructor
  · apply overflow.chain.2.congr
    intro i member
    have other : i ≠ x := by
      rintro rfl
      exact absent member
    rw [Function.update_of_ne other]
  · exact distinct
  · intro i
    by_cases same : i = x
    · subst same
      rw [Function.update_self]
      simp [absent]
    · rw [Function.update_of_ne same, overflow.queued i]
      simp [same]
  · intro i outside
    by_cases same : i = x
    · rw [same, Function.update_self]
    · rw [Function.update_of_ne same]
      apply overflow.clean i
      simp [same, outside]

end

/-! ## Runs -/

/-- An eventpoll with the poll that is made on it. -/
structure Sys where
  ep : Eventpoll
  poll : Poll
  /-- The requested events a callback delivered since they were last reported. -/
  pending : Nat → UInt32

/-- What can happen to it. -/
inductive Action
  | poll (maxevents : Nat)
  /-- The poll takes a step, with what `ep_getevt` returns in it. -/
  | advance (got : UInt32)
  | callback (epi : Nat) (events : UInt32)
  | ctl (epi : Nat) (triggleOps : Eventpoll.Triggle) (events : UInt32)
  deriving DecidableEq, Repr

namespace Sys

/-- The report that the next step of the poll writes. -/
def written (s : Sys) (got : UInt32) : Option Report :=
  match s.poll.pc, s.poll.head with
  | .walk, .rdllink epi => s.ep.report epi got
  | _, _ => none

/-- What is still to be reported after a report. -/
def shown (pending : Nat → UInt32) : Option Report → Nat → UInt32
  | some r => Function.update pending r.epi (pending r.epi &&& ~~~r.events)
  | none => pending

/-- After a callback. -/
def called (s : Sys) (epi : Nat) (events : UInt32) : Sys :=
  { s with ep := s.ep.eventCallback epi events
           pending := Function.update s.pending epi
             (s.pending epi ||| ((s.ep.item epi).events &&& events)) }

/-- One action. The lock is held while `ovflist` is merged: nothing else happens then. -/
def act (s : Sys) : Action → Option Sys
  | .poll maxevents =>
    if s.poll.pc = .returned ∧ 1 ≤ maxevents then some { s with poll := .call maxevents } else none
  | .advance got =>
    if s.poll.pc = .returned then none
    else
      some { ep := (pollStep s.ep s.poll got).1
             poll := (pollStep s.ep s.poll got).2
             pending := shown s.pending (s.written got) }
  | .callback epi events =>
    if s.poll.pc = .merge then none else some (s.called epi events)
  | .ctl epi triggleOps events =>
    if s.poll.pc = .merge then none
    else some { s with ep := s.ep.ctlEventAdd epi triggleOps events }

/-- An eventpoll after `nsep_init_eventpoll`, with items as `nsep_insert_node` makes them. -/
def fresh (events : Nat → UInt32) (data : Nat → UInt64) (rmidx : Nat → Int) : Sys where
  ep :=
    { next := fun _ => .null
      pprev := fun _ => .null
      tail := .list
      ovflist := .unactive
      waitSem := 0
      item := fun i => ⟨events i, data i, 0, 0, .unactive, rmidx i⟩ }
  poll := .none
  pending := fun _ => 0

/-- The first node that the poll has detached and not examined. -/
def head (s : Sys) : Node :=
  match s.poll.pc with
  | .walk | .putBack => s.poll.head
  | _ => .null

/-- The first item of `ovflist` that is not merged. -/
def ovf (s : Sys) : Ovf :=
  match s.poll.pc with
  | .walk | .putBack => s.ep.ovflist
  | .merge => s.poll.nepi
  | _ => .null

end Sys

/-- A poll has the list detached, or is putting it back. -/
def Pc.window : Pc → Bool
  | .walk | .putBack | .merge => true
  | _ => false

/-- The items on the ready list, on the part detached from it and on `ovflist`. -/
structure Lists where
  ready : List Nat
  rest : List Nat
  ovf : List Nat

/-- The events kept for an item: in `revents` while it is linked, and in `ovf_revents`. -/
def Eventpoll.stored (ep : Eventpoll) (i : Nat) : UInt32 :=
  (if ep.linked (.rdllink i) then (ep.item i).revents else 0) ||| (ep.item i).ovfRevents

/-- A poll never fills more entries than there are. -/
structure Poll.Bounded (poll : Poll) : Prop where
  filled : poll.reports.length ≤ poll.maxevents
  room : poll.pc = .walk → poll.reports.length < poll.maxevents
  none : poll.pc ≠ .returned → poll.pc.window = false → poll.reports = [] ∧ 1 ≤ poll.maxevents

/-- What holds in every state that is reached. -/
structure Inv (s : Sys) (v : Lists) : Prop where
  held : s.ep.Held v.ready s.head s.poll.tail v.rest
  overflow : Overflow s.ep.item s.ovf v.ovf
  closed : s.poll.pc.window = false → s.ep.ovflist = .unactive
  kept : ∀ i, Within (s.pending i) (s.ep.stored i)
  bounded : s.poll.Bounded

section

variable {s s' : Sys} {v v' : Lists} {got events : UInt32} {x : Nat}

theorem inv_fresh (events : Nat → UInt32) (data : Nat → UInt64) (rmidx : Nat → Int) :
    Inv (Sys.fresh events data rmidx) ⟨[], [], []⟩ := by
  constructor
  · refine ⟨⟨⟨rfl, rfl⟩, List.nodup_nil⟩, rfl, List.nodup_nil, ?_⟩
    intro i
    simp [Eventpoll.linked, Sys.fresh]
  · exact ⟨rfl, List.nodup_nil, by simp [Sys.fresh], by simp [Sys.fresh]⟩
  · intro _
    rfl
  · intro i
    exact zero_within _
  · exact ⟨by simp [Sys.fresh, Poll.none], fun walking => Pc.noConfusion walking,
      fun other => absurd rfl other⟩

/-! ## Steps of a poll -/

/-- With no poll in the list there is nothing detached and nothing on `ovflist`. -/
theorem Inv.quiet (inv : Inv s v) (outside : s.poll.pc.window = false) :
    v.rest = [] ∧ v.ovf = [] ∧ s.head = .null ∧ s.ovf = .null := by
  have head : s.head = .null := by
    unfold Sys.head
    split
    · simp_all [Pc.window]
    · simp_all [Pc.window]
    · rfl
  have ovf : s.ovf = .null := by
    unfold Sys.ovf
    split
    · simp_all [Pc.window]
    · simp_all [Pc.window]
    · simp_all [Pc.window]
    · rfl
  refine ⟨?_, ?_, head, ovf⟩
  · apply Eventpoll.Held.rest_eq_nil
    rw [← head]
    exact inv.held
  · have chain := inv.overflow.chain
    rw [ovf] at chain
    cases empty : v.ovf with
    | nil => rfl
    | cons x l =>
      rw [empty] at chain
      exact absurd chain.1 nofun

/-- A step that only moves the poll to another place outside the window. -/
theorem Inv.move (inv : Inv s v) {poll : Poll} (outside : s.poll.pc.window = false)
    (next : poll.pc.window = false) (tail : poll.tail = s.poll.tail) (bounded : poll.Bounded) :
    Inv { s with poll := poll } v := by
  obtain ⟨_, _, head, ovf⟩ := inv.quiet outside
  have head' : Sys.head { s with poll := poll } = .null := by
    unfold Sys.head
    split <;> simp_all [Pc.window]
  have ovf' : Sys.ovf { s with poll := poll } = .null := by
    unfold Sys.ovf
    split <;> simp_all [Pc.window]
  constructor
  · rw [head', ← head]
    show s.ep.Held v.ready s.head poll.tail v.rest
    rw [tail]
    exact inv.held
  · rw [ovf', ← ovf]
    exact inv.overflow
  · intro _
    exact inv.closed outside
  · exact inv.kept
  · exact bounded

/-- Taking the list off. -/
theorem Inv.detach (inv : Inv s v) (at_detach : s.poll.pc = .detach) :
    Inv { s with ep := s.ep.detach
                 poll := { s.poll with pc := .walk, head := s.ep.next .list, tail := s.ep.tail } }
      ⟨[], v.ready, []⟩ := by
  have outside : s.poll.pc.window = false := by simp [at_detach, Pc.window]
  obtain ⟨rest, ovf, head, pointer⟩ := inv.quiet outside
  have held : s.ep.Held v.ready .null s.poll.tail [] := by
    rw [← rest, ← head]
    exact inv.held
  have overflow := inv.overflow
  rw [ovf, pointer] at overflow
  obtain ⟨empty, room⟩ := inv.bounded.none (by simp [at_detach]) outside
  constructor
  · exact held.detach
  · exact overflow
  · nofun
  · intro i
    have same : s.ep.detach.stored i = s.ep.stored i := by
      have linked := held.detach.linked i
      have before := held.linked i
      have agree : s.ep.detach.linked (.rdllink i) = s.ep.linked (.rdllink i) := by
        rw [Bool.eq_iff_iff, linked, before]
        simp
      unfold Eventpoll.stored
      rw [agree]
      rfl
    show Within (s.pending i) (s.ep.detach.stored i)
    rw [same]
    exact inv.kept i
  · refine ⟨inv.bounded.filled, ?_, nofun⟩
    intro _
    show s.poll.reports.length < s.poll.maxevents
    rw [empty]
    exact room

/-- The links of an item that is examined: off the detached part, and at the tail of the ready
list if it is put back. -/
theorem Eventpoll.Held.examine {ep : Eventpoll} {queue rest : List Nat} {head tail : Node}
    (held : ep.Held queue head tail (x :: rest)) (got : UInt32) :
    (ep.examine x got).Held (if ep.requeues x got then queue ++ [x] else queue)
      (ep.next (.rdllink x)) tail rest := by
  have alone := held.initNode
  have unlinked : (ep.initNode (.rdllink x)).linked (.rdllink x) = false := by
    simp [Eventpoll.linked]
  unfold Eventpoll.examine
  cases ep.requeues x got with
  | true => exact (alone.hlistAddTail unlinked).congr rfl rfl rfl
  | false => exact alone.congr rfl rfl rfl

theorem Eventpoll.examine_item (ep : Eventpoll) (got : UInt32) (i : Nat) :
    (ep.examine x got).item i =
      if i = x then { ep.item x with revents := 0 } else ep.item i := by
  have item : (ep.examine x got).item =
      Function.update ep.item x { ep.item x with revents := 0 } := by
    unfold Eventpoll.examine
    cases ep.requeues x got <;> rfl
  rw [item]
  exact Function.update_apply ep.item x _ i

/-- A report shows all that `revents` held; without one there was nothing. -/
theorem shown_within (ep : Eventpoll) (pending : Nat → UInt32) (got ovf : UInt32)
    (kept : Within (pending x) ((ep.item x).revents ||| ovf)) :
    Within (Sys.shown pending (ep.report x got) x) ovf := by
  unfold Eventpoll.report
  split
  case isTrue =>
    show Within (Function.update pending x _ x) ovf
    rw [Function.update_self]
    have gathered : Within (ep.item x).revents (ep.gathered x got) := within_or_left _ _
    exact (kept.trans (gathered.or (Within.refl ovf))).diff
  case isFalse nothing =>
    have empty : ep.gathered x got = 0 := not_not.mp nothing
    have none : (ep.item x).revents = 0 := by
      apply Within.eq_zero
      rw [← empty]
      exact within_or_left _ _
    rw [none, UInt32.zero_or] at kept
    exact kept

theorem shown_of_ne (ep : Eventpoll) (pending : Nat → UInt32) (got : UInt32) {i : Nat}
    (other : i ≠ x) : Sys.shown pending (ep.report x got) i = pending i := by
  unfold Eventpoll.report
  split
  · exact Function.update_of_ne other _ _
  · rfl

/-- Examining an item. -/
theorem Inv.examine (inv : Inv s v) (at_walk : s.poll.pc = .walk) {rest : List Nat}
    (first : v.rest = x :: rest) {poll : Poll}
    (place : poll.pc = .walk ∨ poll.pc = .putBack) (head : poll.head = s.ep.next (.rdllink x))
    (tail : poll.tail = s.poll.tail) (bounded : poll.Bounded) :
    Inv { ep := s.ep.examine x got
          poll := poll
          pending := Sys.shown s.pending (s.ep.report x got) }
      ⟨if s.ep.requeues x got then v.ready ++ [x] else v.ready, rest, v.ovf⟩ := by
  have held := inv.held
  have overflow := inv.overflow
  rw [first] at held
  have after := held.examine got
  have item := s.ep.examine_item (x := x) got
  have list : (s.ep.examine x got).ovflist = s.ep.ovflist := by
    unfold Eventpoll.examine
    cases s.ep.requeues x got <;> rfl
  constructor
  · have here : Sys.head ⟨s.ep.examine x got, poll, s.pending⟩ = s.ep.next (.rdllink x) := by
      unfold Sys.head
      rcases place with pc | pc <;> simp [pc, head]
    show (s.ep.examine x got).Held _ (Sys.head ⟨s.ep.examine x got, poll, s.pending⟩) poll.tail rest
    rw [here, tail]
    exact after
  · have here : Sys.ovf ⟨s.ep.examine x got, poll, s.pending⟩ = s.ovf := by
      unfold Sys.ovf
      rcases place with pc | pc <;> simp [pc, at_walk, list]
    show Overflow _ (Sys.ovf ⟨s.ep.examine x got, poll, s.pending⟩) v.ovf
    rw [here]
    apply overflow.congr
    · intro i
      rw [item i]
      split
      · simp_all
      · rfl
    · intro i
      rw [item i]
      split
      · simp_all
      · rfl
  · intro outside
    rcases place with pc | pc <;> simp [pc, Pc.window] at outside
  · intro i
    by_cases same : i = x
    · subst same
      have linked : s.ep.linked (.rdllink i) = true := (held.linked i).mpr (by simp)
      have kept := inv.kept i
      rw [Eventpoll.stored, if_pos linked] at kept
      have remains : (s.ep.examine i got).stored i = (s.ep.item i).ovfRevents := by
        simp [Eventpoll.stored, item]
      show Within _ ((s.ep.examine i got).stored i)
      rw [remains]
      exact shown_within s.ep s.pending got _ kept
    · have agree : (s.ep.examine x got).linked (.rdllink i) = s.ep.linked (.rdllink i) := by
        rw [Bool.eq_iff_iff, after.linked i, held.linked i]
        split <;> simp [same]
      have stored : (s.ep.examine x got).stored i = s.ep.stored i := by
        simp [Eventpoll.stored, agree, item, same]
      show Within (Sys.shown s.pending (s.ep.report x got) i) ((s.ep.examine x got).stored i)
      rw [stored, shown_of_ne s.ep s.pending got same]
      exact inv.kept i
  · exact bounded

theorem Inv.exhausted (inv : Inv s v) (at_walk : s.poll.pc = .walk) :
    Inv { s with poll := { s.poll with pc := .putBack } } v := by
  have head : Sys.head { s with poll := { s.poll with pc := .putBack } } = s.head := by
    simp [Sys.head, at_walk]
  have ovf : Sys.ovf { s with poll := { s.poll with pc := .putBack } } = s.ovf := by
    simp [Sys.ovf, at_walk]
  refine ⟨?_, ?_, nofun, inv.kept, ⟨inv.bounded.filled, nofun, nofun⟩⟩
  · rw [head]
    exact inv.held
  · rw [ovf]
    exact inv.overflow

/-- Putting the rest back. -/
theorem Inv.putBack (inv : Inv s v) (at_putBack : s.poll.pc = .putBack) :
    Inv { s with ep := s.ep.putBack s.poll.head s.poll.tail
                 poll := { s.poll with pc := .merge, nepi := s.ep.ovflist } }
      ⟨v.ready ++ v.rest, [], v.ovf⟩ := by
  have head : s.head = s.poll.head := by simp [Sys.head, at_putBack]
  have ovf : s.ovf = s.ep.ovflist := by simp [Sys.ovf, at_putBack]
  have held := inv.held
  have overflow := inv.overflow
  rw [head] at held
  rw [ovf] at overflow
  have after := held.putBack s.poll.tail
  have item : (s.ep.putBack s.poll.head s.poll.tail).item = s.ep.item := by
    unfold Eventpoll.putBack
    split <;> rfl
  constructor
  · exact after
  · show Overflow (s.ep.putBack s.poll.head s.poll.tail).item s.ep.ovflist v.ovf
    rw [item]
    exact overflow
  · nofun
  · intro i
    have agree : (s.ep.putBack s.poll.head s.poll.tail).linked (.rdllink i) =
        s.ep.linked (.rdllink i) := by
      rw [Bool.eq_iff_iff, after.linked i, held.linked i]
      simp
    show Within (s.pending i) ((s.ep.putBack s.poll.head s.poll.tail).stored i)
    rw [Eventpoll.stored, agree, item]
    exact inv.kept i
  · exact ⟨inv.bounded.filled, nofun, nofun⟩

theorem Eventpoll.addUnlinked_item (ep : Eventpoll) (x : Nat) :
    (ep.addUnlinked x).item = ep.item := by
  unfold Eventpoll.addUnlinked
  split <;> rfl

theorem Eventpoll.Held.addUnlinked {ep : Eventpoll} {queue rest : List Nat} {head tail : Node}
    (held : ep.Held queue head tail rest) (x : Nat) :
    (ep.addUnlinked x).Held (if ep.linked (.rdllink x) then queue else queue ++ [x]) head tail
      rest := by
  unfold Eventpoll.addUnlinked
  cases linked : ep.linked (.rdllink x) with
  | true => exact held
  | false => exact held.hlistAddTail linked

theorem Eventpoll.merge_item (ep : Eventpoll) (x : Nat) :
    (ep.merge x).item = Function.update ep.item x
      { ep.item x with revents := (ep.item x).revents ||| (ep.item x).ovfRevents
                       ovfRevents := 0
                       next := .unactive } := by
  unfold Eventpoll.merge
  show Function.update (Eventpoll.addUnlinked _ x).item x _ = _
  rw [Eventpoll.addUnlinked_item]
  simp [Eventpoll.modify]

/-- Merging one item of `ovflist`. -/
theorem Inv.merge (inv : Inv s v) (at_merge : s.poll.pc = .merge) {ovf : List Nat}
    (first : v.ovf = x :: ovf) :
    Inv { s with ep := s.ep.merge x, poll := { s.poll with nepi := (s.ep.item x).next } }
      ⟨if s.ep.linked (.rdllink x) then v.ready else v.ready ++ [x], v.rest, ovf⟩ := by
  have head : s.head = .null := by simp [Sys.head, at_merge]
  have held := inv.held
  have overflow := inv.overflow
  rw [first] at overflow
  have noted (f : Epitem → Epitem) : (s.ep.modify x f).Held v.ready s.head s.poll.tail v.rest :=
    held.congr rfl rfl rfl
  have after : (s.ep.merge x).Held _ s.head s.poll.tail v.rest :=
    ((noted _).addUnlinked x).congr rfl rfl rfl
  have item := s.ep.merge_item x
  constructor
  · have here : Sys.head { s with ep := s.ep.merge x
                                  poll := { s.poll with nepi := (s.ep.item x).next } } =
                                    s.head := by
      simp [Sys.head, at_merge]
    rw [here]
    exact after
  · have here : Sys.ovf { s with ep := s.ep.merge x
                                 poll := { s.poll with nepi := (s.ep.item x).next } } =
        (s.ep.item x).next := by
      simp [Sys.ovf, at_merge]
    rw [here]
    show Overflow (s.ep.merge x).item (s.ep.item x).next ovf
    rw [item]
    exact overflow.pop _
  · intro outside
    simp [at_merge, Pc.window] at outside
  · intro i
    show Within (s.pending i) ((s.ep.merge x).stored i)
    have kept := inv.kept i
    by_cases same : i = x
    · subst same
      have linked : (s.ep.merge i).linked (.rdllink i) = true := by
        apply (after.linked i).mpr
        split
        case isTrue old =>
          exact (held.linked i).mp old
        case isFalse => simp
      rw [Eventpoll.stored, if_pos linked, item, Function.update_self]
      apply kept.trans
      unfold Eventpoll.stored
      split
      · exact within_or_left _ _
      · simp only [UInt32.zero_or]
        exact (within_or_right _ _).trans (within_or_left _ _)
    · have agree : (s.ep.merge x).linked (.rdllink i) = s.ep.linked (.rdllink i) := by
        rw [Bool.eq_iff_iff, after.linked i, held.linked i]
        split <;> simp [same]
      have stored : (s.ep.merge x).stored i = s.ep.stored i := by
        rw [Eventpoll.stored, agree, item, Function.update_of_ne same, Eventpoll.stored]
      rw [stored]
      exact kept
  · refine ⟨inv.bounded.filled, ?_, ?_⟩
    · intro pc
      exact absurd (at_merge.symm.trans pc) nofun
    · intro _ outside
      simp [at_merge, Pc.window] at outside

theorem Inv.finish (inv : Inv s v) (at_merge : s.poll.pc = .merge) (last : v.ovf = []) :
    Inv { s with ep := { s.ep with ovflist := .unactive }
                 poll := { s.poll with pc := .returned } } v := by
  have head : s.head = .null := by simp [Sys.head, at_merge]
  have held := inv.held
  have overflow := inv.overflow
  rw [head] at held
  have null : s.ovf = .null := by
    rw [last] at overflow
    exact overflow.chain
  rw [null] at overflow
  constructor
  · exact held.congr rfl rfl rfl
  · exact overflow
  · intro _
    rfl
  · exact inv.kept
  · exact ⟨inv.bounded.filled, nofun, fun other => absurd rfl other⟩

/-- What a step of a poll does to the lists. -/
def Advances (s : Sys) (got : UInt32) (v v' : Lists) : Prop :=
  match s.poll.pc with
  | .detach => v'.ready = [] ∧ v'.rest = v.ready ∧ v'.ovf = []
  | .walk =>
    v'.ovf = v.ovf ∧
      match v.rest with
      | [] => v'.ready = v.ready ∧ v'.rest = []
      | x :: rest =>
        -- a reported item is put back on the ready list if it is level-triggered
        v'.rest = rest ∧ v'.ready =
          if s.written got ≠ none ∧ (s.ep.item x).events &&& epollEt = 0 then v.ready ++ [x]
          else v.ready
  | .putBack => v'.ready = v.ready ++ v.rest ∧ v'.rest = [] ∧ v'.ovf = v.ovf
  | .merge =>
    v'.rest = [] ∧ v'.ovf = v.ovf.tail ∧
      (v'.ready = v.ready ∨ ∃ x ∈ v.ovf.head?, v'.ready = v.ready ++ [x])
  | _ => v' = v

theorem requeues_iff (ep : Eventpoll) (x : Nat) (got : UInt32) :
    ep.requeues x got = true ↔ ep.report x got ≠ none ∧ (ep.item x).events &&& epollEt = 0 := by
  rw [← and_flag_ne_iff 31 (by decide : epollEt.toNat = 2 ^ 31)]
  unfold Eventpoll.requeues Eventpoll.report
  by_cases nothing : ep.gathered x got = 0 <;> simp [nothing]

theorem Poll.Bounded.move {poll : Poll} (bounded : poll.Bounded) (running : poll.pc ≠ .returned)
    (outside : poll.pc.window = false) {pc : Pc} (next : pc.window = false) :
    { poll with pc := pc }.Bounded := by
  refine ⟨bounded.filled, ?_, fun _ _ => bounded.none running outside⟩
  rintro rfl
  exact absurd next nofun

theorem Poll.Bounded.examine {poll : Poll} (bounded : poll.Bounded) (at_walk : poll.pc = .walk)
    (head : Node) (report : Option Report) :
    { poll with pc := if (poll.reports ++ report.toList).length ≥ poll.maxevents then .putBack
                      else .walk
                head := head
                reports := poll.reports ++ report.toList }.Bounded := by
  have room := bounded.room at_walk
  have one : report.toList.length ≤ 1 := by cases report <;> simp
  constructor
  · simp only [List.length_append]
    omega
  · intro pc
    show (poll.reports ++ report.toList).length < poll.maxevents
    simpa using pc
  · intro _ outside
    dsimp only at outside
    split at outside <;> exact absurd outside nofun

/-- A step of a poll. -/
theorem Inv.advance (inv : Inv s v) (taken : s.act (.advance got) = some s') :
    ∃ v', Inv s' v' ∧ Advances s got v v' := by
  obtain ⟨running, rfl⟩ := of_unrefused taken
  cases pc : s.poll.pc with
  | returned => exact absurd pc running
  | start | locked =>
    refine ⟨v, ?_, by simp [Advances, pc]⟩
    have outside : s.poll.pc.window = false := by rw [pc]; rfl
    simp only [pollStep, Sys.written, pc, Sys.shown]
    split
    · exact inv.move outside rfl rfl (inv.bounded.move running outside rfl)
    · exact inv.move outside rfl rfl (inv.bounded.move running outside rfl)
  | detach =>
    refine ⟨⟨[], v.ready, []⟩, ?_, by simp [Advances, pc]⟩
    simp only [pollStep, Sys.written, pc, Sys.shown]
    exact inv.detach pc
  | walk =>
    have here : s.head = s.poll.head := by simp [Sys.head, pc]
    have detached := inv.held.detached
    rw [here] at detached
    cases rest : v.rest with
    | nil =>
      rw [rest] at detached
      have null : s.poll.head = .null := detached
      have step : pollStep s.ep s.poll got = (s.ep, { s.poll with pc := .putBack }) := by
        simp [pollStep, pc, null]
      have silent : s.written got = none := by simp [Sys.written, pc, null]
      refine ⟨v, ?_, by simp [Advances, pc, rest]⟩
      rw [step, silent]
      exact inv.exhausted pc
    | cons x rest' =>
      rw [rest] at detached
      have head : s.poll.head = .rdllink x := detached.1
      refine ⟨⟨if s.ep.requeues x got then v.ready ++ [x] else v.ready, rest', v.ovf⟩, ?_, ?_⟩
      · simp only [pollStep, Sys.written, pc, head]
        apply inv.examine pc rest
        · dsimp only
          split
          · exact Or.inr rfl
          · exact Or.inl rfl
        · rfl
        · rfl
        · exact inv.bounded.examine pc _ _
      · simp [Advances, pc, rest, Sys.written, head, requeues_iff]
  | putBack =>
    refine ⟨⟨v.ready ++ v.rest, [], v.ovf⟩, ?_, by simp [Advances, pc]⟩
    simp only [pollStep, Sys.written, pc, Sys.shown]
    exact inv.putBack pc
  | merge =>
    have here : s.ovf = s.poll.nepi := by simp [Sys.ovf, pc]
    have head : s.head = .null := by simp [Sys.head, pc]
    have chain := inv.overflow.chain
    have held := inv.held
    rw [here] at chain
    rw [head] at held
    have noRest := held.rest_eq_nil
    cases ovf : v.ovf with
    | nil =>
      rw [ovf] at chain
      have null : s.poll.nepi = .null := chain
      refine ⟨v, ?_, ?_⟩
      · have step : pollStep s.ep s.poll got =
            ({ s.ep with ovflist := .unactive }, { s.poll with pc := .returned }) := by
          simp [pollStep, pc, null]
        have silent : s.written got = none := by simp [Sys.written, pc]
        rw [step, silent]
        exact inv.finish pc ovf
      · simp [Advances, pc, noRest, ovf]
    | cons x ovf' =>
      rw [ovf] at chain
      have first : s.poll.nepi = .epi x := chain.1
      refine ⟨⟨if s.ep.linked (.rdllink x) then v.ready else v.ready ++ [x], v.rest, ovf'⟩,
        ?_, ?_⟩
      · have step : pollStep s.ep s.poll got =
            (s.ep.merge x, { s.poll with nepi := (s.ep.item x).next }) := by
          simp [pollStep, pc, first]
        have silent : s.written got = none := by simp [Sys.written, pc]
        rw [step, silent]
        exact inv.merge pc ovf
      · simp only [Advances, pc, ovf]
        refine ⟨noRest, rfl, ?_⟩
        split
        · exact Or.inl rfl
        · exact Or.inr ⟨x, rfl, rfl⟩

/-! ## Callbacks and control -/

/-- Between taking the list off and putting it back the second list is open. -/
theorem Inv.window_iff (inv : Inv s v) (unlocked : s.poll.pc ≠ .merge) :
    s.ep.ovflist ≠ .unactive ↔ s.poll.pc = .walk ∨ s.poll.pc = .putBack := by
  have chain := inv.overflow.chain.ne_unactive
  have closed := inv.closed
  cases pc : s.poll.pc <;> simp_all [Sys.ovf, Pc.window]

/-- The bits of a callback are kept along with what was kept before. -/
theorem kept_update {pending : Nat → UInt32} {ep ep' : Eventpoll} (bits : UInt32)
    (kept : ∀ i, Within (pending i) (ep.stored i))
    (others : ∀ i, i ≠ x → ep'.stored i = ep.stored i)
    (grows : Within (ep.stored x ||| bits) (ep'.stored x)) (i : Nat) :
    Within (Function.update pending x (pending x ||| bits) i) (ep'.stored i) := by
  by_cases same : i = x
  · subst same
    rw [Function.update_self]
    exact ((kept i).or (Within.refl bits)).trans grows
  · rw [Function.update_of_ne same, others i same]
    exact kept i

/-- A callback while a poll has the list. -/
theorem Inv.callback_window (inv : Inv s v) (unlocked : s.poll.pc ≠ .merge)
    (requested : (s.ep.item x).events &&& events ≠ 0) (window : s.ep.ovflist ≠ .unactive) :
    Inv (s.called x events)
      ⟨v.ready, v.rest, if (s.ep.item x).next = .unactive then x :: v.ovf else v.ovf⟩ := by
  have pc := (inv.window_iff unlocked).mp window
  have here : s.ovf = s.ep.ovflist := by rcases pc with pc | pc <;> simp [Sys.ovf, pc]
  have overflow := inv.overflow
  rw [here] at overflow
  have links : (s.ep.eventCallback x events).next = s.ep.next ∧
      (s.ep.eventCallback x events).pprev = s.ep.pprev ∧
      (s.ep.eventCallback x events).tail = s.ep.tail := by
    rw [Eventpoll.eventCallback, if_neg requested, if_pos window]
    by_cases free : (s.ep.item x).next = .unactive <;> simp [free, Eventpoll.modify]
  have after : Overflow (s.ep.eventCallback x events).item (s.ep.eventCallback x events).ovflist
      (if (s.ep.item x).next = .unactive then x :: v.ovf else v.ovf) := by
    rw [Eventpoll.eventCallback, if_neg requested, if_pos window]
    by_cases free : (s.ep.item x).next = .unactive
    · have absent : x ∉ v.ovf := fun member => (overflow.queued x).mpr member free
      rw [if_pos free, if_pos free]
      exact (overflow.push absent).store List.mem_cons_self _
    · rw [if_neg free, if_neg free]
      exact overflow.store ((overflow.queued x).mp free) _
  have item (i : Nat) : ((s.ep.eventCallback x events).item i).revents = (s.ep.item i).revents ∧
      ((s.ep.eventCallback x events).item i).ovfRevents =
        if i = x then (s.ep.item x).ovfRevents ||| events else (s.ep.item i).ovfRevents := by
    rw [Eventpoll.eventCallback, if_neg requested, if_pos window]
    by_cases free : (s.ep.item x).next = .unactive <;> by_cases same : i = x <;>
      simp [free, same, Eventpoll.modify]
  have linked (i : Nat) :
      (s.ep.eventCallback x events).linked (.rdllink i) = s.ep.linked (.rdllink i) := by
    rw [Eventpoll.linked, Eventpoll.linked, links.2.1]
  rw [Sys.called]
  constructor
  · exact inv.held.congr links.1 links.2.1 links.2.2
  · have pointer : Sys.ovf { s with ep := s.ep.eventCallback x events } =
        (s.ep.eventCallback x events).ovflist := by
      rcases pc with pc | pc <;> simp [Sys.ovf, pc]
    show Overflow _ (Sys.ovf { s with ep := s.ep.eventCallback x events }) _
    rw [pointer]
    exact after
  · intro outside
    rcases pc with pc | pc <;> simp [pc, Pc.window] at outside
  · apply kept_update _ inv.kept
    · intro i other
      simp only [Eventpoll.stored, linked, item, if_neg other]
    · simp only [Eventpoll.stored, linked, item, if_true, ← UInt32.or_assoc]
      exact (Within.refl _).or (and_within_right _ _)
  · exact inv.bounded

/-- A callback while no poll has the list. -/
theorem Inv.callback_direct (inv : Inv s v) (unlocked : s.poll.pc ≠ .merge)
    (requested : (s.ep.item x).events &&& events ≠ 0) (direct : s.ep.ovflist = .unactive) :
    Inv (s.called x events)
      ⟨if s.ep.linked (.rdllink x) then v.ready else v.ready ++ [x], v.rest, v.ovf⟩ := by
  have outside : ¬ (s.poll.pc = .walk ∨ s.poll.pc = .putBack) := fun pc =>
    (inv.window_iff unlocked).mpr pc direct
  have after : (s.ep.eventCallback x events).Held
      (if s.ep.linked (.rdllink x) then v.ready else v.ready ++ [x]) s.head s.poll.tail v.rest := by
    rw [Eventpoll.eventCallback, if_neg requested, if_neg (not_not.mpr direct)]
    cases linked : s.ep.linked (.rdllink x) with
    | true => exact inv.held.congr rfl rfl rfl
    | false => exact (inv.held.hlistAddTail linked).congr rfl rfl rfl
  have list : (s.ep.eventCallback x events).ovflist = s.ep.ovflist := by
    rw [Eventpoll.eventCallback, if_neg requested, if_neg (not_not.mpr direct)]
    cases linked : s.ep.linked (.rdllink x) <;> rfl
  have item (i : Nat) : (s.ep.eventCallback x events).item i =
      if i = x then { s.ep.item x with
        revents := (s.ep.item x).revents ||| ((s.ep.item x).events &&& events) }
      else s.ep.item i := by
    have update : (s.ep.eventCallback x events).item = Function.update s.ep.item x
        { s.ep.item x with
          revents := (s.ep.item x).revents ||| ((s.ep.item x).events &&& events) } := by
      rw [Eventpoll.eventCallback, if_neg requested, if_neg (not_not.mpr direct)]
      cases linked : s.ep.linked (.rdllink x) <;> rfl
    rw [update]
    exact Function.update_apply s.ep.item x _ i
  rw [Sys.called]
  constructor
  · exact after
  · have pointer : Sys.ovf { s with ep := s.ep.eventCallback x events } = s.ovf := by
      unfold Sys.ovf
      cases pc : s.poll.pc <;> simp_all
    show Overflow _ (Sys.ovf { s with ep := s.ep.eventCallback x events }) _
    rw [pointer]
    apply inv.overflow.congr
    · intro i
      rw [item i]
      split
      · simp_all
      · rfl
    · intro i
      rw [item i]
      split
      · simp_all
      · rfl
  · intro _
    exact list.trans direct
  · apply kept_update _ inv.kept
    · intro i other
      have agree : (s.ep.eventCallback x events).linked (.rdllink i) =
          s.ep.linked (.rdllink i) := by
        rw [Bool.eq_iff_iff, after.linked i, inv.held.linked i]
        split <;> simp [other]
      simp only [Eventpoll.stored, agree, item, if_neg other]
    · have linked : (s.ep.eventCallback x events).linked (.rdllink x) = true := by
        apply (after.linked x).mpr
        split
        case isTrue old => exact (inv.held.linked x).mp old
        case isFalse => simp
      simp only [Eventpoll.stored, linked, item, if_true]
      apply or_within
      · apply Within.or
        · split
          · exact within_or_left _ _
          · exact zero_within _
        · exact Within.refl _
      · exact (within_or_right _ _).trans (within_or_left _ _)
  · exact inv.bounded

theorem Sys.called_of_unrequested (unrequested : (s.ep.item x).events &&& events = 0) :
    s.called x events = s := by
  have same : s.ep.eventCallback x events = s.ep := if_pos unrequested
  rw [Sys.called, same, unrequested, UInt32.or_zero, Function.update_eq_self]

theorem Inv.callback (inv : Inv s v) (taken : s.act (.callback x events) = some s') :
    ∃ v', Inv s' v' := by
  obtain ⟨unlocked, rfl⟩ := of_unrefused taken
  by_cases requested : (s.ep.item x).events &&& events = 0
  · rw [Sys.called_of_unrequested requested]
    exact ⟨v, inv⟩
  · by_cases direct : s.ep.ovflist = .unactive
    · exact ⟨_, inv.callback_direct unlocked requested direct⟩
    · exact ⟨_, inv.callback_window unlocked requested direct⟩

/-- A change of links that leaves the items alone and loses nothing. -/
theorem Inv.relink (inv : Inv s v) {ep : Eventpoll} {queue : List Nat}
    (held : ep.Held queue s.head s.poll.tail v.rest) (item : ep.item = s.ep.item)
    (list : ep.ovflist = s.ep.ovflist)
    (safe : ∀ i, s.ep.linked (.rdllink i) = true → ep.linked (.rdllink i) = false →
      Within (s.pending i) (s.ep.item i).ovfRevents) :
    Inv { s with ep := ep } ⟨queue, v.rest, v.ovf⟩ := by
  constructor
  · exact held
  · have pointer : Sys.ovf { s with ep := ep } = s.ovf := by
      unfold Sys.ovf
      rw [list]
    rw [pointer]
    show Overflow ep.item s.ovf v.ovf
    rw [item]
    exact inv.overflow
  · intro outside
    exact list.trans (inv.closed outside)
  · intro i
    have kept := inv.kept i
    show Within (s.pending i) (ep.stored i)
    unfold Eventpoll.stored at kept ⊢
    rw [item]
    cases now : ep.linked (.rdllink i) with
    | true =>
      apply kept.trans
      apply Within.or
      · split
        · exact Within.refl _
        · exact zero_within _
      · exact Within.refl _
    | false =>
      cases before : s.ep.linked (.rdllink i) with
      | true => exact (safe i before now).trans (within_or_right _ _)
      | false => simpa [before] using kept
  · exact inv.bounded

/-- Putting an item on the list by `nsep_ctl_event_add`. -/
theorem Inv.addUnlinked (inv : Inv s v) (post : Nat) :
    ∃ v', Inv { s with ep := { s.ep.addUnlinked x with waitSem := post } } v' := by
  refine ⟨_, inv.relink ((inv.held.addUnlinked x).congr rfl rfl rfl) (s.ep.addUnlinked_item x) ?_
    ?_⟩
  · unfold Eventpoll.addUnlinked
    split <;> rfl
  · intro i before now
    have after := (inv.held.addUnlinked x).linked i
    have gone : (s.ep.addUnlinked x).linked (.rdllink i) = false := now
    rw [← Bool.not_eq_true, after] at gone
    rcases (inv.held.linked i).mp before with old | old
    · refine absurd (Or.inl ?_) gone
      split <;> simp [old]
    · exact absurd (Or.inr old) gone

/-- `nsep_ctl_event_add` may take an item off the list: then it has to be on the ready list, and
its events that are not reported have to be on their way through `ovflist`. -/
def Sys.Safe (s : Sys) : Action → Prop
  | .ctl epi .mod events =>
    events &&& (s.ep.item epi).events ≠ 0 ∨ s.ep.linked (.rdllink epi) = false ∨
      (s.ep.item epi).events &&& epollEt = 0 ∨
      s.ep.OnReady epi ∧ Within (s.pending epi) (s.ep.item epi).ovfRevents
  | _ => True

/-- `nsep_ctl_event_add` -/
theorem Inv.ctl (inv : Inv s v) {triggleOps : Eventpoll.Triggle}
    (safe : s.Safe (.ctl x triggleOps events))
    (taken : s.act (.ctl x triggleOps events) = some s') :
    ∃ v', Inv s' v' := by
  obtain ⟨-, rfl⟩ := of_unrefused taken
  cases triggleOps with
  | add =>
    by_cases come : events &&& (s.ep.item x).events ≠ 0
    · have effect : s.ep.ctlEventAdd x .add events = (s.ep.addUnlinked x).semPost := if_pos come
      rw [effect]
      exact inv.addUnlinked _
    · have effect : s.ep.ctlEventAdd x .add events = s.ep := if_neg come
      rw [effect]
      exact ⟨v, inv⟩
  | mod =>
    simp only [Eventpoll.ctlEventAdd]
    split
    case isTrue come =>
      cases linked : s.ep.linked (.rdllink x) with
      | true => exact ⟨v, inv⟩
      | false =>
        have effect : s.ep.addUnlinked x = s.ep.hlistAddTail (.rdllink x) := by
          simp [Eventpoll.addUnlinked, linked]
        rw [if_neg nofun, ← effect]
        exact inv.addUnlinked _
    case isFalse come =>
      split
      case isFalse => exact ⟨v, inv⟩
      case isTrue leaves =>
        -- the item is taken off the list
        rcases safe with some | unlinked | level | ⟨onReady, waits⟩
        · exact absurd some come
        · rw [leaves.1] at unlinked
          contradiction
        · exact absurd level leaves.2
        · have member := inv.held.ready.mem_of_onReady onReady
          obtain ⟨l₁, l₂, split⟩ := List.append_of_mem member
          have held := inv.held
          rw [split] at held
          refine ⟨_, inv.relink held.hlistDel ?_ ?_ ?_⟩
          · rw [Eventpoll.hlistDel, if_pos leaves.1]
            dsimp only
            split <;> rfl
          · rw [Eventpoll.hlistDel, if_pos leaves.1]
            dsimp only
            split <;> rfl
          · intro i before now
            by_cases same : i = x
            · rw [same]
              exact waits
            · rw [held.ready.hlistDel_linked same, before] at now
              contradiction

theorem Inv.call (inv : Inv s v) {maxevents : Nat} (taken : s.act (.poll maxevents) = some s') :
    Inv s' ⟨v.ready, v.rest, v.ovf⟩ := by
  obtain ⟨can, rfl⟩ := of_guarded taken
  have outside : s.poll.pc.window = false := by simp [can.1, Pc.window]
  obtain ⟨rest, -, head, ovf⟩ := inv.quiet outside
  have held := inv.held
  have overflow := inv.overflow
  rw [head] at held
  rw [ovf] at overflow
  refine ⟨?_, overflow, fun _ => inv.closed outside, inv.kept, ?_⟩
  · exact ⟨held.ready, rest ▸ rfl, held.apart, held.linked⟩
  · exact ⟨Nat.zero_le _, nofun, fun _ _ => ⟨rfl, can.2⟩⟩

theorem Inv.act (inv : Inv s v) {action : Action} (safe : s.Safe action)
    (taken : s.act action = some s') : ∃ v', Inv s' v' := by
  cases action with
  | poll maxevents => exact ⟨_, inv.call taken⟩
  | advance got =>
    obtain ⟨v', after, -⟩ := inv.advance taken
    exact ⟨v', after⟩
  | callback epi events => exact inv.callback taken
  | ctl epi triggleOps events => exact inv.ctl safe taken

/-! ## What a run keeps -/

/-- The state of the lists, and that no event is lost. -/
structure Keeps (s : Sys) (v : Lists) : Prop where
  ready : s.ep.Ready v.ready
  part : s.ep.Detached s.head s.poll.tail v.rest
  once : (v.ready ++ v.rest).Nodup
  linked : ∀ i, s.ep.pprev (.rdllink i) ≠ .null ↔ i ∈ v.ready ∨ i ∈ v.rest
  delivered : s.poll.pc = .returned → v.rest = [] ∧ ∀ i, s.pending i ≠ 0 →
    i ∈ v.ready ∧ Within (s.pending i) (s.ep.item i).revents
  filled : s.poll.reports.length ≤ s.poll.maxevents

theorem Inv.keeps (inv : Inv s v) : Keeps s v := by
  refine ⟨inv.held.ready, inv.held.detached, inv.held.apart, ?_, ?_, inv.bounded.filled⟩
  · intro i
    have linked := inv.held.linked i
    simpa [Eventpoll.linked] using linked
  · intro returned
    have outside : s.poll.pc.window = false := by simp [returned, Pc.window]
    obtain ⟨rest, ovf, -, -⟩ := inv.quiet outside
    refine ⟨rest, ?_⟩
    intro i owed
    have clean := inv.overflow.clean i (by simp [ovf])
    have kept := inv.kept i
    rw [Eventpoll.stored, clean, UInt32.or_zero] at kept
    split at kept
    case isTrue linked =>
      refine ⟨?_, kept⟩
      simpa [rest] using (inv.held.linked i).mp linked
    case isFalse => exact absurd kept.eq_zero owed

/-- In every run in which `nsep_ctl_event_add` is used safely the lists are well formed and keep
every event, and each step of a poll treats the lists as it should. -/
theorem ready_list_keeps_events (events : Nat → UInt32) (data : Nat → UInt64) (rmidx : Nat → Int)
    (run : Runs Sys.act Sys.Safe (Sys.fresh events data rmidx) s) :
    ∃ v, Keeps s v ∧ ∀ got s', s.act (.advance got) = some s' →
      ∃ v', Keeps s' v' ∧ Advances s got v v' := by
  have reached : ∃ v, Inv s v := by
    apply run.invariant ⟨_, inv_fresh events data rmidx⟩
    rintro t action u ⟨v, inv⟩ safe taken
    exact inv.act safe taken
  obtain ⟨v, inv⟩ := reached
  refine ⟨v, inv.keeps, ?_⟩
  intro got s' taken
  obtain ⟨v', after, advances⟩ := inv.advance taken
  exact ⟨v', after.keeps, advances⟩

end

/-- Item 0 is level-triggered, the others are edge-triggered; all ask for input. -/
def sample : Sys :=
  Sys.fresh (fun i => if i = 0 then 0x19 else 0x80000019) (fun i => UInt64.ofNat i) fun _ => -1

/-- Nothing is taken off the list. -/
def Sys.removesNothing (s : Sys) : Action → Bool
  | .ctl epi .mod events =>
    decide (events &&& (s.ep.item epi).events ≠ 0) || !s.ep.linked (.rdllink epi)
  | _ => true

theorem Sys.safe_of_removesNothing (s : Sys) (action : Action)
    (guard : s.removesNothing action = true) : s.Safe action := by
  unfold Sys.removesNothing at guard
  unfold Sys.Safe
  split
  · rcases Bool.or_eq_true_iff.mp guard with come | unlinked
    · exact Or.inl (of_decide_eq_true come)
    · exact Or.inr (Or.inl (by simpa using unlinked))
  · trivial

/-- A poll of one entry with three items, a callback while it has the list and a control step:
the reported item is back on the list, in front of the others. -/
theorem ready_list_three_items :
    ∃ s, Runs Sys.act Sys.Safe sample s ∧ s.poll.reports = [⟨0, 1, 0⟩] ∧
      ∃ v, Keeps s v ∧ ∀ got s', s.act (.advance got) = some s' →
        ∃ v', Keeps s' v' ∧ Advances s got v v' := by
  have ran : ∃ s, Runs Sys.act Sys.Safe sample s ∧
      decide (s.poll.reports = [⟨0, 1, 0⟩]) = true := by
    apply exists_runs_of_execute Sys.removesNothing [.callback 0 1, .callback 1 1, .poll 1,
      .advance 0, .advance 0,
      .advance 0, .advance 0, .callback 2 1, .ctl 1 .mod 1, .advance 0, .advance 0, .advance 0]
      Sys.safe_of_removesNothing
    decide +kernel
  obtain ⟨s, run, reports⟩ := ran
  exact ⟨s, run, of_decide_eq_true reports, ready_list_keeps_events _ _ _ run⟩

/-- Between polls a control step takes an item off the list whose event was not reported; while a
poll has the list, one leaves the list with a first node and no last one. -/
theorem removal_loses_event :
    (∃ s, Runs Sys.act (fun _ _ => True) sample s ∧ s.poll.pc = .returned ∧ s.pending 1 = 1 ∧
      s.ep.linked (.rdllink 1) = false ∧ ¬ ∃ v, Keeps s v) ∧
    ∃ s, Runs Sys.act (fun _ _ => True) sample s ∧ s.ep.next .list = .rdllink 2 ∧
      s.ep.tail = .list ∧ ¬ ∃ v, Keeps s v := by
  constructor
  · have ran : ∃ s, Runs Sys.act (fun _ _ => True) sample s ∧
        decide (s.poll.pc = .returned ∧ s.pending 1 = 1 ∧ s.ep.linked (.rdllink 1) = false) =
          true := by
      apply exists_runs_of_execute (fun _ _ => true) [.callback 1 1, .ctl 1 .mod 0]
        fun _ _ _ => trivial
      decide +kernel
    obtain ⟨s, run, facts⟩ := ran
    obtain ⟨returned, pending, unlinked⟩ := of_decide_eq_true facts
    refine ⟨s, run, returned, pending, unlinked, ?_⟩
    rintro ⟨v, keeps⟩
    have owed : s.pending 1 ≠ 0 := by simp [pending]
    have member := ((keeps.delivered returned).2 1 owed).1
    rw [keeps.ready.linked_of_mem member] at unlinked
    contradiction
  · have ran : ∃ s, Runs Sys.act (fun _ _ => True) sample s ∧
        decide (s.ep.next .list = .rdllink 2 ∧ s.ep.tail = .list) = true := by
      apply exists_runs_of_execute (fun _ _ => true) [.callback 1 1, .callback 2 1,
        .poll 2, .advance 0, .advance 0, .advance 0, .ctl 1 .mod 0] fun _ _ _ => trivial
      decide +kernel
    obtain ⟨s, run, facts⟩ := ran
    obtain ⟨first, last⟩ := of_decide_eq_true facts
    refine ⟨s, run, first, last, ?_⟩
    rintro ⟨v, keeps⟩
    have empty : v.ready = [] := by
      cases ready : v.ready with
      | nil => rfl
      | cons x l =>
        have tail := keeps.ready.tail_eq
        rw [last, ready, nodes_cons, List.getLastD_cons] at tail
        have inside := Linked.getLastD_mem (nodes l) (.rdllink x)
        rw [← tail, ← nodes_cons] at inside
        simp at inside
    have nothing := (keeps.ready.hlistEmpty_iff).mpr empty
    simp [Eventpoll.hlistEmpty, first] at nothing

end Dmm.Epoll
